import JavaMigration.Proofs.Markup.Header

/-!
# What is read

Whatever the text, a comment that is read holds no end of a comment, a header value no end of a
header, and a tag no attribute twice.
-/

namespace JavaMigration.Markup

open Text

theorem splitAtMark_eq_some {mark s before after : List Char} (nonempty : mark ≠ [])
    (h : splitAtMark mark s = some (before, after)) :
    s = before ++ (mark ++ after) ∧ ¬mark <:+: before := by
  induction s generalizing before with
  | nil =>
    rw [splitAtMark] at h
    split at h
    · rename_i here
      have empty := List.prefix_nil.1 (List.isPrefixOf_iff_prefix.1 here)
      exact absurd empty nonempty
    · cases h
  | cons c rest ih =>
    rw [splitAtMark] at h
    split at h
    · rename_i here
      obtain ⟨tail, whole⟩ := List.isPrefixOf_iff_prefix.1 here
      simp only [Option.some.injEq, Prod.mk.injEq] at h
      obtain ⟨rfl, rfl⟩ := h
      rw [← whole, List.drop_left]
      exact ⟨rfl, fun inner => nonempty (List.infix_nil.1 inner)⟩
    · rename_i later
      obtain ⟨⟨before', after'⟩, split, same⟩ := Option.map_eq_some_iff.1 h
      simp only [Prod.mk.injEq] at same
      obtain ⟨rfl, rfl⟩ := same
      obtain ⟨whole, absent⟩ := ih split
      refine ⟨by rw [whole, List.cons_append], ?_⟩
      intro inner
      rcases List.infix_cons_iff.1 inner with begins | inner
      · apply later
        apply List.isPrefixOf_iff_prefix.2
        apply begins.trans
        rw [whole, ← List.cons_append]
        exact List.prefix_append _ _
      · exact absent inner

theorem parts_of_splitTag {quote : Option Char} {s before after : List Char}
    (h : splitTag quote s = some (before, after)) :
    before <+: s ∧ after <:+ s := by
  induction s generalizing before quote with
  | nil => cases h
  | cons c s ih =>
    simp only [splitTag] at h
    split at h
    · cases h
      exact ⟨List.nil_prefix, List.suffix_cons c after⟩
    · obtain ⟨⟨front, back⟩, split, same⟩ := Option.map_eq_some_iff.1 h
      cases same
      obtain ⟨front, back⟩ := ih split
      exact ⟨List.cons_prefix_cons.2 ⟨rfl, front⟩, back.trans (List.suffix_cons c s)⟩

theorem suffix_of_splitBalanced {depth : Nat} {s before after : List Char}
    (h : splitBalanced depth s = some (before, after)) : after <:+ s := by
  induction s generalizing before depth with
  | nil => cases h
  | cons c s ih =>
    simp only [splitBalanced] at h
    split at h
    · cases h
      exact List.suffix_cons c after
    · obtain ⟨⟨front, back⟩, split, same⟩ := Option.map_eq_some_iff.1 h
      cases same
      exact (ih split).trans (List.suffix_cons c s)

theorem suffix_of_dropWhile {p : Char → Bool} {s rest : List Char} {c : Char}
    (h : s.dropWhile p = c :: rest) : rest <:+ s := by
  have within : c :: rest <:+ s := by
    rw [← h]
    exact List.dropWhile_suffix p
  exact (List.suffix_cons c rest).trans within

theorem infix_of_scanAttributes (total n : Nat) (s : List Char) :
    ∀ a ∈ (scanAttributes total n s).attributes, ∀ value, a.value = .ok value → value <:+: s := by
  fun_induction scanAttributes total n s with
  | case1 | case2 | case3 =>
    intro a mem
    cases mem
  | case4 | case5 | case6 =>
    intro a mem value read
    rw [List.mem_singleton.1 mem] at read
    cases read
  | case7 n s _ rest hs _ inKey _ _ _ _ afterEquals he _ _ quote body hq _ found _ after hc _ others
      ih =>
    have toEquals : afterEquals <:+ s :=
      ((suffix_of_dropWhile he).trans (List.dropWhile_suffix inKey)).trans (suffix_of_dropWhile hs)
    have toBody : body <:+ s := (suffix_of_dropWhile hq).trans toEquals
    intro a mem value read
    rcases List.mem_cons.1 mem with rfl | mem
    · cases read
      exact (List.takeWhile_prefix _).isInfix.trans toBody.isInfix
    · exact (ih a mem value read).trans ((suffix_of_dropWhile hc).trans toBody).isInfix

theorem infix_of_rawValue? {list : List RawAttribute} {s : List Char} {key value : String}
    (within : ∀ a ∈ list, ∀ value, a.value = .ok value → value <:+: s)
    (h : rawValue? list key = some value) : value.toList <:+: s := by
  unfold rawValue? at h
  split at h
  · rename_i found
    simp only [Option.some.injEq] at h
    rw [← h, String.toList_ofList]
    exact within _ (List.mem_of_find?_eq_some found) _ rfl
  · cases h

/-- A value of a header stands in its content, but for the version of one that has none. -/
theorem infix_of_readDeclaration (content : List Char) :
    ∀ v ∈ (readDeclaration content).values, v = "1.0" ∨ v.toList <:+: content := by
  have within := infix_of_scanAttributes (3 + width content) 3 content
  intro v mem
  simp only [Declaration.values, readDeclaration, List.mem_cons, List.mem_append,
    Option.mem_toList] at mem
  rcases mem with version | encoding | standalone
  · cases found : rawValue? ((scanAttributes (3 + width content) 3 content).attributes.take 1)
        "version" with
    | none =>
      rw [found] at version
      exact .inl version
    | some value =>
      rw [found] at version
      rw [version]
      exact .inr (infix_of_rawValue? (fun a mem => within a (List.mem_of_mem_take mem)) found)
  · exact .inr (infix_of_rawValue? within encoding)
  · exact .inr (infix_of_rawValue? within standalone)

/-- What ends no header in its content ends none in a value of it. -/
theorem not_infix_of_readDeclaration {content : List Char} (absent : ¬['?', '>'] <:+: content) :
    ∀ v ∈ (readDeclaration content).values, ¬['?', '>'] <:+: v.toList := by
  intro v mem inner
  rcases infix_of_readDeclaration content v mem with rfl | within
  · revert inner
    decide
  · exact absent (inner.trans within)

theorem exists_of_resolveAttributes_cons {seen : List (List Char × Nat)} {raw : RawAttribute}
    {raws : List RawAttribute} {attributes : List (String × String)}
    (h : resolveAttributes seen (raw :: raws) = .ok attributes) :
    ∃ value rest, seen.lookup raw.key = none ∧
      resolveAttributes (seen ++ [(raw.key, raw.offset)]) raws = .ok rest ∧
      attributes = (String.ofList raw.key, value) :: rest := by
  rw [resolveAttributes] at h
  split at h
  · cases h
  rename_i fresh
  split at h
  · cases h
  split at h
  · cases h
  cases others : resolveAttributes (seen ++ [(raw.key, raw.offset)]) raws with
  | error e =>
    rw [others] at h
    cases h
  | ok rest =>
    rw [others] at h
    exact ⟨_, rest, fresh, rfl, (Except.ok.inj h).symm⟩

theorem keys_of_resolveAttributes {seen : List (List Char × Nat)} {raws : List RawAttribute}
    {attributes : List (String × String)} (h : resolveAttributes seen raws = .ok attributes) :
    (∀ a ∈ attributes, seen.lookup a.1.toList = none) ∧ (attributes.map Prod.fst).Nodup := by
  induction raws generalizing seen attributes with
  | nil =>
    cases h
    simp
  | cons raw raws ih =>
    obtain ⟨value, rest, fresh, others, rfl⟩ := exists_of_resolveAttributes_cons h
    obtain ⟨unseen, distinct⟩ := ih others
    have unseen' : ∀ a ∈ rest, seen.lookup a.1.toList = none ∧ a.1.toList ≠ raw.key := by
      intro a mem
      have missing := unseen a mem
      rw [List.lookup_append, Option.or_eq_none_iff] at missing
      constructor
      · exact missing.1
      · intro same
        simp [same] at missing
    constructor
    · intro a mem
      rcases List.mem_cons.1 mem with rfl | mem
      · simpa using fresh
      · exact (unseen' a mem).1
    · rw [List.map_cons, List.nodup_cons]
      constructor
      · intro mem
        obtain ⟨a, mem, same⟩ := List.mem_map.1 mem
        apply (unseen' a mem).2
        rw [same, String.toList_ofList]
      · exact distinct

theorem resolved_of_readAttributes {total n : Nat} {s : List Char}
    {attributes : List (String × String)} (h : readAttributes total n s = .ok attributes) :
    resolveAttributes [] (scanAttributes total n s).attributes = .ok attributes := by
  unfold readAttributes at h
  cases resolved : resolveAttributes [] (scanAttributes total n s).attributes with
  | error e =>
    simp only [resolved] at h
    cases h
  | ok found =>
    simp only [resolved, bind, Except.bind] at h
    split at h
    · cases h
    · exact h

theorem nodup_of_readAttributes {total n : Nat} {s : List Char}
    {attributes : List (String × String)} (h : readAttributes total n s = .ok attributes) :
    (attributes.map Prod.fst).Nodup :=
  (keys_of_resolveAttributes (resolved_of_readAttributes h)).2

/-- What holds of every event that is read, besides what its names are. -/
def Event.IsSound : Event → Prop
  | .declaration header => ∀ v ∈ header.values, ¬['?', '>'] <:+: v.toList
  | .start _ attributes => (attributes.map Prod.fst).Nodup
  | .empty _ attributes => (attributes.map Prod.fst).Nodup
  | .comment s => IsCommentText s
  | _ => True

theorem isSound_readInstruction {content : List Char} (absent : ¬['?', '>'] <:+: content) :
    (readInstruction content).IsSound := by
  have rest : ¬['?', '>'] <:+: content.drop 3 := fun inner =>
    absent (inner.trans (List.drop_suffix 3 content).isInfix)
  unfold readInstruction
  split
  · split
    · exact not_infix_of_readDeclaration (by decide)
    · rename_i c tail found
      rw [found] at rest
      split
      · exact not_infix_of_readDeclaration rest
      · trivial
  · trivial

theorem isSound_of_readStart {content : List Char} {event : Event}
    (h : readStart content = .ok event) : event.IsSound := by
  unfold readStart at h
  simp only [bind, Except.bind] at h
  split at h
  · cases h
  · rename_i attributes read
    have distinct := nodup_of_readAttributes read
    split at h
    · cases h
      exact distinct
    · cases h
      exact distinct

inductive IsMark (s : List Char) : Event → List Char → Prop
  | comment {content rest : List Char} (whole : content ++ (['-', '-', '>'] ++ rest) <:+ s)
      (absent : ¬['-', '-', '>'] <:+: content) : IsMark s (.comment (String.ofList content)) rest
  | cdata {content rest : List Char} (whole : content ++ ([']', ']', '>'] ++ rest) <:+ s) :
      IsMark s (.cdata (String.ofList content)) rest
  | doctype {rest : List Char} (back : rest <:+ s) : IsMark s .doctype rest
  | instruction {first : Char} {content rest : List Char}
      (whole : s = first :: content ++ (['?', '>'] ++ rest))
      (absent : ¬['?', '>'] <:+: first :: content) : IsMark s (readInstruction content) rest
  | stop {content rest : List Char} (front : content <+: s) (back : rest <:+ s) :
      IsMark s (readStop (content.drop 1)) rest
  | start {content rest : List Char} {event : Event} (front : content <+: s) (back : rest <:+ s)
      (read : readStart content = .ok event) : IsMark s event rest

theorem isMark_of_readMark {position : Nat} {s : List Char} {mark : Mark s}
    (h : readMark position s = .ok mark) : IsMark s mark.event mark.rest := by
  unfold readMark at h
  split at h
  · cases h
  · cases h
  · cases h
  · cases h
  · -- a comment
    split at h
    · cases h
    · rename_i found
      cases h
      obtain ⟨whole, absent⟩ := splitAtMark_eq_some (by decide) found
      exact .comment (whole ▸ List.drop_suffix 3 s) absent
  · -- character data
    split at h
    · cases h
    · rename_i found
      cases h
      have whole := (splitAtMark_eq_some (by decide) found).1
      exact .cdata (whole ▸ List.drop_suffix 8 s)
  · -- a document type
    split at h
    · cases h
    · rename_i found
      split at h
      · cases h
      split at h
      · cases h
      · cases h
        exact .doctype (suffix_of_splitBalanced found)
  · -- an instruction
    split at h
    · cases h
    · cases h
    · rename_i found
      cases h
      obtain ⟨whole, absent⟩ := splitAtMark_eq_some (by decide) found
      exact .instruction whole absent
  · -- an end tag
    split at h
    · cases h
    · rename_i found
      cases h
      obtain ⟨front, back⟩ := parts_of_splitTag found
      exact .stop front back
  · -- a start tag
    split at h
    · cases h
    · rename_i found
      obtain ⟨front, back⟩ := parts_of_splitTag found
      split at h
      · cases h
      · rename_i read
        cases h
        exact .start front back read

theorem IsMark.rest_suffix {s rest : List Char} {event : Event} (mark : IsMark s event rest) :
    rest <:+ s := by
  cases mark with
  | comment whole | cdata whole =>
    rw [← List.append_assoc] at whole
    exact (List.suffix_append _ rest).trans whole
  | doctype back | stop _ back | start _ back => exact back
  | instruction whole =>
    rw [whole, ← List.append_assoc]
    exact List.suffix_append _ rest

theorem IsMark.isSound {s rest : List Char} {event : Event} (mark : IsMark s event rest) :
    event.IsSound := by
  cases mark with
  | comment _ absent => simpa only [Event.IsSound, IsCommentText, String.toList_ofList] using absent
  | cdata | doctype => trivial
  | instruction _ absent =>
    exact isSound_readInstruction fun inner =>
      absent (inner.trans (List.suffix_cons _ _).isInfix)
  | stop =>
    unfold readStop
    split
    · trivial
    · trivial
  | start _ _ read => exact isSound_of_readStart read

/-- What holds of all texts, and of what is read of any mark in `s`, holds of all events of `s`. -/
theorem forall_mem_eventsFrom {P : Event → Prop} (text : ∀ t, P (.text t)) {position : Nat}
    {s : List Char} (marks : ∀ body event rest, body <:+ s → IsMark body event rest → P event) :
    ∀ e ∈ (eventsFrom position s).events, P e.event := by
  fun_induction eventsFrom position s with
  | case1 | case2 | case4 =>
    intro e mem
    cases mem
  | case3 _ _ _ body mark read _ hs _ ih =>
    have found := isMark_of_readMark read
    have within := suffix_of_dropWhile hs
    have later := found.rest_suffix.trans within
    intro e mem
    rcases List.mem_cons.1 mem with rfl | mem
    · exact marks body mark.event mark.rest within found
    · exact ih (fun body event rest inner => marks body event rest (inner.trans later)) e mem
  | case5 _ _ _ _ _ hs _ _ _ _ _ _ _ _ ih =>
    have later := (List.dropWhile_suffix (· != '<')).trans (suffix_of_dropWhile hs)
    intro e mem
    rcases List.mem_cons.1 mem with rfl | mem
    · exact text _
    · exact ih (fun body event rest inner => marks body event rest (inner.trans later)) e mem

theorem isSound_of_mem_eventsFrom {position : Nat} {s : List Char} :
    ∀ e ∈ (eventsFrom position s).events, e.event.IsSound :=
  forall_mem_eventsFrom (fun _ => trivial) fun _ _ _ _ mark => mark.isSound

theorem isSound_of_mem_events {s : String} : ∀ e ∈ (events s).events, e.event.IsSound := by
  unfold events
  split
  · exact isSound_of_mem_eventsFrom
  · split
    · exact isSound_of_mem_eventsFrom
    · exact isSound_of_mem_eventsFrom

end JavaMigration.Markup
