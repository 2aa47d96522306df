import JavaMigration.Proofs.Markup.Acceptance
import JavaMigration.Proofs.Markup.Stretch

/-!
# Copied marks

Names, keys, comments and header values stand in the text of a document as they are read. Only the
values of attributes and the character data have references resolved in them.
-/

namespace JavaMigration.Markup

open Text

variable {s rest content : List Char}

def copiedFrom (s : List Char) : Rule where
  header h := ∀ v ∈ h.values, v = "1.0" ∨ v.toList <:+: s
  tag name attributes := name.toList <:+: s ∧ ∀ a ∈ attributes, a.1.toList <:+: s
  comment t := t.toList <:+: s

theorem Event.Follows.of_part {e : Event} (h : e.Follows (copiedFrom rest)) (within : rest <:+: s) :
    e.Follows (copiedFrom s) := by
  cases e with
  | declaration header => exact fun v mem => (h v mem).imp_right (·.trans within)
  | start name attributes => exact ⟨h.1.trans within, fun a mem => (h.2 a mem).trans within⟩
  | empty name attributes => exact ⟨h.1.trans within, fun a mem => (h.2 a mem).trans within⟩
  | comment t => exact List.IsInfix.trans h within
  | stop | text | cdata | instruction | doctype => trivial

theorem infix_key_of_scanAttributes (total n : Nat) (s : List Char) :
    ∀ a ∈ (scanAttributes total n s).attributes, a.key <:+: s := by
  have within : ∀ {s rest : List Char} {first : Char} (p : Char → Bool),
      s.dropWhile isSpace = first :: rest → first :: rest.takeWhile p <:+: s := by
    intro s rest first p hs
    have front : first :: rest.takeWhile p <+: first :: rest :=
      List.cons_prefix_cons.2 ⟨rfl, List.takeWhile_prefix p⟩
    have back : first :: rest <:+ s := by
      rw [← hs]
      exact List.dropWhile_suffix isSpace
    exact front.isInfix.trans back.isInfix
  fun_induction scanAttributes total n s with
  | case1 | case2 | case3 =>
    intro a mem
    cases mem
  | case4 _ _ _ _ hs | case5 _ _ _ _ hs | case6 _ _ _ _ hs =>
    intro a mem
    rw [List.mem_singleton.1 mem]
    exact within _ hs
  | case7 n s _ rest hs _ inKey _ _ _ _ afterEquals he _ _ quote body hq _ found _ after hc _ others
      ih =>
    have toEquals : afterEquals <:+ s :=
      ((suffix_of_dropWhile he).trans (List.dropWhile_suffix inKey)).trans (suffix_of_dropWhile hs)
    have toBody : body <:+ s := (suffix_of_dropWhile hq).trans toEquals
    intro a mem
    rcases List.mem_cons.1 mem with rfl | mem
    · exact within _ hs
    · exact (ih a mem).trans ((suffix_of_dropWhile hc).trans toBody).isInfix

/-- Resolving attributes leaves their keys as they are. -/
theorem exists_raw_of_resolveAttributes {seen : List (List Char × Nat)} {raws : List RawAttribute}
    {attributes : List (String × String)} (h : resolveAttributes seen raws = .ok attributes) :
    ∀ a ∈ attributes, ∃ raw ∈ raws, a.1 = String.ofList raw.key := by
  induction raws generalizing seen attributes with
  | nil =>
    cases h
    exact nofun
  | cons raw raws ih =>
    obtain ⟨value, rest, -, others, rfl⟩ := exists_of_resolveAttributes_cons h
    intro a mem
    rcases List.mem_cons.1 mem with rfl | mem
    · exact ⟨raw, by simp, rfl⟩
    · obtain ⟨raw', listed, same⟩ := ih others a mem
      exact ⟨raw', by simp [listed], same⟩

theorem infix_of_readAttributes {total n : Nat} {attributes : List (String × String)}
    (h : readAttributes total n s = .ok attributes) : ∀ a ∈ attributes, a.1.toList <:+: s := by
  intro a mem
  obtain ⟨raw, listed, same⟩ := exists_raw_of_resolveAttributes (resolved_of_readAttributes h) a mem
  rw [same, String.toList_ofList]
  exact infix_key_of_scanAttributes total n s raw listed

theorem copied_tag {total n : Nat} {inner : List Char} {attributes : List (String × String)}
    (within : inner <:+: content)
    (read : readAttributes total n (inner.dropWhile (!isSpace ·)) = .ok attributes) :
    (copiedFrom content).tag (String.ofList (inner.takeWhile (!isSpace ·))) attributes := by
  constructor
  · rw [String.toList_ofList]
    exact (List.takeWhile_prefix _).isInfix.trans within
  · intro a mem
    exact ((infix_of_readAttributes read a mem).trans (List.dropWhile_suffix _).isInfix).trans within

theorem copied_of_readStart {event : Event} (h : readStart content = .ok event) :
    event.Follows (copiedFrom content) := by
  unfold readStart at h
  simp only [bind, Except.bind] at h
  split at h
  · cases h
  · rename_i attributes read
    split at h
    · rename_i empty
      rw [if_pos empty] at read
      cases h
      exact copied_tag (List.dropLast_prefix content).isInfix read
    · rename_i open_
      rw [if_neg open_] at read
      cases h
      exact copied_tag List.infix_rfl read

theorem copied_readInstruction (content : List Char) :
    (readInstruction content).Follows (copiedFrom content) := by
  have rest : content.drop 3 <:+ content := List.drop_suffix 3 content
  unfold readInstruction
  split
  · split
    · exact fun v mem => (infix_of_readDeclaration [] v mem).imp_right
        (·.trans (List.nil_infix))
    · rename_i c tail found
      rw [found] at rest
      split
      · exact fun v mem => (infix_of_readDeclaration (c :: tail) v mem).imp_right
          (·.trans rest.isInfix)
      · trivial
  · trivial

theorem IsMark.copied {event : Event} (mark : IsMark s event rest) :
    event.Follows (copiedFrom s) := by
  cases mark with
  | @comment content rest whole =>
    change (String.ofList content).toList <:+: s
    rw [String.toList_ofList]
    exact (List.prefix_append content _).isInfix.trans whole.isInfix
  | cdata | doctype => trivial
  | @instruction first content rest whole =>
    have front : first :: content <+: s := by
      rw [whole]
      exact List.prefix_append _ _
    exact (copied_readInstruction content).of_part
      ((List.suffix_cons first content).isInfix.trans front.isInfix)
  | stop =>
    unfold readStop
    split
    · trivial
    · trivial
  | start front _ read => exact (copied_of_readStart read).of_part front.isInfix

theorem copied_of_mem_eventsFrom {position : Nat} (s : List Char) :
    ∀ e ∈ (eventsFrom position s).events, e.event.Follows (copiedFrom s) :=
  forall_mem_eventsFrom (fun _ => trivial) fun _ _ _ within mark =>
    mark.copied.of_part within.isInfix

theorem suffix_withoutOrderMark (s : String) : withoutOrderMark s <:+ s.toList := by
  unfold withoutOrderMark
  cases s.toList with
  | nil => exact List.suffix_rfl
  | cons c rest =>
    simp only
    split
    · exact List.suffix_cons c rest
    · exact List.suffix_rfl

/-- The marks of a document that was read are copied from its text. -/
theorem Document.copied_of_parse {s : String} {d : Document} (read : Document.parse s = .ok d) :
    d.Follows (copiedFrom s.toList) := by
  apply follows_of_parse _ read
  rw [events_eq]
  intro e mem
  exact (copied_of_mem_eventsFrom _ e mem).of_part (suffix_withoutOrderMark s).isInfix

end JavaMigration.Markup
