import Mathlib.Data.List.Infix
import JavaMigration.Proofs.Markup.Tag

/-!
# Written marks

Each kind of mark that a document is written with is read back as the event it stands for, whatever
follows it and wherever it stands.
-/

namespace JavaMigration.Markup

open Text

/-- The text `s` after a `<` is a mark with the given event, and `rest` follows it. -/
def ReadsMark (s : List Char) (event : Event) (rest : List Char) : Prop :=
  ∀ position, ∃ mark : Mark s, readMark position s = .ok mark ∧ mark.event = event ∧
    mark.rest = rest

/-- No proper part of `mark` both begins and ends it, so two occurrences never overlap. -/
def Unbordered (mark : List Char) : Prop :=
  ∀ part ∈ mark.tails, part <+: mark → part = [] ∨ part = mark

instance (mark : List Char) : Decidable (Unbordered mark) :=
  inferInstanceAs (Decidable (∀ _ ∈ _, _))

theorem prefix_append_cases {l xs ys : List Char} (h : l <+: xs ++ ys) :
    l <+: xs ∨ ∃ part, l = xs ++ part ∧ part <+: ys := by
  obtain ⟨after, whole⟩ := h
  rcases List.append_eq_append_iff.1 whole with ⟨part, hxs, -⟩ | ⟨part, hl, hys⟩
  · exact .inl ⟨part, hxs.symm⟩
  · exact .inr ⟨part, hl, after, hys.symm⟩

theorem splitAtMark_append (mark : List Char) {s : List Char} (unbordered : Unbordered mark)
    (absent : ¬mark <:+: s) (rest : List Char) :
    splitAtMark mark (s ++ (mark ++ rest)) = some (s, rest) := by
  induction s with
  | nil =>
    have here : mark.isPrefixOf (mark ++ rest) = true := by simp
    rw [List.nil_append, splitAtMark.eq_def, if_pos here, List.drop_left]
  | cons c s ih =>
    have later : ¬mark.isPrefixOf (c :: (s ++ (mark ++ rest))) = true := by
      rw [List.isPrefixOf_iff_prefix, ← List.cons_append]
      intro early
      -- an occurrence that starts before the mark ends within `c :: s` or overlaps the mark
      rcases prefix_append_cases early with within | ⟨part, whole, overlap⟩
      · exact absent within.isInfix
      · have begins : part <+: mark := by
          apply List.prefix_of_prefix_length_le overlap (List.prefix_append mark rest)
          rw [whole, List.length_append]
          exact Nat.le_add_left _ _
        have ends : part ∈ mark.tails := (List.mem_tails part mark).2 ⟨c :: s, whole.symm⟩
        rcases unbordered part ends begins with rfl | rfl
        · rw [whole, List.append_nil] at absent
          exact absent (List.infix_refl _)
        · have := congrArg List.length whole
          simp only [List.cons_append, List.length_cons, List.length_append] at this
          omega
    rw [List.cons_append, splitAtMark, if_neg later]
    simp only
    rw [ih fun inner => absent (inner.trans (List.suffix_cons c s).isInfix)]
    rfl

def IsCommentText (s : String) : Prop :=
  ¬['-', '-', '>'] <:+: s.toList

instance (s : String) : Decidable (IsCommentText s) :=
  inferInstanceAs (Decidable (¬_))

theorem readsMark_comment {s : String} (h : IsCommentText s) (rest : List Char) :
    ReadsMark ('!' :: '-' :: '-' :: (s.toList ++ ('-' :: '-' :: '>' :: rest))) (.comment s)
      rest := by
  intro position
  have split := splitAtMark_append ['-', '-', '>'] (by decide) h rest
  unfold readMark
  simp only [Opening.ofText]
  split
  · rename_i none
    exact absurd (none.symm.trans split) (by simp)
  · rename_i content after some
    obtain ⟨rfl, rfl⟩ := Prod.mk.inj (Option.some.inj (some.symm.trans split))
    exact ⟨_, rfl, by simp, rfl⟩

theorem splitTag_plain {s : List Char} (h : ∀ c ∈ s, c ≠ '"' ∧ c ≠ '\'' ∧ c ≠ '>')
    (rest : List Char) :
    splitTag none (s ++ rest) =
      (splitTag none rest).map fun (before, after) => (s ++ before, after) := by
  induction s with
  | nil => simp
  | cons c s ih =>
    obtain ⟨noDouble, noSingle, noClose⟩ := h c (by simp)
    rw [List.cons_append, splitTag]
    simp [noDouble, noSingle, noClose, ih fun d hd => h d (List.mem_cons_of_mem _ hd),
      Function.comp_def]

theorem splitTag_quoted {s : List Char} (h : '"' ∉ s) (rest : List Char) :
    splitTag (some '"') (s ++ '"' :: rest) =
      (splitTag none rest).map fun (before, after) => (s ++ '"' :: before, after) := by
  induction s with
  | nil => rw [List.nil_append, splitTag]; simp
  | cons c s ih =>
    simp only [List.mem_cons, not_or] at h
    rw [List.cons_append, splitTag]
    simp [Ne.symm h.1, ih h.2, Function.comp_def]

theorem splitTag_itemText {item : List Char × List Char}
    (key : ∀ c ∈ item.1, c ≠ '"' ∧ c ≠ '\'' ∧ c ≠ '>') (value : '"' ∉ item.2) (rest : List Char) :
    splitTag none (itemText item ++ rest) =
      (splitTag none rest).map fun (before, after) => (itemText item ++ before, after) := by
  have text : itemText item ++ rest =
      (' ' :: (item.1 ++ ['='])) ++ '"' :: (item.2 ++ '"' :: rest) := by
    simp [itemText]
  have opened : splitTag none ('"' :: (item.2 ++ '"' :: rest)) =
      (splitTag (some '"') (item.2 ++ '"' :: rest)).map fun (before, after) =>
        ('"' :: before, after) := by
    rw [splitTag]
    simp
  rw [text, splitTag_plain, opened, splitTag_quoted value]
  · simp [itemText, Function.comp_def]
  · intro c hc
    simp only [List.mem_cons, List.mem_append, List.not_mem_nil, or_false] at hc
    rcases hc with rfl | hc | rfl
    · decide
    · exact key c hc
    · decide

theorem splitTag_itemsText {items : List (List Char × List Char)}
    (h : ∀ item ∈ items, (∀ c ∈ item.1, c ≠ '"' ∧ c ≠ '\'' ∧ c ≠ '>') ∧ '"' ∉ item.2)
    (rest : List Char) :
    splitTag none (itemsText items ++ rest) =
      (splitTag none rest).map fun (before, after) => (itemsText items ++ before, after) := by
  induction items with
  | nil => simp [itemsText]
  | cons item items ih =>
    obtain ⟨key, value⟩ := h item (by simp)
    have text : itemsText (item :: items) ++ rest = itemText item ++ (itemsText items ++ rest) := by
      simp [itemsText]
    rw [text, splitTag_itemText key value, ih fun i hi => h i (List.mem_cons_of_mem _ hi)]
    simp [itemsText, Function.comp_def]

def attributeItems (attributes : List (String × String)) : List (List Char × List Char) :=
  attributes.map fun a => (a.1.toList, escapeList a.2.toList)

def tagText (name : String) (attributes : List (String × String)) : List Char :=
  name.toList ++ itemsText (attributeItems attributes)

@[simp] theorem toList_tagContent (e : Element) :
    e.tagContent.toList = tagText e.name e.attributes := by
  have item (a : String × String) :
      (renderAttribute a).toList = itemText (a.1.toList, escapeList a.2.toList) := by
    simp [renderAttribute, toString, itemText]
  simp [Element.tagContent, tagText, itemsText, attributeItems, List.flatMap_map, item,
    String.toList_join]

structure IsTag (name : String) (attributes : List (String × String)) : Prop where
  name : IsName name
  keys : ∀ a ∈ attributes, IsName a.1
  distinct : (attributes.map Prod.fst).Nodup

namespace IsTag

variable {name : String} {attributes : List (String × String)}

theorem isItem (h : IsTag name attributes) : ∀ item ∈ attributeItems attributes, IsItem item := by
  intro item mem
  obtain ⟨a, ha, rfl⟩ := List.mem_map.1 mem
  have key := h.keys a ha
  exact ⟨key.nonempty, fun c hc => ⟨key.not_isSpace hc, fun eq => key.notMem (by decide) (eq ▸ hc)⟩,
    quote_notMem_escapeList _⟩

theorem readAttributes_eq (h : IsTag name attributes) (total n : Nat) :
    readAttributes total n (itemsText (attributeItems attributes)) = .ok attributes := by
  obtain ⟨noFailure, read⟩ := scanAttributes_itemsText total n h.isItem
  have resolved := resolveAttributes_eq []
    (by rw [read, attributeItems, List.map_map]; rfl) h.distinct (fun _ _ => rfl)
  rw [readAttributes, resolved]
  simp only [noFailure]
  rfl

theorem head_itemsText (items : List (List Char × List Char)) :
    ∀ c ∈ (itemsText items).head?, isSpace c = true := by
  intro c hc
  cases items with
  | nil => simp [itemsText] at hc
  | cons item items =>
    simp only [itemsText, itemText, List.flatMap_cons, List.cons_append, List.head?_cons,
      Option.mem_some_iff] at hc
    subst hc
    decide

theorem takeWhile_name (h : IsTag name attributes) :
    (tagText name attributes).takeWhile (!isSpace ·) = name.toList := by
  rw [tagText, List.takeWhile_append_of_pos fun c hc => by simp [h.name.not_isSpace hc],
    takeWhile_eq_nil fun c hc => by simp [head_itemsText _ c hc], List.append_nil]

theorem dropWhile_name (h : IsTag name attributes) :
    (tagText name attributes).dropWhile (!isSpace ·) = itemsText (attributeItems attributes) := by
  rw [tagText, List.dropWhile_append_of_pos fun c hc => by simp [h.name.not_isSpace hc],
    dropWhile_eq_self fun c hc => by simp [head_itemsText _ c hc]]

theorem getLast_tagText (h : IsTag name attributes) :
    (tagText name attributes).getLast? ≠ some '/' := by
  intro last
  rcases List.eq_nil_or_concat attributes with rfl | ⟨init, a, rfl⟩
  · rw [tagText, attributeItems, List.map_nil, itemsText, List.flatMap_nil, List.append_nil] at last
    exact h.name.notMem (by decide) (List.mem_of_getLast? last)
  · have ends : tagText name (init.concat a) = (name.toList ++ itemsText (attributeItems init) ++
        ' ' :: (a.1.toList ++ '=' :: '"' :: escapeList a.2.toList)) ++ ['"'] := by
      simp [tagText, attributeItems, itemsText, itemText]
    rw [ends, List.getLast?_concat] at last
    simp at last

theorem splitTag_tagText (h : IsTag name attributes) (rest : List Char) :
    splitTag none (tagText name attributes ++ rest) =
      (splitTag none rest).map fun (before, after) => (tagText name attributes ++ before, after) := by
  have ordinary {s : String} (hs : IsName s) : ∀ c ∈ s.toList, c ≠ '"' ∧ c ≠ '\'' ∧ c ≠ '>' := by
    intro c hc
    have other {d : Char} (reserved : d ∈ reservedChars) : c ≠ d :=
      fun eq => hs.notMem reserved (eq ▸ hc)
    exact ⟨other (by decide), other (by decide), other (by decide)⟩
  rw [tagText, List.append_assoc, splitTag_plain (ordinary h.name), splitTag_itemsText]
  · simp [Function.comp_def]
  · intro item mem
    obtain ⟨a, ha, rfl⟩ := List.mem_map.1 mem
    exact ⟨ordinary (h.keys a ha), quote_notMem_escapeList _⟩

theorem readStart_open (h : IsTag name attributes) :
    readStart (tagText name attributes) = .ok (.start name attributes) := by
  rw [readStart]
  simp [h.getLast_tagText, h.takeWhile_name, h.dropWhile_name, h.readAttributes_eq, bind,
    Except.bind]

theorem readStart_empty (h : IsTag name attributes) :
    readStart (tagText name attributes ++ ['/']) = .ok (.empty name attributes) := by
  rw [readStart]
  simp [h.takeWhile_name, h.dropWhile_name, h.readAttributes_eq, bind, Except.bind]

end IsTag

theorem opening_start {s : String} (h : IsName s) (rest : List Char) :
    Opening.ofText (s.toList ++ rest) = .start := by
  cases hs : s.toList with
  | nil => exact absurd hs h.nonempty
  | cons c tail =>
    have bang : c ≠ '!' := fun eq => h.opening.1 (by rw [hs, eq]; rfl)
    have query : c ≠ '?' := fun eq => h.opening.2 (by rw [hs, eq]; rfl)
    have slash : c ≠ '/' := fun eq => h.notMem (c := '/') (by decide) (by rw [hs, eq]; simp)
    rw [List.cons_append, Opening.ofText.eq_def]
    split <;> simp_all

theorem readsMark_of_readStart {s content rest : List Char} {event : Event}
    (opening : Opening.ofText s = .start) (split : splitTag none s = some (content, rest))
    (read : readStart content = .ok event) : ReadsMark s event rest := by
  intro position
  unfold readMark
  simp only [opening]
  split
  · rename_i none
    exact absurd (none.symm.trans split) (by simp)
  · rename_i content' rest' some
    obtain ⟨rfl, rfl⟩ := Prod.mk.inj (Option.some.inj (some.symm.trans split))
    simp only [read]
    exact ⟨_, rfl, rfl, rfl⟩

theorem readsMark_start {name : String} {attributes : List (String × String)}
    (h : IsTag name attributes) (rest : List Char) :
    ReadsMark (tagText name attributes ++ '>' :: rest) (.start name attributes) rest := by
  refine readsMark_of_readStart ?_ ?_ h.readStart_open
  · rw [tagText, List.append_assoc]
    exact opening_start h.name _
  · rw [h.splitTag_tagText, splitTag]
    simp

theorem readsMark_empty {name : String} {attributes : List (String × String)}
    (h : IsTag name attributes) (rest : List Char) :
    ReadsMark (tagText name attributes ++ '/' :: '>' :: rest) (.empty name attributes) rest := by
  refine readsMark_of_readStart ?_ ?_ h.readStart_empty
  · rw [tagText, List.append_assoc]
    exact opening_start h.name _
  · have closed : splitTag none ('/' :: '>' :: rest) = some (['/'], rest) := by simp [splitTag]
    rw [h.splitTag_tagText, closed]
    rfl

theorem readsMark_stop {name : String} (h : IsName name) (rest : List Char) :
    ReadsMark ('/' :: (name.toList ++ '>' :: rest)) (.stop name) rest := by
  have split : splitTag none ('/' :: (name.toList ++ '>' :: rest)) =
      some ('/' :: name.toList, rest) := by
    rw [← List.cons_append, splitTag_plain, splitTag]
    · simp
    · intro c hc
      rcases List.mem_cons.1 hc with rfl | hc
      · decide
      · exact ⟨fun eq => h.notMem (by decide) (eq ▸ hc), fun eq => h.notMem (by decide) (eq ▸ hc),
          fun eq => h.notMem (by decide) (eq ▸ hc)⟩
  have read : readStop name.toList = .stop name := by
    obtain ⟨c, mem⟩ := List.exists_mem_of_ne_nil _ h.nonempty
    have solid : name.toList.all isSpace = false :=
      List.all_eq_false.2 ⟨c, mem, by simp [h.not_isSpace mem]⟩
    rw [readStop, solid, trimEndList_eq_self fun c hc => h.not_isSpace (List.mem_of_getLast? hc)]
    simp
  intro position
  unfold readMark
  simp only [Opening.ofText]
  split
  · rename_i none
    exact absurd (none.symm.trans split) (by simp)
  · rename_i content rest' some
    obtain ⟨rfl, rfl⟩ := Prod.mk.inj (Option.some.inj (some.symm.trans split))
    exact ⟨_, rfl, by simpa using read, rfl⟩

end JavaMigration.Markup
