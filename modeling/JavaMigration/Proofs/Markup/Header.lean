import JavaMigration.Proofs.Markup.Mark

/-!
# Written headers

The header of a document is written with its values as they are. It can be read where no value
closes the header, and it is read back where none closes its quotes either.
-/

namespace JavaMigration.Markup

open Text

/-- A value of a header that ends neither at a quote within it nor with the header. -/
def IsHeaderValue (s : String) : Prop :=
  '"' ∉ s.toList ∧ ¬['?', '>'] <:+: s.toList

instance (s : String) : Decidable (IsHeaderValue s) :=
  inferInstanceAs (Decidable (_ ∧ _))

namespace Declaration

def values (d : Declaration) : List String :=
  d.version :: (d.encoding.toList ++ d.standalone.toList)

def items (d : Declaration) : List (List Char × List Char) :=
  ("version".toList, d.version.toList) ::
    (d.encoding.toList.map (fun v => ("encoding".toList, v.toList)) ++
      d.standalone.toList.map fun v => ("standalone".toList, v.toList))

theorem toList_render (d : Declaration) :
    d.render.toList = '<' :: '?' :: 'x' :: 'm' :: 'l' :: (itemsText d.items ++ ['?', '>']) := by
  obtain ⟨version, encoding, standalone⟩ := d
  have item (key v : String) : (s!" {key}=\"{v}\"").toList = itemText (key.toList, v.toList) := by
    simp [toString, itemText]
  have front : ("<?xml version=\"" ++ version ++ "\"").toList =
      '<' :: '?' :: 'x' :: 'm' :: 'l' :: itemText ("version".toList, version.toList) := by
    simp [itemText]
  unfold render
  rw [String.toList_append, String.toList_append, String.toList_append]
  simp only [front]
  cases encoding <;> cases standalone <;> simp only [item] <;> simp [items, itemsText]

theorem mem_items {d : Declaration} {item : List Char × List Char} (h : item ∈ d.items) :
    ∃ key ∈ ["version", "encoding", "standalone"], ∃ v ∈ d.values,
      item = (key.toList, v.toList) := by
  simp only [items, List.mem_cons, List.mem_append, List.mem_map] at h
  rcases h with rfl | ⟨v, hv, rfl⟩ | ⟨v, hv, rfl⟩
  · exact ⟨"version", by simp, d.version, by simp [values], rfl⟩
  · exact ⟨"encoding", by simp, v, by simp [values, hv], rfl⟩
  · exact ⟨"standalone", by simp, v, by simp [values, hv], rfl⟩

theorem isItem {d : Declaration} (h : ∀ v ∈ d.values, IsHeaderValue v) :
    ∀ item ∈ d.items, IsItem item := by
  intro item mem
  obtain ⟨key, hk, v, hv, rfl⟩ := mem_items mem
  have named : ∀ key ∈ ["version", "encoding", "standalone"], IsName key := by decide
  have plain : ∀ c ∈ key.toList, isSpace c = false ∧ c ≠ '=' := by
    intro c hc
    exact ⟨(named key hk).not_isSpace hc, fun eq => (named key hk).notMem (by decide) (eq ▸ hc)⟩
  exact ⟨(named key hk).nonempty, plain, (h v hv).1⟩

end Declaration

theorem infix_append_cons {mark front rest : List Char} {c : Char} (absent : c ∉ mark)
    (h : mark <:+: front ++ c :: rest) : mark <:+: front ∨ mark <:+: rest := by
  rcases List.infix_append_iff.1 h with within | within | ⟨part, tail, rfl, ends, begins⟩
  · exact .inl within
  · rcases List.infix_cons_iff.1 within with begins | within
    · rcases List.prefix_cons_iff.1 begins with rfl | ⟨tail, rfl, -⟩
      · exact .inl List.nil_infix
      · exact absurd (List.mem_cons_self ..) absent
    · exact .inr within
  · rcases List.prefix_cons_iff.1 begins with rfl | ⟨tail, rfl, -⟩
    · rw [List.append_nil]
      exact .inl ends.isInfix
    · exact absurd (by simp) absent

theorem infix_itemsText {mark front : List Char} {items : List (List Char × List Char)}
    (space : ' ' ∉ mark) (quote : '"' ∉ mark) (h : mark <:+: front ++ itemsText items) :
    mark <:+: front ∨ ∃ item ∈ items, mark <:+: item.1 ++ ['='] ∨ mark <:+: item.2 := by
  induction items generalizing front with
  | nil => exact .inl (by simpa [itemsText] using h)
  | cons item items ih =>
    have text : front ++ itemsText (item :: items) =
        front ++ ' ' :: ((item.1 ++ ['=']) ++
          '"' :: (item.2 ++ '"' :: ([] ++ itemsText items))) := by
      simp [itemsText, itemText]
    rw [text] at h
    rcases infix_append_cons space h with h | h
    · exact .inl h
    rcases infix_append_cons quote h with h | h
    · exact .inr ⟨item, by simp, .inl h⟩
    rcases infix_append_cons quote h with h | h
    · exact .inr ⟨item, by simp, .inr h⟩
    rcases ih h with h | ⟨i, mem, h⟩
    · exact .inl (h.trans List.nil_infix)
    · exact .inr ⟨i, by simp [mem], h⟩

theorem rawValue?_eq {raws : List RawAttribute} {items : List (List Char × List Char)}
    (read : raws.map (fun a => (a.key, a.value)) = items.map fun item => (item.1, .ok item.2))
    (key : String) :
    rawValue? raws key =
      (items.find? fun item => item.1 = key.toList).map fun item => String.ofList item.2 := by
  induction items generalizing raws with
  | nil =>
    obtain rfl := List.map_eq_nil_iff.1 read
    rfl
  | cons item items ih =>
    obtain ⟨raw, raws, rfl, head, tail⟩ := List.map_eq_cons_iff.1 read
    obtain ⟨rawKey, offset, value⟩ := raw
    obtain ⟨rfl, rfl⟩ := Prod.mk.inj head
    have others := ih tail
    simp only [rawValue?, List.find?_cons, Except.toBool, Bool.not_true, Bool.or_false] at others ⊢
    by_cases here : item.1 = key.toList
    · simp [here]
    · simpa [here] using others

theorem readDeclaration_items (d : Declaration) (h : ∀ v ∈ d.values, IsHeaderValue v) :
    readDeclaration (itemsText d.items) = d := by
  obtain ⟨-, read⟩ :=
    scanAttributes_itemsText (3 + width (itemsText d.items)) 3 (Declaration.isItem h)
  have first : ((scanAttributes (3 + width (itemsText d.items)) 3
      (itemsText d.items)).attributes.take 1).map (fun a => (a.key, a.value)) =
      (d.items.take 1).map fun item => (item.1, .ok item.2) := by
    rw [List.map_take, read, ← List.map_take]
  rw [readDeclaration]
  simp only [rawValue?_eq read, rawValue?_eq first]
  obtain ⟨version, encoding, standalone⟩ := d
  have keys : "version" ≠ "encoding" ∧ "version" ≠ "standalone" ∧ "encoding" ≠ "standalone" := by
    decide
  cases encoding <;> cases standalone <;>
    simp [-String.reduceToList, Declaration.items, String.toList_inj, keys, Ne.symm keys.2.2]

/-- A header ends where it was written to, if none of its values holds the mark that ends it. -/
theorem readsMark_header (d : Declaration) (h : ∀ v ∈ d.values, ¬['?', '>'] <:+: v.toList)
    (rest : List Char) :
    ReadsMark ('?' :: 'x' :: 'm' :: 'l' :: (itemsText d.items ++ '?' :: '>' :: rest))
      (.declaration (readDeclaration (itemsText d.items))) rest := by
  have absent : ¬['?', '>'] <:+: ['?', 'x', 'm', 'l'] ++ itemsText d.items := by
    intro mark
    rcases infix_itemsText (by decide) (by decide) mark with mark | ⟨item, mem, mark⟩
    · exact absurd mark (by decide)
    · obtain ⟨key, hk, v, hv, rfl⟩ := Declaration.mem_items mem
      have plain : ∀ key ∈ ["version", "encoding", "standalone"],
          ¬['?', '>'] <:+: key.toList ++ ['='] := by decide
      exact mark.elim (plain key hk) (h v hv)
  have split := splitAtMark_append ['?', '>'] (by decide) absent rest
  have read : readInstruction ('x' :: 'm' :: 'l' :: itemsText d.items) =
      .declaration (readDeclaration (itemsText d.items)) := by
    have blank : ∃ tail, itemsText d.items = ' ' :: tail := ⟨_, rfl⟩
    obtain ⟨tail, blank⟩ := blank
    rw [blank]
    simp [readInstruction, isSpace]
  intro position
  unfold readMark
  simp only [Opening.ofText]
  split
  · rename_i none
    exact absurd (none.symm.trans split) (by simp)
  · rename_i some
    exact absurd (some.symm.trans split) (by simp)
  · rename_i c content after some
    have parts := Prod.mk.inj (Option.some.inj (some.symm.trans split))
    obtain ⟨rfl, rfl⟩ := List.cons.inj parts.1
    obtain rfl := parts.2
    exact ⟨_, rfl, read, rfl⟩

end JavaMigration.Markup
