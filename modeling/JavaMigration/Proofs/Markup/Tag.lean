import JavaMigration.Markup.Printer
import JavaMigration.Proofs.Markup.Escaping

/-!
# Written tags

The content of a tag that is written with a proper name, distinct attribute names and escaped values
is split at the right `>` and read back as that name and those attributes.
-/

namespace JavaMigration.Markup

open Text

def reservedChars : List Char := ['"', '\'', '<', '>', '/', '=', '&']

/-- A name that stands in a tag unchanged and opens no other kind of mark. -/
structure IsName (s : String) : Prop where
  nonempty : s.toList ≠ []
  plain : ∀ c ∈ s.toList, isSpace c = false ∧ c ∉ reservedChars
  opening : s.toList.head? ≠ some '!' ∧ s.toList.head? ≠ some '?'

theorem isName_iff (s : String) : IsName s ↔ s.toList ≠ [] ∧
    (s.toList.all fun c => !isSpace c && decide (c ∉ reservedChars)) = true ∧
    s.toList.head? ≠ some '!' ∧ s.toList.head? ≠ some '?' := by
  have plain : (s.toList.all fun c => !isSpace c && decide (c ∉ reservedChars)) = true ↔
      ∀ c ∈ s.toList, isSpace c = false ∧ c ∉ reservedChars := by
    simp
  rw [plain]
  exact ⟨fun h => ⟨h.nonempty, h.plain, h.opening⟩, fun ⟨h, p, o⟩ => ⟨h, p, o⟩⟩

instance (s : String) : Decidable (IsName s) :=
  decidable_of_iff _ (isName_iff s).symm

theorem IsName.notMem {s : String} (h : IsName s) {c : Char} (hc : c ∈ reservedChars) :
    c ∉ s.toList := fun mem => (h.plain c mem).2 hc

theorem IsName.not_isSpace {s : String} (h : IsName s) {c : Char} (hc : c ∈ s.toList) :
    isSpace c = false := (h.plain c hc).1

def itemText (item : List Char × List Char) : List Char :=
  ' ' :: (item.1 ++ '=' :: '"' :: (item.2 ++ ['"']))

def itemsText (items : List (List Char × List Char)) : List Char :=
  items.flatMap itemText

def IsItem (item : List Char × List Char) : Prop :=
  item.1 ≠ [] ∧ (∀ c ∈ item.1, isSpace c = false ∧ c ≠ '=') ∧ '"' ∉ item.2

theorem scanAttributes_eq (total n : Nat) {s first rest afterEquals body after}
    (hs : s.dropWhile isSpace = first :: rest)
    (he : (rest.dropWhile fun c => c ≠ '=' && !isSpace c).dropWhile isSpace = '=' :: afterEquals)
    (hq : afterEquals.dropWhile isSpace = '"' :: body)
    (hc : body.dropWhile (· ≠ '"') = '"' :: after) :
    ∃ start next, scanAttributes total n s =
      ⟨⟨first :: rest.takeWhile fun c => c ≠ '=' && !isSpace c, start,
          .ok (body.takeWhile (· ≠ '"'))⟩ :: (scanAttributes total next after).attributes,
        (scanAttributes total next after).failure⟩ := by
  rw [scanAttributes]
  split
  · rename_i none
    exact absurd (hs.symm.trans none) (List.cons_ne_nil _ _)
  rename_i first' rest' some
  obtain ⟨rfl, rfl⟩ := List.cons.inj (hs.symm.trans some)
  simp only
  split
  · rename_i none
    exact absurd (he.symm.trans none) (List.cons_ne_nil _ _)
  rename_i c afterEquals' some
  obtain ⟨rfl, rfl⟩ := List.cons.inj (he.symm.trans some)
  simp only [ne_eq, not_true_eq_false, ↓reduceIte]
  split
  · rename_i none
    exact absurd (hq.symm.trans none) (List.cons_ne_nil _ _)
  rename_i quote body' some
  obtain ⟨rfl, rfl⟩ := List.cons.inj (hq.symm.trans some)
  simp only [not_true_eq_false, decide_false, Bool.false_and, Bool.false_eq_true, ↓reduceIte]
  split
  · rename_i none
    exact absurd (hc.symm.trans none) (List.cons_ne_nil _ _)
  rename_i c after' some
  obtain ⟨rfl, rfl⟩ := List.cons.inj (hc.symm.trans some)
  exact ⟨_, _, rfl⟩

theorem scanAttributes_itemsText (total n : Nat) {items : List (List Char × List Char)}
    (h : ∀ item ∈ items, IsItem item) :
    (scanAttributes total n (itemsText items)).failure = none ∧
      (scanAttributes total n (itemsText items)).attributes.map (fun a => (a.key, a.value)) =
        items.map fun item => (item.1, .ok item.2) := by
  induction items generalizing n with
  | nil => rw [itemsText, List.flatMap_nil, scanAttributes]; simp
  | cons item items ih =>
    obtain ⟨⟨key, value⟩, rfl⟩ : ∃ i, i = item := ⟨item, rfl⟩
    obtain ⟨nonempty, plain, noQuote⟩ := h _ (List.mem_cons_self ..)
    cases key with
    | nil => exact absurd rfl nonempty
    | cons first rest =>
      have solid : isSpace first = false := (plain first (by simp)).1
      have inKey : ∀ c ∈ rest, (c ≠ '=' && !isSpace c) = true := fun c hc => by
        have := plain c (by simp [hc])
        simp [this]
      have inValue : ∀ c ∈ value, decide (c ≠ '"') = true := fun c hc =>
        decide_eq_true fun eq => noQuote (eq ▸ hc)
      have text : itemsText ((first :: rest, value) :: items) =
          ' ' :: first :: (rest ++ '=' :: '"' :: (value ++ '"' :: itemsText items)) := by
        simp [itemsText, itemText]
      have toKey : (itemsText ((first :: rest, value) :: items)).dropWhile isSpace =
          first :: (rest ++ '=' :: '"' :: (value ++ '"' :: itemsText items)) := by
        simp [text, List.dropWhile, isSpace] at solid ⊢
        simp [solid]
      have toEquals : ((rest ++ '=' :: '"' :: (value ++ '"' :: itemsText items)).dropWhile
          fun c => c ≠ '=' && !isSpace c).dropWhile isSpace =
          '=' :: '"' :: (value ++ '"' :: itemsText items) := by
        rw [List.dropWhile_append_of_pos inKey]
        simp [List.dropWhile, isSpace]
      have toQuote : ('"' :: (value ++ '"' :: itemsText items)).dropWhile isSpace =
          '"' :: (value ++ '"' :: itemsText items) := by
        simp [List.dropWhile, isSpace]
      have toEnd : (value ++ '"' :: itemsText items).dropWhile (· ≠ '"') =
          '"' :: itemsText items := by
        rw [List.dropWhile_append_of_pos inValue]
        simp [List.dropWhile]
      obtain ⟨start, next, scanned⟩ := scanAttributes_eq total n toKey toEquals toQuote toEnd
      obtain ⟨noFailure, others⟩ := ih next fun i hi => h i (List.mem_cons_of_mem _ hi)
      rw [scanned]
      refine ⟨noFailure, ?_⟩
      rw [List.takeWhile_append_of_pos inKey, List.takeWhile_append_of_pos inValue]
      simp [others]

theorem resolveAttributes_eq (seen : List (List Char × Nat)) {raws : List RawAttribute}
    {attributes : List (String × String)}
    (read : raws.map (fun a => (a.key, a.value)) =
      attributes.map fun a => (a.1.toList, .ok (escapeList a.2.toList)))
    (distinct : (attributes.map Prod.fst).Nodup)
    (fresh : ∀ a ∈ attributes, seen.lookup a.1.toList = none) :
    resolveAttributes seen raws = .ok attributes := by
  induction attributes generalizing seen raws with
  | nil =>
    obtain rfl := List.map_eq_nil_iff.1 read
    rfl
  | cons a attributes ih =>
    obtain ⟨raw, raws, rfl, head, tail⟩ := List.map_eq_cons_iff.1 read
    obtain ⟨key, value⟩ := Prod.mk.inj head
    obtain ⟨notIn, distinct⟩ := List.nodup_cons.1 distinct
    have others := ih (seen ++ [(raw.key, raw.offset)]) tail distinct fun b hb => by
      have ne : b.1.toList ≠ raw.key := by
        rw [key, ne_eq, String.toList_inj]
        exact fun eq => notIn (eq ▸ List.mem_map_of_mem hb)
      simp [List.lookup_append, fresh b (by simp [hb]), ne]
    rw [resolveAttributes, key, fresh a (by simp)]
    simp only [value, unescapeList_escapeList]
    rw [← key, others]
    simp [Except.map, key]

end JavaMigration.Markup
