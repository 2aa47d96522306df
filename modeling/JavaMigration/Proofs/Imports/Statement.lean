import JavaMigration.Imports.Rewrite
import Mathlib.Data.List.TakeWhile

/-!
# Whole import statements

An import statement is the keyword, blank characters, a name and a semicolon. What a mapping finds
below its source is such a statement, and two of them never overlap: the keyword of the second one
would have to stand within the name of the first, but names have no blank characters.
-/

namespace JavaMigration.Imports

open Text

def isPackageChar (c : Char) : Bool :=
  c.isAlphanum || c = '_' || c = '$' || c = '.'

def isPathChar (c : Char) : Bool :=
  isNameChar c || c = '$'

theorem isPathChar_of_isPackageChar {c : Char} (h : isPackageChar c = true) :
    isPathChar c = true := by
  simp only [isPackageChar, Bool.or_eq_true, decide_eq_true_eq] at h
  simp only [isPathChar, isNameChar, Bool.or_eq_true, decide_eq_true_eq]
  rcases h with ((h | h) | h) | h <;> simp [h]

theorem isPathChar_of_isNameChar {c : Char} (h : isNameChar c = true) : isPathChar c = true := by
  simp only [isPathChar, h, Bool.true_or]

theorem toNat_of_isAlphanum {c : Char} (h : c.isAlphanum = true) :
    48 ≤ c.toNat ∧ c.toNat ≤ 122 := by
  have ranges : ((decide (c.val ≥ 'A'.val ∧ c.val ≤ 'Z'.val) ||
      (decide (c.val ≥ 'a'.val) && decide (c.val ≤ 'z'.val))) ||
        (decide (c.val ≥ '0'.val) && decide (c.val ≤ '9'.val))) = true := h
  simp only [ge_iff_le, Bool.or_eq_true, Bool.and_eq_true, decide_eq_true_eq,
    UInt32.le_iff_toNat_le] at ranges
  simp only [Char.toNat]
  rcases ranges with (h | h) | h
  · exact ⟨Nat.le_trans (by decide) h.1, Nat.le_trans h.2 (by decide)⟩
  · exact ⟨Nat.le_trans (by decide) h.1, Nat.le_trans h.2 (by decide)⟩
  · exact ⟨Nat.le_trans (by decide) h.1, Nat.le_trans h.2 (by decide)⟩

theorem not_isBlank_of_isPathChar {c : Char} (h : isPathChar c = true) : isBlank c = false := by
  simp only [isPathChar, isNameChar, Bool.or_eq_true, decide_eq_true_eq] at h
  rcases h with (((h | rfl) | rfl) | rfl) | rfl
  · have := toNat_of_isAlphanum h
    simp only [isBlank, Bool.or_eq_false_iff, Bool.and_eq_false_iff, decide_eq_false_iff_not]
    omega
  · decide
  · decide
  · decide
  · decide

/-- An import statement, by what stands after its keyword. -/
structure Statement where
  blanks : List Char
  name : List Char
  spaced : blanks ≠ []
  blank : ∀ c ∈ blanks, isBlank c = true
  plain : ∀ c ∈ name, isPathChar c = true

namespace Statement

def text (st : Statement) : List Char :=
  keyword ++ st.blanks ++ st.name ++ [';']

theorem text_ne_nil (st : Statement) : st.text ≠ [] := by
  simp [text]

end Statement

def StartsStatement (s : List Char) : Prop :=
  ∃ (st : Statement) (after : List Char), s = st.text ++ after

/-- A text without `x` that stands in front of a part of `u ++ x :: t` ends within `u`. -/
theorem exists_append_of_notMem {α : Type} {x : α} {u t w y : List α} (absent : x ∉ w)
    (h : u ++ x :: t = w ++ y) : ∃ v, u = w ++ v ∧ v ++ x :: t = y := by
  rcases List.append_eq_append_iff.1 h with ⟨v, rfl, rest⟩ | ⟨v, rfl, rest⟩
  · cases v with
    | nil => exact ⟨[], by simp, by simpa using rest⟩
    | cons d v =>
      obtain ⟨rfl, -⟩ := List.cons.inj rest
      simp at absent
  · exact ⟨v, rfl, rest.symm⟩

theorem Statement.exists_text_append (st : Statement) (rest : List Char) :
    ∃ b t, isBlank b = true ∧ st.text ++ rest = keyword ++ b :: t := by
  obtain ⟨b, blanks, spaced⟩ := List.exists_cons_of_ne_nil st.spaced
  refine ⟨b, blanks ++ st.name ++ ';' :: rest, st.blank b (by simp [spaced]), ?_⟩
  simp [text, spaced]

/--
An import begun within a text `keyword ++ blanks ++ name`, where `name` has no blank characters,
begins so late in it that its keyword reaches to the end of the name.
-/
theorem exists_append_of_opening {blanks name u after t : List Char} {b : Char}
    (blank : ∀ c ∈ blanks, isBlank c = true) (solid : ∀ c ∈ name, isBlank c = false)
    (nonempty : u ≠ []) (isBlank_b : isBlank b = true)
    (h : u ++ (keyword ++ b :: t) = keyword ++ blanks ++ name ++ after) :
    ∃ w, u ++ keyword = keyword ++ blanks ++ name ++ w := by
  -- The first letter of its keyword is not within the rest of the keyword and the blanks.
  obtain ⟨c, u', rfl⟩ := List.exists_cons_of_ne_nil nonempty
  have absent_i : 'i' ∉ ['m', 'p', 'o', 'r', 't'] ++ blanks := by
    intro mem
    rcases List.mem_append.1 mem with mem | mem
    · exact absurd mem (by decide)
    · exact absurd (blank _ mem) (by decide)
  have written : c :: (u' ++ 'i' :: (['m', 'p', 'o', 'r', 't'] ++ b :: t)) =
      'i' :: (['m', 'p', 'o', 'r', 't'] ++ blanks ++ (name ++ after)) := by
    simpa [keyword] using h
  obtain ⟨rfl, tails⟩ := List.cons.inj written
  obtain ⟨inName, rfl, inside⟩ := exists_append_of_notMem absent_i tails
  -- The blank behind its keyword is not within the name.
  have absent_b : b ∉ name := by
    intro mem
    rw [solid b mem] at isBlank_b
    cases isBlank_b
  have written : (inName ++ keyword) ++ b :: t = name ++ after := by
    simpa [keyword] using inside
  obtain ⟨w, long, -⟩ := exists_append_of_notMem absent_b written
  exact ⟨w, by simp [keyword, ← long]⟩

/-- An import begun further on in a text that begins with a statement stands behind that. -/
theorem Statement.exists_append_of_opening {st : Statement} {u t after : List Char} {b : Char}
    (nonempty : u ≠ []) (isBlank_b : isBlank b = true)
    (h : u ++ (keyword ++ b :: t) = st.text ++ after) : ∃ v, u = st.text ++ v := by
  have solid : ∀ c ∈ st.name ++ [';'], isBlank c = false := by
    intro c mem
    rcases List.mem_append.1 mem with mem | mem
    · exact not_isBlank_of_isPathChar (st.plain c mem)
    · obtain rfl := List.mem_singleton.1 mem
      decide
  have written : u ++ (keyword ++ b :: t) =
      keyword ++ st.blanks ++ (st.name ++ [';']) ++ after := h.trans (by simp [text])
  obtain ⟨w, long⟩ := Imports.exists_append_of_opening st.blank solid nonempty isBlank_b written
  -- The semicolon is not within the keyword, so it stands before that.
  have absent : ';' ∉ keyword := by decide
  have written : (keyword ++ st.blanks ++ st.name) ++ ';' :: w = u ++ keyword := by
    simp [long]
  rcases List.append_eq_append_iff.1 written with ⟨v, front, back⟩ | ⟨v, -, back⟩
  · cases v with
    | nil =>
      rw [List.nil_append] at back
      simp [← back] at absent
    | cons d v =>
      obtain ⟨rfl, -⟩ := List.cons.inj back
      exact ⟨v, by simp [front, text]⟩
  · simp [back] at absent

theorem Statement.text_append_of_later {st later : Statement} {u rest after : List Char}
    (nonempty : u ≠ []) (h : u ++ (later.text ++ rest) = st.text ++ after) :
    ∃ v, u = st.text ++ v := by
  obtain ⟨b, t, isBlank_b, opening⟩ := later.exists_text_append rest
  rw [opening] at h
  exact Statement.exists_append_of_opening nonempty isBlank_b h

theorem append_cons_inj {x x' : Char} {w w' t t' : List Char} (absent : x ∉ w') (absent' : x' ∉ w)
    (h : w ++ x :: t = w' ++ x' :: t') : w = w' ∧ x :: t = x' :: t' := by
  obtain ⟨v, front, -⟩ := exists_append_of_notMem absent h
  obtain ⟨v', front', -⟩ := exists_append_of_notMem absent' h.symm
  have same : w = w' := by
    have lengths := congrArg List.length front
    rw [front', List.length_append, List.length_append] at lengths
    have : v = [] := List.eq_nil_of_length_eq_zero (by omega)
    simpa [this] using front
  subst same
  exact ⟨rfl, List.append_cancel_left h⟩

theorem Statement.exists_name_append (st : Statement) (after : List Char) :
    ∃ x t, isBlank x = false ∧ st.name ++ ';' :: after = x :: t := by
  cases written : st.name with
  | nil => exact ⟨';', after, by decide, rfl⟩
  | cons x name =>
    exact ⟨x, name ++ ';' :: after, not_isBlank_of_isPathChar (st.plain x (by simp [written])), rfl⟩

theorem Statement.not_mem_blanks (st : Statement) {x : Char} (h : isBlank x = false) :
    x ∉ st.blanks := by
  intro mem
  rw [st.blank x mem] at h
  cases h

theorem Statement.semicolon_notMem_name (st : Statement) : ';' ∉ st.name := by
  intro mem
  exact absurd (st.plain _ mem) (by decide)

/-- A text begins with at most one statement. -/
theorem Statement.text_append_inj {st st' : Statement} {after after' : List Char}
    (h : st.text ++ after = st'.text ++ after') : st = st' ∧ after = after' := by
  obtain ⟨x, t, solid, first⟩ := st.exists_name_append after
  obtain ⟨x', t', solid', first'⟩ := st'.exists_name_append after'
  have written : st.blanks ++ x :: t = st'.blanks ++ x' :: t' := by
    rw [← first, ← first']
    simpa [text] using h
  obtain ⟨blanks, names⟩ := append_cons_inj (st'.not_mem_blanks solid) (st.not_mem_blanks solid')
    written
  rw [← first, ← first'] at names
  obtain ⟨name, behind⟩ := append_cons_inj st'.semicolon_notMem_name st.semicolon_notMem_name names
  refine ⟨?_, (List.cons.inj behind).2⟩
  cases st
  cases st'
  cases blanks
  cases name
  rfl

theorem stripStart?_eq_some {start s t : List Char} :
    stripStart? start s = some t ↔ s = start ++ t := by
  unfold stripStart?
  constructor
  · intro h
    split at h
    · rename_i starts
      obtain ⟨rest, rfl⟩ := List.isPrefixOf_iff_prefix.1 starts
      simpa using h
    · cases h
  · rintro rfl
    have starts : start.isPrefixOf (start ++ t) = true :=
      List.isPrefixOf_iff_prefix.2 (List.prefix_append start t)
    simp [starts]

theorem afterBlanks?_eq_some {α : Type} {f : List Char → Option α} {s : List Char} {r : α}
    (solid : ∀ c t, isBlank c = true → f (c :: t) = none) :
    afterBlanks? f s = some r ↔ ∃ blanks t, blanks ≠ [] ∧ (∀ c ∈ blanks, isBlank c = true) ∧
      s = blanks ++ t ∧ f t = some r := by
  induction s with
  | nil =>
    simp only [afterBlanks?, reduceCtorEq, false_iff, not_exists]
    rintro blanks t ⟨nonempty, -, written, -⟩
    exact nonempty (List.append_eq_nil_iff.1 written.symm).1
  | cons c rest ih =>
    rw [afterBlanks?]
    constructor
    · intro h
      split at h
      · rename_i isBlank_c
        rcases Option.or_eq_some_iff.1 (by simpa using h) with later | ⟨-, here⟩
        · obtain ⟨blanks, t, -, all, rfl, found⟩ := ih.1 later
          exact ⟨c :: blanks, t, by simp, by simpa [isBlank_c] using all, rfl, found⟩
        · exact ⟨[c], rest, by simp, by simp [isBlank_c], rfl, here⟩
      · cases h
    · rintro ⟨blanks, t, nonempty, all, written, found⟩
      obtain ⟨b, blanks, rfl⟩ := List.exists_cons_of_ne_nil nonempty
      obtain ⟨rfl, rfl⟩ := List.cons.inj written
      rw [if_pos (all c (by simp))]
      cases blanks with
      | nil =>
        have none : afterBlanks? f t = none := by
          cases t with
          | nil => rfl
          | cons d t =>
            rw [afterBlanks?]
            split
            · rename_i isBlank_d
              rw [solid d t isBlank_d] at found
              cases found
            · rfl
        simp [none, found]
      | cons d blanks =>
        have later : afterBlanks? f (d :: blanks ++ t) = some r :=
          ih.2 ⟨d :: blanks, t, by simp, fun e mem => all e (by simp [mem]), rfl, found⟩
        rw [List.cons_append] at later
        simp [later]

theorem nameBelow?_eq_some {source s name after : List Char} :
    nameBelow? source s = some (name, after) ↔
      s = source ++ '.' :: (name ++ ';' :: after) ∧ name ≠ [] ∧
        ∀ c ∈ name, isNameChar c = true := by
  unfold nameBelow?
  simp only [Option.bind_eq_bind, Option.bind_eq_some_iff, stripStart?_eq_some]
  constructor
  · rintro ⟨t, rfl, h⟩
    split at h
    · rename_i rest stopped
      split at h
      · cases h
      · rename_i nonempty
        cases h
        refine ⟨?_, by simpa using nonempty, fun c mem => List.mem_takeWhile_imp mem⟩
        rw [← stopped, List.takeWhile_append_dropWhile]
        simp
    · cases h
  · rintro ⟨rfl, nonempty, plain⟩
    refine ⟨name ++ ';' :: after, by simp, ?_⟩
    have taken : (name ++ ';' :: after).takeWhile isNameChar = name := by
      rw [List.takeWhile_append_of_pos plain]
      simp [isNameChar]
    have left : (name ++ ';' :: after).dropWhile isNameChar = ';' :: after := by
      rw [List.dropWhile_append_of_pos plain]
      simp [isNameChar]
    simp [taken, left, nonempty]

structure IsPackage (s : List Char) : Prop where
  nonempty : s ≠ []
  plain : ∀ c ∈ s, isPackageChar c = true

def Statement.below? (source : List Char) (st : Statement) : Option (List Char) :=
  (stripStart? (source ++ ['.']) st.name).filter fun name => !name.isEmpty && name.all isNameChar

theorem Statement.below?_eq_some {source name : List Char} {st : Statement} :
    st.below? source = some name ↔ st.name = source ++ '.' :: name ∧ name ≠ [] ∧
      ∀ c ∈ name, isNameChar c = true := by
  simp [below?, Option.filter_eq_some_iff, stripStart?_eq_some]

theorem importBelow?_eq_some {source s name after : List Char} (package : IsPackage source) :
    importBelow? source s = some (name, after) ↔
      ∃ st : Statement, s = st.text ++ after ∧ st.below? source = some name := by
  obtain ⟨x, source', named⟩ := List.exists_cons_of_ne_nil package.nonempty
  have isPackageChar_x : isPackageChar x = true := package.plain x (by simp [named])
  have solid : ∀ c t, isBlank c = true → nameBelow? source (c :: t) = none := by
    intro c t isBlank_c
    cases found : nameBelow? source (c :: t) with
    | none => rfl
    | some r =>
      have written := (nameBelow?_eq_some.1 found).1
      rw [named] at written
      obtain ⟨rfl, -⟩ := List.cons.inj written
      rw [not_isBlank_of_isPathChar (isPathChar_of_isPackageChar isPackageChar_x)] at isBlank_c
      cases isBlank_c
  simp only [importBelow?, importing?, Option.bind_eq_some_iff, stripStart?_eq_some,
    afterBlanks?_eq_some solid, nameBelow?_eq_some, Statement.below?_eq_some]
  constructor
  · rintro ⟨-, rfl, blanks, -, spaced, blank, rfl, rfl, nonempty, plain⟩
    have path : ∀ c ∈ source ++ '.' :: name, isPathChar c = true := by
      intro c mem
      rcases List.mem_append.1 mem with mem | mem
      · exact isPathChar_of_isPackageChar (package.plain c mem)
      · rcases List.mem_cons.1 mem with rfl | mem
        · decide
        · exact isPathChar_of_isNameChar (plain c mem)
    exact ⟨⟨blanks, source ++ '.' :: name, spaced, blank, path⟩, by simp [Statement.text], rfl,
      nonempty, plain⟩
  · rintro ⟨st, rfl, named, nonempty, plain⟩
    exact ⟨_, by simp [Statement.text]; rfl, st.blanks, _, st.spaced, st.blank, rfl,
      by simp [named], nonempty, plain⟩

theorem importBelow?_text {source : List Char} (package : IsPackage source) (st : Statement)
    (rest : List Char) :
    importBelow? source (st.text ++ rest) = (st.below? source).map (·, rest) := by
  cases found : st.below? source with
  | some name => exact (importBelow?_eq_some package).2 ⟨st, rfl, found⟩
  | none =>
    cases other : importBelow? source (st.text ++ rest) with
    | none => rfl
    | some r =>
      obtain ⟨st', written, below⟩ := (importBelow?_eq_some package).1 other
      obtain ⟨rfl, -⟩ := Statement.text_append_inj written
      rw [found] at below
      cases below

theorem startsStatement_of_importBelow? {source s : List Char} {r : List Char × List Char}
    (package : IsPackage source) (h : importBelow? source s = some r) : StartsStatement s := by
  obtain ⟨st, written, -⟩ := (importBelow?_eq_some package).1 h
  exact ⟨st, r.2, written⟩

end JavaMigration.Imports
