import JavaMigration.Proofs.Imports.FirstMatch

/-!
# Uses of names

Where a text imports from a name, whatever comes behind the name. Rewriting changes whole statements
only, and a use neither begins within a statement nor reaches into the next one. So of the uses of a
name, apart from all targets, a rewritten text keeps those that no mapping takes for a statement.
-/

namespace JavaMigration.Imports

open Text Segment

/-- Whether a text begins with an import of something that starts with `name`. -/
def BeginsUse (name s : List Char) : Prop :=
  ∃ blanks after, blanks ≠ [] ∧ (∀ c ∈ blanks, isBlank c = true) ∧
    s = keyword ++ blanks ++ name ++ after

/-- Whether something can start with `name` and be below the namespace `package`. -/
def meets (name : List Char) (package : String) : Bool :=
  name.isPrefixOf (package.toList ++ ['.']) || (package.toList ++ ['.']).isPrefixOf name

section Uses

variable {name s u : List Char} {previous : Option Char} {segments : List Segment}
  {mappings : List Mapping}

theorem BeginsUse.append (h : BeginsUse name s) (t : List Char) : BeginsUse name (s ++ t) := by
  obtain ⟨blanks, after, spaced, blank, rfl⟩ := h
  exact ⟨blanks, after ++ t, spaced, blank, by simp⟩

theorem BeginsUse.exists_opening (h : BeginsUse name s) :
    ∃ b t, isBlank b = true ∧ s = keyword ++ b :: t := by
  obtain ⟨blanks, after, spaced, blank, rfl⟩ := h
  obtain ⟨b, blanks, rfl⟩ := List.exists_cons_of_ne_nil spaced
  exact ⟨b, blanks ++ name ++ after, blank b (by simp), by simp⟩

theorem isSome_afterBlanks?_iff {α : Type} {f : List Char → Option α} :
    (afterBlanks? f s).isSome = true ↔ ∃ blanks t, blanks ≠ [] ∧
      (∀ c ∈ blanks, isBlank c = true) ∧ s = blanks ++ t ∧ (f t).isSome = true := by
  induction s with
  | nil =>
    simp only [afterBlanks?, Option.isSome_none, Bool.false_eq_true, false_iff]
    rintro ⟨blanks, t, nonempty, -, written, -⟩
    exact nonempty (List.append_eq_nil_iff.1 written.symm).1
  | cons c rest ih =>
    rw [afterBlanks?]
    constructor
    · intro found
      split at found
      · rename_i isBlank_c
        simp only [Option.orElse_eq_orElse, Option.orElse_eq_or, Option.isSome_or,
          Bool.or_eq_true] at found
        rcases found with later | here
        · obtain ⟨blanks, t, -, blank, rfl, found⟩ := ih.1 later
          exact ⟨c :: blanks, t, by simp, by simpa [isBlank_c] using blank, rfl, found⟩
        · exact ⟨[c], rest, by simp, by simp [isBlank_c], rfl, here⟩
      · cases found
    · rintro ⟨blanks, t, nonempty, blank, written, found⟩
      obtain ⟨b, blanks, rfl⟩ := List.exists_cons_of_ne_nil nonempty
      obtain ⟨rfl, rfl⟩ := List.cons.inj written
      rw [if_pos (blank c (by simp))]
      simp only [Option.orElse_eq_orElse, Option.orElse_eq_or, Option.isSome_or, Bool.or_eq_true]
      by_cases more : blanks = []
      · exact .inr (by simpa [more] using found)
      · exact .inl (ih.2 ⟨blanks, t, more, fun d mem => blank d (by simp [mem]), rfl, found⟩)

theorem isSome_importing?_iff :
    (importing? (stripStart? name) s).isSome = true ↔ BeginsUse name s := by
  have starts (t : List Char) : (stripStart? name t).isSome = true ↔ ∃ after, t = name ++ after := by
    simp only [Option.isSome_iff_exists, stripStart?_eq_some]
  simp only [importing?, Option.isSome_bind, Option.any_eq_true, stripStart?_eq_some,
    isSome_afterBlanks?_iff, starts]
  constructor
  · rintro ⟨-, rfl, blanks, -, spaced, blank, rfl, after, rfl⟩
    exact ⟨blanks, after, spaced, blank, by simp⟩
  · rintro ⟨blanks, after, spaced, blank, rfl⟩
    exact ⟨_, List.append_assoc _ _ _ ▸ List.append_assoc _ _ _, blanks, name ++ after, spaced,
      blank, rfl, after, rfl⟩

theorem imports_iff :
    imports name previous s = true ↔ ∃ before rest, s = before ++ rest ∧
      isBoundary (before.getLast?.or previous) = true ∧ BeginsUse name rest := by
  induction s generalizing previous with
  | nil =>
    simp only [imports, Bool.false_eq_true, false_iff]
    rintro ⟨before, rest, empty, -, use⟩
    obtain ⟨b, t, -, rfl⟩ := use.exists_opening
    simp [keyword] at empty
  | cons c s ih =>
    rw [imports, Bool.or_eq_true, Bool.and_eq_true, isSome_importing?_iff, ih]
    constructor
    · rintro (⟨here, boundary⟩ | ⟨before, rest, rfl, boundary, later⟩)
      · exact ⟨[], c :: s, rfl, boundary, here⟩
      · refine ⟨c :: before, rest, rfl, ?_, later⟩
        rwa [← List.singleton_append, List.getLast?_append, Option.or_assoc]
    · rintro ⟨before, rest, written, boundary, use⟩
      cases before with
      | nil =>
        rw [List.nil_append] at written
        exact .inl ⟨written ▸ use, boundary⟩
      | cons d before =>
        obtain ⟨rfl, rfl⟩ := List.cons.inj written
        rw [← List.singleton_append, List.getLast?_append, Option.or_assoc] at boundary
        exact .inr ⟨before, rest, rfl, boundary, use⟩

/-- No use begins within a statement. -/
theorem exists_segment_of_use {before rest : List Char}
    (split : textOf segments = before ++ rest) (use : BeginsUse name rest) :
    ∃ front segment back, segments = front ++ segment :: back ∧ textOf front = before := by
  obtain ⟨b, t, isBlank_b, rfl⟩ := use.exists_opening
  induction segments generalizing before with
  | nil => simp [keyword] at split
  | cons segment segments ih =>
    by_cases first : before = []
    · exact ⟨[], segment, segments, rfl, first.symm⟩
    cases segment with
    | char c =>
      obtain ⟨d, before, rfl⟩ := List.exists_cons_of_ne_nil first
      rw [textOf_char] at split
      obtain ⟨rfl, tails⟩ := List.cons.inj split
      obtain ⟨front, segment, back, rfl, rfl⟩ := ih tails
      exact ⟨.char c :: front, segment, back, rfl, rfl⟩
    | statement st =>
      rw [textOf_statement] at split
      obtain ⟨v, rfl⟩ := Statement.exists_append_of_opening first isBlank_b split.symm
      rw [List.append_assoc] at split
      obtain ⟨front, segment, back, rfl, rfl⟩ := ih (List.append_cancel_left split)
      exact ⟨.statement st :: front, segment, back, rfl, rfl⟩

theorem imports_textOf_iff :
    imports name previous (textOf segments) = true ↔ ∃ front segment back,
      segments = front ++ segment :: back ∧
        isBoundary ((textOf front).getLast?.or previous) = true ∧
        BeginsUse name (textOf (segment :: back)) := by
  rw [imports_iff]
  constructor
  · rintro ⟨before, rest, split, boundary, use⟩
    obtain ⟨front, segment, back, rfl, rfl⟩ := exists_segment_of_use split use
    rw [textOf, List.flatMap_append] at split
    rw [← List.append_cancel_left split] at use
    exact ⟨front, segment, back, rfl, boundary, use⟩
  · rintro ⟨front, segment, back, rfl, boundary, use⟩
    exact ⟨textOf front, textOf (segment :: back), by simp [textOf], boundary, use⟩

theorem IsPackage.path (h : IsPackage s) : ∀ c ∈ s ++ ['.'], isPathChar c = true := by
  intro c mem
  rcases List.mem_append.1 mem with mem | mem
  · exact isPathChar_of_isPackageChar (h.plain c mem)
  · obtain rfl := List.mem_singleton.1 mem
    decide

theorem not_isBlank_of_path (path : ∀ c ∈ name, isPathChar c = true) :
    ∀ c ∈ name, isBlank c = false :=
  fun c mem => not_isBlank_of_isPathChar (path c mem)

/-- A use that begins in front of a statement ends before the blanks of that. -/
theorem beginsUse_append_text (solid : ∀ c ∈ name, isBlank c = false) (nonempty : u ≠ [])
    (st : Statement) (rest : List Char) :
    BeginsUse name (u ++ (st.text ++ rest)) ↔ BeginsUse name (u ++ keyword) := by
  constructor
  · rintro ⟨blanks, after, spaced, blank, written⟩
    obtain ⟨b, t, isBlank_b, opening⟩ := st.exists_text_append rest
    rw [opening] at written
    obtain ⟨w, long⟩ := exists_append_of_opening blank solid nonempty isBlank_b written
    exact ⟨blanks, w, spaced, blank, long⟩
  · intro use
    have longer := use.append (st.blanks ++ st.name ++ ';' :: rest)
    simpa [Statement.text] using longer

/-- Whether a use begins a text does not depend on the statements that come later in it. -/
theorem beginsUse_map (solid : ∀ c ∈ name, isBlank c = false) (f : Statement → Statement)
    (nonempty : u ≠ []) :
    BeginsUse name (u ++ textOf (segments.map (mapStatement f))) ↔
      BeginsUse name (u ++ textOf segments) := by
  induction segments generalizing u with
  | nil => rfl
  | cons segment segments ih =>
    cases segment with
    | char c => simpa [mapStatement] using ih (u := u ++ [c]) (by simp)
    | statement st =>
      simp only [List.map_cons, mapStatement, textOf_statement, beginsUse_append_text solid nonempty]

theorem beginsUse_text (path : ∀ c ∈ name, isPathChar c = true) (st : Statement)
    (rest : List Char) : BeginsUse name (st.text ++ rest) ↔ name <+: st.name := by
  constructor
  · rintro ⟨blanks, after, -, blank, written⟩
    cases name with
    | nil => exact List.nil_prefix
    | cons x name =>
      obtain ⟨x', t, solid', first⟩ := st.exists_name_append rest
      have solid : isBlank x = false := not_isBlank_of_path path x (by simp)
      have absent : x' ∉ blanks := by
        intro mem
        rw [blank x' mem] at solid'
        cases solid'
      have written : st.blanks ++ x' :: t = blanks ++ x :: (name ++ after) := by
        rw [← first]
        simpa [Statement.text] using written
      obtain ⟨-, names⟩ := append_cons_inj absent (st.not_mem_blanks solid) written
      have ended : ';' ∉ x :: name := by
        intro mem
        exact absurd (path ';' mem) (by decide)
      obtain ⟨v, long, -⟩ := exists_append_of_notMem ended (first.trans names)
      exact ⟨v, long.symm⟩
  · rintro ⟨v, named⟩
    exact ⟨st.blanks, v ++ ';' :: rest, st.spaced, st.blank, by simp [Statement.text, ← named]⟩

theorem getLast?_textOf_map (f : Statement → Statement) (segments : List Segment)
    (previous : Option Char) :
    (textOf (segments.map (mapStatement f))).getLast?.or previous =
      (textOf segments).getLast?.or previous := by
  induction segments generalizing previous with
  | nil => rfl
  | cons segment segments ih =>
    have last : (mapStatement f segment).text.getLast? = segment.text.getLast? := by
      cases segment with
      | char c => rfl
      | statement st => rw [mapStatement, getLast?_text_statement, getLast?_text_statement]
    rw [List.map_cons, textOf, textOf, List.flatMap_cons, List.flatMap_cons, getLast?_text_or,
      getLast?_text_or, last]
    exact ih _

/-- A character of a text that follows a word boundary begins no statement. -/
theorem Segment.Canonical.not_startsStatement_of_append {before after : List Segment} {c : Char}
    (h : Canonical previous (before ++ .char c :: after))
    (boundary : isBoundary ((textOf before).getLast?.or previous) = true) :
    ¬ StartsStatement (textOf (.char c :: after)) := by
  induction before generalizing previous with
  | nil =>
    cases h with
    | char outside _ => exact outside boundary
  | cons segment before ih =>
    rw [List.cons_append] at h
    rw [textOf, List.flatMap_cons, getLast?_text_or] at boundary
    cases h with
    | char _ rest => exact ih rest boundary
    | @statement _ st _ _ rest =>
      rw [getLast?_text_statement] at boundary
      exact ih rest boundary

theorem meets_of_starts {named rest : List Char} {package : String} (starts : name <+: named)
    (below : named = package.toList ++ '.' :: rest) : meets name package = true := by
  have starts' : package.toList ++ ['.'] <+: named := ⟨rest, by simp [below]⟩
  rw [meets, Bool.or_eq_true, List.isPrefixOf_iff_prefix, List.isPrefixOf_iff_prefix]
  exact List.prefix_or_prefix_of_prefix starts starts'

theorem not_meets_of_starts {start start' : List Char} {package : String} (begins : start <+: name)
    (begins' : start' <+: package.toList) (apart : ¬ start <+: start' ∧ ¬ start' <+: start) :
    meets name package = false := by
  have begins' : start' <+: package.toList ++ ['.'] := begins'.trans (List.prefix_append _ _)
  rw [meets, Bool.or_eq_false_iff, ← Bool.not_eq_true, ← Bool.not_eq_true,
    List.isPrefixOf_iff_prefix, List.isPrefixOf_iff_prefix]
  constructor
  · intro longer
    exact (List.prefix_or_prefix_of_prefix (begins.trans longer) begins').elim apart.1 apart.2
  · intro longer
    exact (List.prefix_or_prefix_of_prefix begins (begins'.trans longer)).elim apart.1 apart.2

/-- A statement is of a name, apart from all targets, after all mappings if none of them moved it. -/
theorem Statement.prefix_name_settle (separated : isSeparated mappings = true)
    (apart : ∀ m ∈ mappings, meets name m.target = false) (st : Statement) :
    name <+: (st.settle mappings).name ↔
      name <+: st.name ∧ ∀ m ∈ mappings, st.below? m.source.toList = none := by
  cases claimed : st.claim? mappings with
  | none =>
    have unfound := firstFinding?_eq_none.1 claimed
    rw [settle_of_none unfound]
    exact ⟨fun starts => ⟨starts, unfound⟩, And.left⟩
  | some r =>
    obtain ⟨position, m, rest⟩ := r
    obtain ⟨front, back, table, -, below, -⟩ := firstFinding?_eq_some.1 claimed
    have mem : m ∈ mappings := by simp [table]
    have package := (isPackage_of_isSeparated separated m mem).2
    rw [(settle_of_claim separated (fun _ mem => mem) claimed).1,
      (relocate_of_some package below).2]
    constructor
    · intro starts
      have met := meets_of_starts starts rfl
      rw [apart m mem] at met
      cases met
    · rintro ⟨-, unfound⟩
      rw [unfound m mem] at below
      cases below

/-- A rewritten text keeps the uses of a name that no mapping takes for a statement. -/
theorem imports_applyMappings_iff (separated : isSeparated mappings = true)
    (path : ∀ c ∈ name, isPathChar c = true)
    (apart : ∀ m ∈ mappings, meets name m.target = false) (s : List Char) :
    imports name none (applyMappings s mappings).1 = true ↔ ∃ before rest, s = before ++ rest ∧
      isBoundary before.getLast? = true ∧ BeginsUse name rest ∧
      ∀ m ∈ mappings, ¬ BeginsImport m.source.toList rest := by
  have packages := isPackage_of_isSeparated separated
  have solid := not_isBlank_of_path path
  obtain ⟨segments, rfl, canonical⟩ := exists_canonical none s
  rw [canonical.applyMappings_textOf packages, imports_textOf_iff]
  constructor
  · rintro ⟨front', segment', back', split, boundary, use⟩
    obtain ⟨front, more, rfl, rfl, behind⟩ := List.map_eq_append_iff.1 split
    obtain ⟨segment, back, rfl, rfl, rfl⟩ := List.map_eq_cons_iff.1 behind
    rw [getLast?_textOf_map] at boundary
    refine ⟨textOf front, textOf (segment :: back), by simp [textOf],
      by rwa [Option.or_none] at boundary, ?_⟩
    cases segment with
    | char c =>
      refine ⟨(beginsUse_map (u := [c]) solid (·.settle mappings) (by simp)).1 use, ?_⟩
      intro m mem found
      obtain ⟨st, name, after, starts, -⟩ := (beginsImport_iff (packages m mem).1).1 found
      exact canonical.not_startsStatement_of_append boundary ⟨st, after, starts⟩
    | statement st =>
      rw [mapStatement, textOf_statement, beginsUse_text path,
        Statement.prefix_name_settle separated apart] at use
      rw [textOf_statement, beginsUse_text path]
      refine ⟨use.1, fun m mem => ?_⟩
      rw [beginsImport_text (packages m mem).1]
      simpa using use.2 m mem
  · rintro ⟨before, rest, split, boundary, use, unfound⟩
    obtain ⟨front, segment, back, rfl, rfl⟩ := exists_segment_of_use split use
    rw [textOf, List.flatMap_append] at split
    obtain rfl := List.append_cancel_left split
    refine ⟨front.map (mapStatement (·.settle mappings)), mapStatement (·.settle mappings) segment,
      back.map (mapStatement (·.settle mappings)), by simp, ?_, ?_⟩
    · rwa [getLast?_textOf_map, Option.or_none]
    cases segment with
    | char c => exact (beginsUse_map (u := [c]) solid (·.settle mappings) (by simp)).2 use
    | statement st =>
      rw [mapStatement, textOf_statement, beginsUse_text path,
        Statement.prefix_name_settle separated apart]
      refine ⟨(beginsUse_text path st (textOf back)).1 use, fun m mem => ?_⟩
      have missed := unfound m mem
      rw [List.flatMap_cons, text, beginsImport_text (packages m mem).1] at missed
      simpa using missed

/-- A rewritten text keeps all uses of a name that is apart from all sources too. -/
theorem imports_applyMappings (separated : isSeparated mappings = true)
    (path : ∀ c ∈ name, isPathChar c = true)
    (apart : ∀ m ∈ mappings, meets name m.target = false ∧ meets name m.source = false)
    (s : List Char) :
    imports name none (applyMappings s mappings).1 = imports name none s := by
  rw [Bool.eq_iff_iff, imports_applyMappings_iff separated path fun m mem => (apart m mem).1,
    imports_iff]
  simp only [Option.or_none]
  constructor
  · rintro ⟨before, rest, split, boundary, use, -⟩
    exact ⟨before, rest, split, boundary, use⟩
  · rintro ⟨before, rest, split, boundary, use⟩
    refine ⟨before, rest, split, boundary, use, fun m mem found => ?_⟩
    obtain ⟨st, name', after, rfl, below⟩ :=
      (beginsImport_iff (isPackage_of_isSeparated separated m mem).1).1 found
    have met := meets_of_starts ((beginsUse_text path st after).1 use)
      (Statement.below?_eq_some.1 below).1
    rw [(apart m mem).2] at met
    cases met

end Uses

end JavaMigration.Imports
