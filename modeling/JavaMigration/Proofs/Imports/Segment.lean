import JavaMigration.Proofs.Imports.Statement

/-!
# Texts by their statements

A text is cut into its import statements and the characters between them. A mapping works on the
statements alone, by their names, and what it writes is cut at the same places again: no statement
begins or ends where it wrote, since statements do not overlap.
-/

namespace JavaMigration.Imports

open Text

/-- A part of a text: a statement that counts, or a character outside of all statements. -/
inductive Segment
  | char (c : Char)
  | statement (st : Statement)

namespace Segment

def text : Segment → List Char
  | char c => [c]
  | statement st => st.text

def mapStatement (f : Statement → Statement) : Segment → Segment
  | char c => char c
  | statement st => statement (f st)

def textOf (segments : List Segment) : List Char :=
  segments.flatMap text

@[simp]
theorem textOf_nil : textOf [] = [] :=
  rfl

@[simp]
theorem textOf_char (c : Char) (segments : List Segment) :
    textOf (char c :: segments) = c :: textOf segments :=
  rfl

@[simp]
theorem textOf_statement (st : Statement) (segments : List Segment) :
    textOf (statement st :: segments) = st.text ++ textOf segments :=
  rfl

/-- The segments are those of their text, which `previous` precedes. -/
inductive Canonical : Option Char → List Segment → Prop
  | nil {previous} : Canonical previous []
  | char {previous c segments} :
      (isBoundary previous = true → ¬ StartsStatement (c :: textOf segments)) →
      Canonical (some c) segments → Canonical previous (char c :: segments)
  | statement {previous st segments} :
      isBoundary previous = true → Canonical (some ';') segments →
      Canonical previous (statement st :: segments)

theorem exists_canonical (previous : Option Char) (s : List Char) :
    ∃ segments, textOf segments = s ∧ Canonical previous segments := by
  match s with
  | [] => exact ⟨[], rfl, .nil⟩
  | c :: rest =>
    by_cases starts : isBoundary previous = true ∧ StartsStatement (c :: rest)
    · obtain ⟨boundary, st, after, written⟩ := starts
      have shorter : after.length < (c :: rest).length := by
        rw [written, List.length_append]
        exact Nat.lt_add_of_pos_left (List.length_pos_iff.2 st.text_ne_nil)
      obtain ⟨segments, same, canonical⟩ := exists_canonical (some ';') after
      exact ⟨statement st :: segments, by rw [textOf_statement, same, written],
        .statement boundary canonical⟩
    · obtain ⟨segments, same, canonical⟩ := exists_canonical (some c) rest
      refine ⟨char c :: segments, by rw [textOf_char, same], .char ?_ canonical⟩
      rw [same]
      exact fun boundary found => starts ⟨boundary, found⟩
termination_by s.length
decreasing_by
  · exact shorter
  · exact Nat.lt_succ_self rest.length

/--
Whether a statement begins a text does not depend on the statements that come later in it. The
induction moves the characters in front of the next statement to the beginning.
-/
theorem startsStatement_of_map {f : Statement → Statement} {segments : List Segment}
    {u : List Char} (nonempty : u ≠ [])
    (h : StartsStatement (u ++ textOf (segments.map (mapStatement f)))) :
    StartsStatement (u ++ textOf segments) := by
  induction segments generalizing u with
  | nil => exact h
  | cons segment segments ih =>
    cases segment with
    | char c =>
      have moved : StartsStatement ((u ++ [c]) ++ textOf (segments.map (mapStatement f))) := by
        simpa [mapStatement] using h
      simpa using ih (by simp) moved
    | statement st =>
      obtain ⟨first, after, written⟩ := h
      simp only [List.map_cons, mapStatement, textOf_statement] at written
      obtain ⟨v, rfl⟩ := Statement.text_append_of_later nonempty written
      exact ⟨first, v ++ textOf (statement st :: segments), by simp⟩

theorem Canonical.map {previous : Option Char} {segments : List Segment}
    (f : Statement → Statement) (h : Canonical previous segments) :
    Canonical previous (segments.map (mapStatement f)) := by
  induction h with
  | nil => exact .nil
  | @char previous c segments outside _ ih =>
    refine .char ?_ ih
    intro boundary starts
    exact outside boundary (startsStatement_of_map (u := [c]) (by simp) starts)
  | statement boundary _ ih => exact .statement boundary ih

end Segment

theorem Statement.text_append (st : Statement) (rest : List Char) :
    st.text ++ rest = (keyword ++ st.blanks ++ st.name) ++ ';' :: rest := by
  simp [text]

/-- Behind the first character of a statement no other one begins before its end. -/
theorem Statement.not_startsStatement_within (st : Statement) {v w : List Char}
    (front : v ++ w = keyword ++ st.blanks ++ st.name) (nonempty : v ≠ []) (rest : List Char) :
    ¬ StartsStatement (w ++ ';' :: rest) := by
  rintro ⟨later, after, starts⟩
  have whole : v ++ (later.text ++ after) = st.text ++ rest := by
    rw [st.text_append, ← front, ← starts, List.append_assoc]
  obtain ⟨v', long⟩ := Statement.text_append_of_later nonempty whole
  have lengths := congrArg List.length front
  rw [long] at lengths
  simp [text] at lengths

section Moving

variable {source target : List Char} {previous : Option Char} {c : Char} {s rest : List Char}

@[simp]
theorem move_nil (source target : List Char) (previous : Option Char) :
    move source target previous [] = ([], 0) := by
  rw [move]

theorem move_char (h : isBoundary previous = true → importBelow? source (c :: rest) = none) :
    move source target previous (c :: rest) =
      (c :: (move source target (some c) rest).1, (move source target (some c) rest).2) := by
  rw [move]
  split
  · rfl
  · rename_i found
    split
    · rename_i boundary
      rw [h boundary] at found
      cases found
    · rfl

theorem move_import {name after : List Char} (found : importBelow? source s = some (name, after))
    (boundary : isBoundary previous = true) :
    move source target previous s =
      (importText target name ++ (move source target (some ';') after).1,
        (move source target (some ';') after).2 + 1) := by
  cases s with
  | nil => simp [importBelow?, importing?, stripStart?, keyword] at found
  | cons c rest =>
    rw [move]
    split
    · rename_i missing
      rw [found] at missing
      cases missing
    · rename_i name' after' found'
      rw [found] at found'
      cases found'
      rw [if_pos boundary]

theorem move_append {v : List Char}
    (h : ∀ w, w <:+ v → importBelow? source (w ++ c :: rest) = none) :
    move source target previous (v ++ c :: rest) =
      (v ++ c :: (move source target (some c) rest).1, (move source target (some c) rest).2) := by
  induction v generalizing previous with
  | nil => exact move_char fun _ => h [] List.nil_suffix
  | cons d v ih =>
    have nothing : importBelow? source (d :: (v ++ c :: rest)) = none :=
      h (d :: v) (List.suffix_refl _)
    rw [List.cons_append, move_char fun _ => nothing,
      ih fun w suffix => h w (suffix.trans (List.suffix_cons d v))]
    rfl

theorem move_statement_of_none (package : IsPackage source) (target : List Char)
    (previous : Option Char) {st : Statement} (h : st.below? source = none) (rest : List Char) :
    move source target previous (st.text ++ rest) =
      (st.text ++ (move source target (some ';') rest).1,
        (move source target (some ';') rest).2) := by
  rw [st.text_append, move_append]
  · simp [Statement.text]
  · intro w suffix
    obtain ⟨v, front⟩ := suffix
    cases found : importBelow? source (w ++ ';' :: rest) with
    | none => rfl
    | some r =>
      by_cases first : v = []
      · rw [first, List.nil_append] at front
        rw [front, ← st.text_append, importBelow?_text package, h] at found
        cases found
      · exact absurd (startsStatement_of_importBelow? package found)
          (st.not_startsStatement_within front first rest)

end Moving

namespace Statement

def relocate (source target : List Char) (st : Statement) : Statement :=
  match st.below? source with
  | none => st
  | some name =>
    if plain : (target ++ '.' :: name).all isPathChar = true then
      ⟨[' '], target ++ '.' :: name, by simp, by simp [isBlank], List.all_eq_true.1 plain⟩
    else st

theorem relocate_of_none {source : List Char} (target : List Char) {st : Statement}
    (h : st.below? source = none) : st.relocate source target = st := by
  rw [relocate, h]

theorem relocate_of_some {source target name : List Char} {st : Statement}
    (package : IsPackage target) (h : st.below? source = some name) :
    (st.relocate source target).blanks = [' '] ∧
      (st.relocate source target).name = target ++ '.' :: name := by
  obtain ⟨-, -, rest⟩ := below?_eq_some.1 h
  have plain : ∀ c ∈ target ++ '.' :: name, isPathChar c = true := by
    intro c mem
    rcases List.mem_append.1 mem with mem | mem
    · exact isPathChar_of_isPackageChar (package.plain c mem)
    · rcases List.mem_cons.1 mem with rfl | mem
      · decide
      · exact isPathChar_of_isNameChar (rest c mem)
  rw [relocate, h]
  simp only [dif_pos (List.all_eq_true.2 plain), and_self]

theorem text_relocate {source target name : List Char} {st : Statement}
    (package : IsPackage target) (h : st.below? source = some name) :
    (st.relocate source target).text = importText target name := by
  obtain ⟨blanks, renamed⟩ := relocate_of_some package h
  simp [text, blanks, renamed, importText]

def settle (mappings : List Mapping) (st : Statement) : Statement :=
  mappings.foldl (fun st m => st.relocate m.source.toList m.target.toList) st

end Statement

namespace Segment

def isMoved (source : List Char) : Segment → Bool
  | char _ => false
  | statement st => (st.below? source).isSome

/-- A mapping changes the statements of a text one by one, and nothing else. -/
theorem Canonical.move_textOf {source target : List Char} (package : IsPackage source)
    (package' : IsPackage target) {previous : Option Char} {segments : List Segment}
    (h : Canonical previous segments) :
    move source target previous (textOf segments) =
      (textOf (segments.map (mapStatement (·.relocate source target))),
        segments.countP (isMoved source)) := by
  induction h with
  | nil => simp
  | @char previous c segments outside _ ih =>
    have nothing : isBoundary previous = true →
        importBelow? source (c :: textOf segments) = none := by
      intro boundary
      cases found : importBelow? source (c :: textOf segments) with
      | none => rfl
      | some r => exact absurd (startsStatement_of_importBelow? package found) (outside boundary)
    rw [textOf_char, move_char nothing, ih]
    simp [mapStatement, isMoved]
  | @statement previous st segments boundary _ ih =>
    rw [textOf_statement]
    cases below : st.below? source with
    | none =>
      rw [move_statement_of_none package target previous below, ih]
      simp [mapStatement, isMoved, below, Statement.relocate_of_none]
    | some name =>
      have found : importBelow? source (st.text ++ textOf segments) =
          some (name, textOf segments) := by
        rw [importBelow?_text package, below, Option.map_some]
      rw [move_import found boundary, ih]
      simp [mapStatement, isMoved, below, Statement.text_relocate package' below]

theorem map_relocate_of_none {source target : List Char} {segments : List Segment}
    (h : segments.countP (isMoved source) = 0) :
    segments.map (mapStatement (·.relocate source target)) = segments := by
  rw [List.countP_eq_zero] at h
  refine (List.map_congr_left ?_).trans (List.map_id segments)
  intro segment mem
  cases segment with
  | char c => rfl
  | statement st =>
    have unmoved : st.below? source = none := by
      simpa [isMoved] using h _ mem
    rw [mapStatement, Statement.relocate_of_none target unmoved, id]

theorem map_mapStatement (f g : Statement → Statement) (segments : List Segment) :
    (segments.map (mapStatement f)).map (mapStatement g) =
      segments.map (mapStatement fun st => g (f st)) := by
  rw [List.map_map]
  apply List.map_congr_left
  intro segment _
  cases segment with
  | char c => rfl
  | statement st => rfl

theorem map_settle_nil (segments : List Segment) :
    segments.map (mapStatement (·.settle [])) = segments := by
  refine (List.map_congr_left ?_).trans (List.map_id segments)
  intro segment _
  cases segment with
  | char c => rfl
  | statement st => rfl

/-- The mappings of a table change the statements of a text one by one. -/
theorem Canonical.applyMappings_textOf {mappings : List Mapping}
    (packages : ∀ m ∈ mappings, IsPackage m.source.toList ∧ IsPackage m.target.toList)
    {segments : List Segment} (h : Canonical none segments) :
    (applyMappings (textOf segments) mappings).1 =
      textOf (segments.map (mapStatement (·.settle mappings))) := by
  induction mappings generalizing segments with
  | nil => rw [applyMappings, map_settle_nil]
  | cons m mappings ih =>
    obtain ⟨package, package'⟩ := packages m (by simp)
    have later := ih (fun m' mem => packages m' (by simp [mem]))
      (h.map (·.relocate m.source.toList m.target.toList))
    rw [map_mapStatement] at later
    rw [applyMappings, h.move_textOf package package']
    by_cases none : segments.countP (isMoved m.source.toList) = 0
    · rw [map_relocate_of_none none] at later
      simp only [none, ↓reduceIte]
      exact later
    · simp only [none, ↓reduceIte]
      exact later

/-- Where no mapping moves any statement, the text stays as it is and nothing is counted. -/
theorem Canonical.applyMappings_of_settled {mappings : List Mapping}
    (packages : ∀ m ∈ mappings, IsPackage m.source.toList ∧ IsPackage m.target.toList)
    {segments : List Segment} (h : Canonical none segments)
    (settled : ∀ m ∈ mappings, segments.countP (isMoved m.source.toList) = 0) :
    applyMappings (textOf segments) mappings = (textOf segments, []) := by
  induction mappings with
  | nil => rfl
  | cons m mappings ih =>
    obtain ⟨package, package'⟩ := packages m (by simp)
    have later := ih (fun m' mem => packages m' (by simp [mem]))
      (fun m' mem => settled m' (by simp [mem]))
    rw [applyMappings, h.move_textOf package package']
    simp only [settled m (by simp), ↓reduceIte]
    exact later

end Segment

end JavaMigration.Imports
