import JavaMigration.Proofs.Imports.Segment

/-!
# One scan

A scan goes over a text once, from left to right, and lets each import be claimed by the first
mapping of the table that finds it. Like a single mapping it works on the statements of the text.
-/

namespace JavaMigration.Imports

open Text Segment

/-- A part of a scanned text: a character that is kept, or an import that a mapping claims. -/
inductive Piece
  | kept (c : Char)
  | claimed (position : Nat) (mapping : Mapping) (blanks name : List Char)
deriving DecidableEq, Repr

namespace Piece

def original : Piece → List Char
  | kept c => [c]
  | claimed _ m blanks name => keyword ++ blanks ++ m.source.toList ++ '.' :: (name ++ [';'])

def moved : Piece → List Char
  | kept c => [c]
  | claimed _ m _ name => importText m.target.toList name

def isClaimedBy (position : Nat) : Piece → Bool
  | kept _ => false
  | claimed position' _ _ _ => position' = position

end Piece

def firstFinding? {α : Type} (find : Mapping → Option α) (position : Nat) :
    List Mapping → Option (Nat × Mapping × α)
  | [] => none
  | m :: rest =>
    match find m with
    | some a => some (position, m, a)
    | none => firstFinding? find (position + 1) rest

/-- The import at the start of a text for the first mapping that finds it, and what follows it. -/
def claim? (mappings : List Mapping) (s : List Char) : Option (Piece × List Char) :=
  (firstFinding? (fun m => importBelow? m.source.toList s) 0 mappings).map
    fun (position, m, name, after) =>
      (.claimed position m ((s.drop keyword.length).takeWhile isBlank) name, after)

section FirstFinding

variable {α β : Type} {find find' : Mapping → Option α} {mappings : List Mapping}
  {position i : Nat} {m : Mapping} {a : α}

theorem firstFinding?_eq_some :
    firstFinding? find position mappings = some (i, m, a) ↔
      ∃ front back, mappings = front ++ m :: back ∧ i = position + front.length ∧
        find m = some a ∧ ∀ m' ∈ front, find m' = none := by
  induction mappings generalizing position with
  | nil => simp [firstFinding?]
  | cons first rest ih =>
    rw [firstFinding?]
    cases found : find first with
    | some b =>
      constructor
      · intro h
        cases h
        exact ⟨[], rest, rfl, rfl, found, by simp⟩
      · rintro ⟨front, back, split, rfl, here, before⟩
        cases front with
        | nil =>
          obtain ⟨rfl, -⟩ := List.cons.inj split
          rw [found] at here
          cases here
          rfl
        | cons first' front =>
          obtain ⟨rfl, -⟩ := List.cons.inj split
          rw [before first (by simp)] at found
          cases found
    | none =>
      rw [ih]
      constructor
      · rintro ⟨front, back, rfl, rfl, here, before⟩
        refine ⟨first :: front, back, rfl, ?_, here, ?_⟩
        · rw [List.length_cons]
          omega
        · intro m' mem
          rcases List.mem_cons.1 mem with rfl | mem
          · exact found
          · exact before m' mem
      · rintro ⟨front, back, split, rfl, here, before⟩
        cases front with
        | nil =>
          obtain ⟨rfl, -⟩ := List.cons.inj split
          rw [found] at here
          cases here
        | cons first' front =>
          obtain ⟨rfl, rfl⟩ := List.cons.inj split
          refine ⟨front, back, rfl, ?_, here, fun m' mem => before m' (by simp [mem])⟩
          rw [List.length_cons]
          omega

theorem firstFinding?_eq_none :
    firstFinding? find position mappings = none ↔ ∀ m ∈ mappings, find m = none := by
  induction mappings generalizing position with
  | nil => simp [firstFinding?]
  | cons first rest ih =>
    rw [firstFinding?]
    cases found : find first with
    | some b => simp [found]
    | none => simp [ih, found]

theorem firstFinding?_congr (same : ∀ m ∈ mappings, find m = find' m) (position : Nat) :
    firstFinding? find position mappings = firstFinding? find' position mappings := by
  induction mappings generalizing position with
  | nil => rfl
  | cons first rest ih =>
    rw [firstFinding?, firstFinding?, same first (by simp), ih fun m mem => same m (by simp [mem])]

theorem firstFinding?_map (f : α → β) (find : Mapping → Option α) (position : Nat)
    (mappings : List Mapping) :
    firstFinding? (fun m => (find m).map f) position mappings =
      (firstFinding? find position mappings).map fun (i, m, a) => (i, m, f a) := by
  induction mappings generalizing position with
  | nil => rfl
  | cons first rest ih =>
    rw [firstFinding?, firstFinding?]
    cases find first with
    | some a => rfl
    | none => exact ih (position + 1)

end FirstFinding

theorem length_of_claim {mappings : List Mapping} {s after : List Char} {piece : Piece}
    (h : claim? mappings s = some (piece, after)) : after.length < s.length := by
  obtain ⟨⟨i, m, name, after'⟩, found, same⟩ := Option.map_eq_some_iff.1 h
  cases same
  obtain ⟨-, -, -, -, below, -⟩ := firstFinding?_eq_some.1 found
  exact length_of_importBelow below

/--
Scans a text, which `previous` precedes, from left to right. An import that a mapping finds at a
word boundary is claimed as a whole; every other character is kept.
-/
def scan (mappings : List Mapping) (previous : Option Char) (s : List Char) : List Piece :=
  match s with
  | [] => []
  | c :: rest =>
    match h : claim? mappings (c :: rest) with
    | none => .kept c :: scan mappings (some c) rest
    | some (piece, after) =>
      if isBoundary previous then
        have : after.length < rest.length + 1 := length_of_claim h
        piece :: scan mappings (some ';') after
      else .kept c :: scan mappings (some c) rest
termination_by s.length

def Statement.claim? (mappings : List Mapping) (st : Statement) :
    Option (Nat × Mapping × List Char) :=
  firstFinding? (fun m => st.below? m.source.toList) 0 mappings

namespace Segment

def scanned (mappings : List Mapping) : Segment → List Piece
  | char c => [.kept c]
  | statement st =>
    match st.claim? mappings with
    | some (position, m, name) => [.claimed position m st.blanks name]
    | none => st.text.map .kept

end Segment

section Scanning

variable {mappings : List Mapping} {previous : Option Char} {c : Char} {s rest : List Char}

theorem claim?_eq_none_of_not_starts
    (packages : ∀ m ∈ mappings, IsPackage m.source.toList ∧ IsPackage m.target.toList)
    (h : ¬ StartsStatement s) : claim? mappings s = none := by
  rw [claim?, Option.map_eq_none_iff, firstFinding?_eq_none]
  intro m mem
  cases found : importBelow? m.source.toList s with
  | none => rfl
  | some r => exact absurd (startsStatement_of_importBelow? (packages m mem).1 found) h

theorem takeWhile_blanks (st : Statement) (rest : List Char) :
    ((st.text ++ rest).drop keyword.length).takeWhile isBlank = st.blanks := by
  obtain ⟨x, t, solid, behind⟩ := st.exists_name_append rest
  have written : (st.text ++ rest).drop keyword.length = st.blanks ++ x :: t := by
    rw [← behind]
    simp [Statement.text]
  rw [written, List.takeWhile_append_of_pos st.blank]
  simp [solid]

theorem claim?_text
    (packages : ∀ m ∈ mappings, IsPackage m.source.toList ∧ IsPackage m.target.toList)
    (st : Statement) (rest : List Char) :
    claim? mappings (st.text ++ rest) =
      (st.claim? mappings).map fun (position, m, name) =>
        (.claimed position m st.blanks name, rest) := by
  have finding : ∀ m ∈ mappings, importBelow? m.source.toList (st.text ++ rest) =
      (st.below? m.source.toList).map (·, rest) :=
    fun m mem => importBelow?_text (packages m mem).1 st rest
  rw [claim?, takeWhile_blanks, firstFinding?_congr finding, firstFinding?_map, Option.map_map]
  rfl

@[simp]
theorem scan_nil (mappings : List Mapping) (previous : Option Char) :
    scan mappings previous [] = [] := by
  rw [scan]

theorem scan_char (h : isBoundary previous = true → claim? mappings (c :: rest) = none) :
    scan mappings previous (c :: rest) = .kept c :: scan mappings (some c) rest := by
  rw [scan]
  split
  · rfl
  · rename_i piece after found
    split
    · rename_i boundary
      rw [h boundary] at found
      cases found
    · rfl

theorem scan_claimed {piece : Piece} {after : List Char}
    (found : claim? mappings s = some (piece, after)) (boundary : isBoundary previous = true) :
    scan mappings previous s = piece :: scan mappings (some ';') after := by
  cases s with
  | nil => exact absurd (length_of_claim found) (by simp)
  | cons c rest =>
    rw [scan]
    split
    · rename_i missing
      rw [found] at missing
      cases missing
    · rename_i piece' after' found'
      rw [found] at found'
      cases found'
      rw [if_pos boundary]

theorem scan_append {v : List Char}
    (h : ∀ w, w <:+ v → claim? mappings (w ++ c :: rest) = none) :
    scan mappings previous (v ++ c :: rest) =
      (v ++ [c]).map .kept ++ scan mappings (some c) rest := by
  induction v generalizing previous with
  | nil => exact scan_char fun _ => h [] List.nil_suffix
  | cons d v ih =>
    have nothing : claim? mappings (d :: (v ++ c :: rest)) = none :=
      h (d :: v) (List.suffix_refl _)
    rw [List.cons_append, scan_char fun _ => nothing,
      ih fun w suffix => h w (suffix.trans (List.suffix_cons d v))]
    rfl

theorem scan_statement_of_none
    (packages : ∀ m ∈ mappings, IsPackage m.source.toList ∧ IsPackage m.target.toList)
    (previous : Option Char) {st : Statement} (h : st.claim? mappings = none)
    (rest : List Char) :
    scan mappings previous (st.text ++ rest) =
      st.text.map .kept ++ scan mappings (some ';') rest := by
  rw [st.text_append, scan_append]
  · simp [Statement.text]
  · intro w suffix
    obtain ⟨v, front⟩ := suffix
    by_cases first : v = []
    · rw [first, List.nil_append] at front
      rw [front, ← st.text_append, claim?_text packages, h, Option.map_none]
    · apply claim?_eq_none_of_not_starts packages
      exact st.not_startsStatement_within front first rest

end Scanning

/-- A scan finds the statements of a text, and no others. -/
theorem Segment.Canonical.scan_textOf {mappings : List Mapping}
    (packages : ∀ m ∈ mappings, IsPackage m.source.toList ∧ IsPackage m.target.toList)
    {previous : Option Char} {segments : List Segment} (h : Canonical previous segments) :
    scan mappings previous (textOf segments) = segments.flatMap (scanned mappings) := by
  induction h with
  | nil => simp
  | @char previous c segments outside _ ih =>
    rw [textOf_char, scan_char fun boundary =>
      claim?_eq_none_of_not_starts packages (outside boundary), ih]
    rfl
  | @statement previous st segments boundary _ ih =>
    rw [textOf_statement, List.flatMap_cons]
    cases claimed : st.claim? mappings with
    | none =>
      rw [scan_statement_of_none packages previous claimed, ih]
      simp only [scanned, claimed]
    | some r =>
      obtain ⟨position, m, name⟩ := r
      have found : claim? mappings (st.text ++ textOf segments) =
          some (.claimed position m st.blanks name, textOf segments) := by
        rw [claim?_text packages, claimed, Option.map_some]
      rw [scan_claimed found boundary, ih]
      simp only [scanned, claimed, List.cons_append, List.nil_append]

end JavaMigration.Imports
