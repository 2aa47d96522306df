import JavaMigration.Proofs.Imports.Scan

/-!
# Imports in a text

Where in a text an import below a namespace stands, and that a scan claims these imports: every one
at a word boundary, none elsewhere, and each for the first mapping of the table that finds it.
-/

namespace JavaMigration.Imports

open Text Segment

/-- What stands between the keyword of an import and its namespace, and behind its dot. -/
structure IsImport (blanks name : List Char) : Prop where
  spaced : blanks ≠ []
  blank : ∀ c ∈ blanks, isBlank c = true
  named : name ≠ []
  plain : ∀ c ∈ name, isNameChar c = true

def BeginsImport (source s : List Char) : Prop :=
  ∃ blanks name after, IsImport blanks name ∧
    s = keyword ++ blanks ++ source ++ '.' :: (name ++ ';' :: after)

/--
The pieces are those of a scan: they make up the text, and the claimed ones are exactly the imports
at its word boundaries, each claimed by the first mapping of the table that finds it.
-/
structure IsScan (mappings : List Mapping) (s : List Char) (pieces : List Piece) : Prop where
  whole : pieces.flatMap Piece.original = s
  sound : ∀ front position m blanks name back,
    pieces = front ++ .claimed position m blanks name :: back →
      isBoundary (front.flatMap Piece.original).getLast? = true ∧ IsImport blanks name ∧
        mappings[position]? = some m ∧
        ∀ m' ∈ mappings.take position, ¬ BeginsImport m'.source.toList
          ((Piece.claimed position m blanks name :: back).flatMap Piece.original)
  complete : ∀ before rest, s = before ++ rest → isBoundary before.getLast? = true →
    ∀ m ∈ mappings, BeginsImport m.source.toList rest →
      ∃ front position m' blanks name back,
        pieces = front ++ .claimed position m' blanks name :: back ∧
          front.flatMap Piece.original = before

section Occurrences

variable {mappings : List Mapping} {previous : Option Char} {segments : List Segment}
  {source s : List Char} {st : Statement}

theorem beginsImport_iff (package : IsPackage source) :
    BeginsImport source s ↔
      ∃ (st : Statement) (name after : List Char),
        s = st.text ++ after ∧ st.below? source = some name := by
  constructor
  · rintro ⟨blanks, name, after, written, rfl⟩
    have path : ∀ c ∈ source ++ '.' :: name, isPathChar c = true := by
      intro c mem
      rcases List.mem_append.1 mem with mem | mem
      · exact isPathChar_of_isPackageChar (package.plain c mem)
      · rcases List.mem_cons.1 mem with rfl | mem
        · decide
        · exact isPathChar_of_isNameChar (written.plain c mem)
    refine ⟨⟨blanks, source ++ '.' :: name, written.spaced, written.blank, path⟩, name, after,
      by simp [Statement.text], ?_⟩
    exact Statement.below?_eq_some.2 ⟨rfl, written.named, written.plain⟩
  · rintro ⟨st, name, after, rfl, below⟩
    obtain ⟨named, nonempty, plain⟩ := Statement.below?_eq_some.1 below
    refine ⟨st.blanks, name, after, ⟨st.spaced, st.blank, nonempty, plain⟩, ?_⟩
    simp [Statement.text, named]

/-- A statement imports a name below a source if the mapping from there moves it. -/
theorem beginsImport_text (package : IsPackage source) (st : Statement) (rest : List Char) :
    BeginsImport source (st.text ++ rest) ↔ st.below? source ≠ none := by
  rw [beginsImport_iff package]
  constructor
  · rintro ⟨st', name, after, written, below⟩ missing
    obtain ⟨rfl, -⟩ := Statement.text_append_inj written
    rw [missing] at below
    cases below
  · intro below
    obtain ⟨name, below⟩ := Option.ne_none_iff_exists'.1 below
    exact ⟨st, name, rest, rfl, below⟩

theorem flatMap_original_kept (s : List Char) : (s.map .kept).flatMap Piece.original = s := by
  induction s with
  | nil => rfl
  | cons c s ih => rw [List.map_cons, List.flatMap_cons, ih]; rfl

namespace Segment

theorem flatMap_original_scanned (segment : Segment) :
    (segment.scanned mappings).flatMap Piece.original = segment.text := by
  cases segment with
  | char c => rfl
  | statement st =>
    cases claimed : st.claim? mappings with
    | none =>
      simp only [scanned, claimed]
      exact flatMap_original_kept st.text
    | some r =>
      obtain ⟨position, m, name⟩ := r
      obtain ⟨-, -, -, -, below, -⟩ := firstFinding?_eq_some.1 claimed
      obtain ⟨named, -, -⟩ := Statement.below?_eq_some.1 below
      simp [scanned, claimed, Piece.original, text, Statement.text, named]

theorem flatMap_original (segments : List Segment) :
    (segments.flatMap (scanned mappings)).flatMap Piece.original = textOf segments := by
  rw [List.flatMap_assoc]
  simp only [flatMap_original_scanned]
  rfl

theorem exists_statement_of_claimed {front back : List Piece} {position : Nat} {m : Mapping}
    {blanks name : List Char}
    (h : segments.flatMap (scanned mappings) = front ++ .claimed position m blanks name :: back) :
    ∃ before st after, segments = before ++ statement st :: after ∧
      front = before.flatMap (scanned mappings) ∧ back = after.flatMap (scanned mappings) ∧
      st.claim? mappings = some (position, m, name) ∧ st.blanks = blanks := by
  induction segments generalizing front with
  | nil => simp at h
  | cons segment segments ih =>
    rw [List.flatMap_cons] at h
    -- the segment is either kept in its whole length or claimed as one piece
    have kept (s : List Char) (same : segment.scanned mappings = s.map .kept) :
        ∃ before st after, segment :: segments = before ++ statement st :: after ∧
          front = before.flatMap (scanned mappings) ∧ back = after.flatMap (scanned mappings) ∧
          st.claim? mappings = some (position, m, name) ∧ st.blanks = blanks := by
      rw [same] at h
      obtain ⟨front', rfl, later⟩ := exists_append_of_notMem (by simp) h.symm
      obtain ⟨before, st, after, rfl, rfl, rfl, claimed⟩ := ih later.symm
      exact ⟨segment :: before, st, after, rfl, by rw [List.flatMap_cons, same], rfl, claimed⟩
    cases segment with
    | char c => exact kept [c] rfl
    | statement st =>
      cases claimed : st.claim? mappings with
      | none => exact kept st.text (by simp only [scanned, claimed])
      | some r =>
        have one : (statement st).scanned mappings =
            [.claimed r.1 r.2.1 st.blanks r.2.2] := by
          simp only [scanned, claimed]
        rw [one, List.singleton_append] at h
        cases front with
        | nil =>
          obtain ⟨same, rfl⟩ := List.cons.inj h
          cases same
          exact ⟨[], st, segments, rfl, rfl, rfl, claimed, rfl⟩
        | cons piece front =>
          obtain ⟨rfl, later⟩ := List.cons.inj h
          obtain ⟨before, st', after, rfl, rfl, rfl, claimed'⟩ := ih later
          exact ⟨statement st :: before, st', after, rfl, by rw [List.flatMap_cons, one]; rfl, rfl,
            claimed'⟩

theorem getLast?_text_statement (st : Statement) : (statement st).text.getLast? = some ';' := by
  simp [text, Statement.text]

theorem getLast?_text_or (segment : Segment) (s : List Char) (previous : Option Char) :
    (segment.text ++ s).getLast?.or previous = s.getLast?.or segment.text.getLast? := by
  rw [List.getLast?_append, Option.or_assoc]
  cases segment with
  | char c => rfl
  | statement st => simp [text, Statement.text]

namespace Canonical

theorem isBoundary_of_append {before after : List Segment}
    (h : Canonical previous (before ++ .statement st :: after)) :
    isBoundary ((textOf before).getLast?.or previous) = true := by
  induction before generalizing previous with
  | nil =>
    cases h with
    | statement boundary _ => exact boundary
  | cons segment before ih =>
    rw [List.cons_append] at h
    cases h with
    | char _ rest =>
      rw [textOf, List.flatMap_cons, getLast?_text_or]
      exact ih rest
    | statement _ rest =>
      rw [textOf, List.flatMap_cons, getLast?_text_or, getLast?_text_statement]
      exact ih rest

/-- Whatever statement stands at a word boundary of a text is a segment of it. -/
theorem exists_statement (h : Canonical previous segments) {before rest : List Char}
    (split : textOf segments = before ++ rest)
    (boundary : isBoundary (before.getLast?.or previous) = true) (starts : StartsStatement rest) :
    ∃ front st back, segments = front ++ .statement st :: back ∧ textOf front = before := by
  induction h generalizing before with
  | nil =>
    obtain ⟨first, after, rfl⟩ := starts
    simp [Statement.text_ne_nil] at split
  | @char previous c segments outside _ ih =>
    cases before with
    | nil =>
      rw [textOf_char, List.nil_append] at split
      rw [← split] at starts
      exact absurd starts (outside (by simpa using boundary))
    | cons d before =>
      rw [textOf_char] at split
      obtain ⟨rfl, tails⟩ := List.cons.inj split
      rw [← List.singleton_append, ← text.eq_1, getLast?_text_or] at boundary
      obtain ⟨front, st, back, rfl, rfl⟩ := ih tails boundary
      exact ⟨.char c :: front, st, back, rfl, rfl⟩
  | @statement previous st segments here _ ih =>
    by_cases first : before = []
    · exact ⟨[], st, segments, rfl, first.symm⟩
    · obtain ⟨later, after, rfl⟩ := starts
      obtain ⟨v, rfl⟩ := Statement.text_append_of_later first split.symm
      rw [textOf_statement, List.append_assoc] at split
      rw [← text.eq_2, getLast?_text_or, getLast?_text_statement] at boundary
      obtain ⟨front, st', back, rfl, rfl⟩ := ih (List.append_cancel_left split) boundary
      exact ⟨.statement st :: front, st', back, rfl, rfl⟩

end Canonical

end Segment

/-- A scan claims the imports at word boundaries, and nothing else. -/
theorem isScan_scan
    (packages : ∀ m ∈ mappings, IsPackage m.source.toList ∧ IsPackage m.target.toList)
    (s : List Char) : IsScan mappings s (scan mappings none s) := by
  obtain ⟨segments, rfl, canonical⟩ := exists_canonical none s
  rw [canonical.scan_textOf packages]
  refine ⟨flatMap_original segments, ?_, ?_⟩
  · intro front position m blanks name back split
    obtain ⟨before, st, after, rfl, rfl, rfl, claimed, rfl⟩ := exists_statement_of_claimed split
    obtain ⟨earlier, later, table, place, below, unfound⟩ := firstFinding?_eq_some.1 claimed
    obtain ⟨-, nonempty, plain⟩ := Statement.below?_eq_some.1 below
    rw [Nat.zero_add] at place
    have boundary := canonical.isBoundary_of_append
    rw [Option.or_none] at boundary
    have here : (Piece.claimed position m st.blanks name ::
        after.flatMap (scanned mappings)).flatMap Piece.original = st.text ++ textOf after := by
      have one : (statement st).scanned mappings = [.claimed position m st.blanks name] := by
        simp only [scanned, claimed]
      rw [← List.singleton_append, ← one, ← List.flatMap_cons, flatMap_original, textOf_statement]
    refine ⟨?_, ⟨st.spaced, st.blank, nonempty, plain⟩, ?_, ?_⟩
    · rwa [flatMap_original]
    · rw [place, table]
      simp
    · intro m' mem
      have mem : m' ∈ earlier := by simpa [place, table] using mem
      rw [here, beginsImport_text (packages m' (by simp [table, mem])).1]
      simpa using unfound m' mem
  · intro before rest split boundary m mem found
    have package := (packages m mem).1
    obtain ⟨first, name, after, starts, below⟩ := (beginsImport_iff package).1 found
    obtain ⟨front, st, back, rfl, rfl⟩ := canonical.exists_statement split
      (by rwa [Option.or_none]) ⟨first, after, starts⟩
    have rest_eq : rest = st.text ++ textOf back := by
      rw [textOf, List.flatMap_append] at split
      exact (List.append_cancel_left split).symm
    rw [rest_eq, beginsImport_text package] at found
    cases claimed : st.claim? mappings with
    | none => exact absurd (firstFinding?_eq_none.1 claimed m mem) found
    | some r =>
      refine ⟨front.flatMap (scanned mappings), r.1, r.2.1, st.blanks, r.2.2,
        back.flatMap (scanned mappings), ?_, flatMap_original front⟩
      rw [List.flatMap_append, List.flatMap_cons]
      simp only [scanned, claimed, List.singleton_append]

end Occurrences

end JavaMigration.Imports
