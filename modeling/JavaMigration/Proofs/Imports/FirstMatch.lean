import JavaMigration.Proofs.Imports.Idempotence
import JavaMigration.Proofs.Imports.Occurrence

/-!
# Passes and scans

The mappings of a table go over a text one after another. Where the table is separated they come to
a single scan: a statement that a mapping has moved is invisible to the later ones, so the mapping
that moves it is the first of the table that finds it in the original text.
-/

namespace JavaMigration.Imports

open Segment

def claimsOf (pieces : List Piece) (m : Mapping) (position : Nat) : Option (String × Nat) :=
  if pieces.countP (Piece.isClaimedBy position) = 0 then none
  else some (m.source, pieces.countP (Piece.isClaimedBy position))

/-- How many imports each mapping claims that claims any, in the order of the table. -/
def claims (mappings : List Mapping) (pieces : List Piece) : Tally :=
  mappings.zipIdx.filterMap fun (m, position) => claimsOf pieces m position

/-- What a scan makes of a text: the claimed imports move, and the text is modified if any does. -/
def Rewriting.ofScan (mappings : List Mapping) (pieces : List Piece) : Rewriting where
  content := String.ofList (pieces.flatMap Piece.moved)
  tally := claims mappings pieces
  modified := decide (0 < (claims mappings pieces).total)

namespace Statement

variable {mappings done rest : List Mapping} {m : Mapping} {st : Statement}

theorem settle_append (done rest : List Mapping) (st : Statement) :
    st.settle (done ++ rest) = (st.settle done).settle rest :=
  List.foldl_append

theorem settle_of_none (h : ∀ m ∈ rest, st.below? m.source.toList = none) :
    st.settle rest = st := by
  induction rest with
  | nil => rfl
  | cons m rest ih =>
    rw [settle, List.foldl_cons, relocate_of_none _ (h m (by simp))]
    exact ih fun m mem => h m (by simp [mem])

/-- Of all mappings, only the first one that finds a statement moves it. -/
theorem settle_of_claim (h : isSeparated mappings = true) (within : ∀ m ∈ rest, m ∈ mappings)
    {position : Nat} {name : List Char} (claimed : st.claim? rest = some (position, m, name)) :
    st.settle rest = st.relocate m.source.toList m.target.toList ∧
      ∀ m' ∈ mappings, (st.settle rest).below? m'.source.toList = none := by
  obtain ⟨front, back, rfl, -, below, unfound⟩ := firstFinding?_eq_some.1 claimed
  have mem : m ∈ mappings := within m (by simp)
  have gone : ∀ m' ∈ mappings,
      (st.relocate m.source.toList m.target.toList).below? m'.source.toList = none := by
    intro m' mem'
    have renamed := (relocate_of_some (isPackage_of_isSeparated h m mem).2 below).2
    exact below?_of_name (overlaps_of_isSeparated h mem mem') renamed
  have settled : st.settle (front ++ m :: back) =
      st.relocate m.source.toList m.target.toList := by
    rw [settle_append, settle_of_none unfound]
    exact settle_of_none fun m' mem' => gone m' (within m' (by simp [mem']))
  rw [settled]
  exact ⟨rfl, gone⟩

theorem below?_settle_ne_none (h : isSeparated (done ++ m :: rest) = true) (st : Statement) :
    (st.settle done).below? m.source.toList ≠ none ↔
      ∃ name, st.claim? (done ++ m :: rest) = some (done.length, m, name) := by
  constructor
  · intro found
    cases earlier : st.claim? done with
    | some r =>
      have gone := (settle_of_claim h (fun _ mem => by simp [mem]) earlier).2
      exact absurd (gone m (by simp)) found
    | none =>
      have unfound := firstFinding?_eq_none.1 earlier
      rw [settle_of_none unfound] at found
      obtain ⟨name, below⟩ := Option.ne_none_iff_exists'.1 found
      refine ⟨name, firstFinding?_eq_some.2 ⟨done, rest, rfl, ?_, below, unfound⟩⟩
      rw [Nat.zero_add]
  · rintro ⟨name, claimed⟩
    obtain ⟨front, back, table, place, below, unfound⟩ := firstFinding?_eq_some.1 claimed
    rw [Nat.zero_add] at place
    obtain ⟨rfl, -⟩ := List.append_inj table place
    rw [settle_of_none unfound, below]
    simp

end Statement

namespace Segment

variable {mappings done rest : List Mapping} {m : Mapping} {segments : List Segment}

theorem flatMap_moved_kept (s : List Char) : (s.map .kept).flatMap Piece.moved = s := by
  induction s with
  | nil => rfl
  | cons c s ih => rw [List.map_cons, List.flatMap_cons, ih]; rfl

theorem flatMap_moved_scanned (h : isSeparated mappings = true) (segment : Segment) :
    (segment.scanned mappings).flatMap Piece.moved =
      (segment.mapStatement (·.settle mappings)).text := by
  cases segment with
  | char c => rfl
  | statement st =>
    cases claimed : st.claim? mappings with
    | none =>
      have unmoved := Statement.settle_of_none (firstFinding?_eq_none.1 claimed)
      simp only [scanned, claimed, mapStatement, unmoved]
      exact flatMap_moved_kept st.text
    | some r =>
      obtain ⟨position, m, name⟩ := r
      obtain ⟨front, back, table, -, below, -⟩ := firstFinding?_eq_some.1 claimed
      have package := isPackage_of_isSeparated h m (by simp [table])
      have settled := (Statement.settle_of_claim h (fun _ mem => mem) claimed).1
      simp [scanned, claimed, mapStatement, settled, text, Piece.moved,
        Statement.text_relocate package.2 below]

theorem flatMap_moved (h : isSeparated mappings = true) (segments : List Segment) :
    (segments.flatMap (scanned mappings)).flatMap Piece.moved =
      textOf (segments.map (mapStatement (·.settle mappings))) := by
  rw [List.flatMap_assoc, textOf, List.flatMap_map]
  simp only [flatMap_moved_scanned h]

theorem countP_isClaimedBy_kept (i : Nat) (s : List Char) :
    (s.map .kept).countP (Piece.isClaimedBy i) = 0 := by
  simp [List.countP_eq_zero, Piece.isClaimedBy]

/-- A mapping moves as many statements as a scan lets it claim. -/
theorem countP_isMoved (h : isSeparated (done ++ m :: rest) = true) (segments : List Segment) :
    (segments.map (mapStatement (·.settle done))).countP (isMoved m.source.toList) =
      (segments.flatMap (scanned (done ++ m :: rest))).countP (Piece.isClaimedBy done.length) := by
  induction segments with
  | nil => rfl
  | cons segment segments ih =>
    rw [List.map_cons, List.countP_cons, List.flatMap_cons, List.countP_append, ih, Nat.add_comm]
    congr 1
    cases segment with
    | char c => rfl
    | statement st =>
      have found := Statement.below?_settle_ne_none h st
      rw [← Option.isSome_iff_ne_none] at found
      cases claimed : st.claim? (done ++ m :: rest) with
      | none =>
        have unmoved : ¬ ((st.settle done).below? m.source.toList).isSome = true := by
          rw [found, claimed]
          simp
        simp only [scanned, claimed, mapStatement, isMoved, unmoved, countP_isClaimedBy_kept]
        rfl
      | some r =>
        obtain ⟨position, m', name⟩ := r
        rw [claimed] at found
        by_cases here : position = done.length
        · have same : m' = m := by
            obtain ⟨front, back, table, place, -, -⟩ := firstFinding?_eq_some.1 claimed
            rw [Nat.zero_add, here] at place
            obtain ⟨-, tails⟩ := List.append_inj table place
            exact (List.cons.inj tails).1.symm
          have moved : ((st.settle done).below? m.source.toList).isSome = true :=
            found.2 ⟨name, by rw [here, same]⟩
          simp [scanned, claimed, mapStatement, isMoved, moved, Piece.isClaimedBy, here]
        · have unmoved : ¬ ((st.settle done).below? m.source.toList).isSome = true := by
            rw [found]
            simp [here]
          simp [scanned, claimed, mapStatement, isMoved, unmoved, Piece.isClaimedBy, here]

/--
The mappings `rest` of a table count what a scan for the whole table lets them claim, when the
mappings `done` in front of them have been applied before.
-/
theorem Canonical.tally_textOf (h : isSeparated (done ++ rest) = true)
    (canonical : Canonical none segments) :
    (applyMappings (textOf (segments.map (mapStatement (·.settle done)))) rest).2 =
      (rest.zipIdx done.length).filterMap fun (m, position) =>
        claimsOf (segments.flatMap (scanned (done ++ rest))) m position := by
  induction rest generalizing done with
  | nil => rfl
  | cons m rest ih =>
    obtain ⟨package, package'⟩ := isPackage_of_isSeparated h m (by simp)
    have table : done ++ m :: rest = (done ++ [m]) ++ rest := by simp
    have separated : isSeparated ((done ++ [m]) ++ rest) = true := table ▸ h
    have later := ih separated
    rw [← table, List.length_append, List.length_singleton] at later
    have moved : (segments.map (mapStatement (·.settle done))).map
        (mapStatement (·.relocate m.source.toList m.target.toList)) =
          segments.map (mapStatement (·.settle (done ++ [m]))) := by
      rw [map_mapStatement]
      simp only [Statement.settle_append]
      rfl
    have first := claimsOf.eq_1 (segments.flatMap (scanned (done ++ m :: rest))) m done.length
    rw [← countP_isMoved h segments] at first
    rw [applyMappings, (canonical.map _).move_textOf package package', moved, List.zipIdx_cons,
      List.filterMap_cons]
    simp only [first]
    by_cases none : (segments.map (mapStatement (·.settle done))).countP
        (isMoved m.source.toList) = 0
    · have unmoved := moved.symm.trans (map_relocate_of_none none)
      simp only [none, ↓reduceIte]
      rw [← unmoved]
      exact later
    · simp only [none, ↓reduceIte, List.cons.injEq, true_and]
      exact later

end Segment

section Modified

variable {mappings : List Mapping} {s : List Char}

theorem applyMappings_eq_nil_of_total
    (h : (applyMappings s mappings).2.total = 0) : (applyMappings s mappings).2 = [] := by
  induction mappings generalizing s with
  | nil => rfl
  | cons m rest ih =>
    rw [applyMappings] at h ⊢
    by_cases none : (move m.source.toList m.target.toList none s).2 = 0
    · simp only [none, ↓reduceIte] at h ⊢
      exact ih h
    · simp only [none, ↓reduceIte, Tally.total, List.foldr_cons] at h
      omega

theorem applyMappings_of_nil (h : (applyMappings s mappings).2 = []) :
    (applyMappings s mappings).1 = s := by
  induction mappings generalizing s with
  | nil => rfl
  | cons m rest ih =>
    rw [applyMappings] at h ⊢
    by_cases none : (move m.source.toList m.target.toList none s).2 = 0
    · simp only [none, ↓reduceIte] at h ⊢
      exact ih h
    · simp [none] at h

/-- An import that moves changes the text, since a second time it is not found. -/
theorem applyMappings_eq_self_iff (h : isSeparated mappings = true) :
    (applyMappings s mappings).1 = s ↔ (applyMappings s mappings).2.total = 0 := by
  constructor
  · intro same
    have again := applyMappings_applyMappings (isOrdered_of_isSeparated h) s
    rw [same] at again
    rw [again]
    rfl
  · intro none
    exact applyMappings_of_nil (applyMappings_eq_nil_of_total none)

end Modified

/--
Applying the mappings of a table one after another comes to one scan: every import at a word
boundary moves by the first mapping that finds it, all else is kept, and each mapping counts what
it claims.
-/
theorem rewrite_eq_scan (mappings : List Mapping) (separated : isSeparated mappings = true)
    (content : String) :
    IsScan mappings content.toList (scan mappings none content.toList) ∧
      rewrite mappings content = .ofScan mappings (scan mappings none content.toList) := by
  have packages := isPackage_of_isSeparated separated
  refine ⟨isScan_scan packages content.toList, ?_⟩
  obtain ⟨segments, written, canonical⟩ := exists_canonical none content.toList
  have scanned := canonical.scan_textOf packages
  rw [written] at scanned
  have texts : (applyMappings content.toList mappings).1 =
      (scan mappings none content.toList).flatMap Piece.moved := by
    rw [scanned, flatMap_moved separated, ← written, canonical.applyMappings_textOf packages]
  have tallies : (applyMappings content.toList mappings).2 =
      claims mappings (scan mappings none content.toList) := by
    have whole : isSeparated ([] ++ mappings) = true := separated
    have counted := canonical.tally_textOf whole
    rw [map_settle_nil, written] at counted
    rw [scanned]
    exact counted
  have modified : decide (String.ofList (applyMappings content.toList mappings).1 ≠ content) =
      decide (0 < (applyMappings content.toList mappings).2.total) := by
    have unchanged := applyMappings_eq_self_iff (s := content.toList) separated
    rw [decide_eq_decide, Nat.pos_iff_ne_zero, Ne, Ne, ← unchanged, not_iff_not]
    constructor
    · intro same
      exact String.ofList_injective (same.trans String.ofList_toList.symm)
    · intro same
      rw [same, String.ofList_toList]
  rw [tallies] at modified
  simp only [rewrite, Rewriting.ofScan, ← texts, ← tallies, Rewriting.mk.injEq, true_and]
  rw [tallies]
  exact modified

/-- Nested namespaces are claimed by the first mapping, and a target is taken as it is. -/
theorem rewrite_eq_scan_nested :
    let mappings : List Mapping :=
      [⟨"javax.json", "jakarta.json"⟩, ⟨"javax.json.bind", "jakarta.json.bind"⟩, ⟨"a", "b$1"⟩]
    let content := "import javax.json.bind.Jsonb; import\ta.C; ximport a.D;"
    isSeparated mappings = true ∧
      IsScan mappings content.toList (scan mappings none content.toList) ∧
      rewrite mappings content = .ofScan mappings (scan mappings none content.toList) ∧
      rewrite mappings content =
        ⟨"import jakarta.json.bind.Jsonb; import b$1.C; ximport a.D;",
          [("javax.json", 1), ("a", 1)], true⟩ := by
  intro mappings content
  have separated : isSeparated mappings = true := by decide +kernel
  obtain ⟨isScan, same⟩ := rewrite_eq_scan mappings separated content
  exact ⟨separated, isScan, same, by decide +kernel⟩

end JavaMigration.Imports
