import JavaMigration.Proofs.Imports.FirstMatch
import Mathlib.Data.List.Nodup

/-!
# The order of a table

Where nested sources move to targets that are nested in the same way, it does not matter which of
the mappings that find a statement moves it: all of them move it to the same place. So the order of
the table decides no more than which of these mappings counts the statement.
-/

namespace JavaMigration.Imports

open Segment

/--
The tables in which no source stands twice, and in which the target of a nested source is nested in
the target of the outer one by the same names.
-/
structure IsConsistent (mappings : List Mapping) : Prop where
  distinct : (mappings.map (·.source)).Nodup
  nested : ∀ m ∈ mappings, ∀ m' ∈ mappings, ∀ s, m'.source = m.source ++ "." ++ s →
    m'.target = m.target ++ "." ++ s

theorem isConsistent_builtIn : IsConsistent Mapping.builtIn where
  distinct := by decide +kernel
  nested := by
    simp only [Mapping.builtIn, List.mem_map, forall_exists_index, and_imp]
    rintro _ package - rfl _ package' - rfl s written
    have same : package' = package ++ "." ++ s := by
      rw [← String.toList_inj] at written ⊢
      simpa using written
    rw [same]
    simp only [String.append_assoc]

variable {mappings mappings' rest : List Mapping} {m m' : Mapping} {st : Statement}
  {name name' : List Char}

theorem overlaps_of_below? (found : st.below? m.source.toList = some name)
    (found' : st.below? m'.source.toList = some name') : overlaps m.source m'.source = true := by
  have written : (m.source ++ ".").toList ++ name = (m'.source ++ ".").toList ++ name' := by
    have both := (Statement.below?_eq_some.1 found).1.symm.trans
      (Statement.below?_eq_some.1 found').1
    simpa using both
  rw [overlaps, Bool.or_eq_true, List.isPrefixOf_iff_prefix, List.isPrefixOf_iff_prefix]
  exact List.prefix_or_prefix_of_prefix (List.prefix_append _ name)
    (written ▸ List.prefix_append _ name')

namespace IsConsistent

/-- A mapping whose source is at least as long moves a name to where the other one moves it. -/
theorem target_of_longer (h : IsConsistent mappings) (mem : m ∈ mappings) (mem' : m' ∈ mappings)
    {v : List Char} (longer : m'.source.toList ++ ['.'] = m.source.toList ++ ['.'] ++ v)
    (rest : name = v ++ name') :
    m'.target.toList ++ '.' :: name' = m.target.toList ++ '.' :: name := by
  obtain rfl | ⟨inner, last, rfl⟩ := List.eq_nil_or_concat' v
  · have same : m'.source = m.source := by
      rw [← String.toList_inj]
      simpa using longer
    obtain rfl : m' = m := List.inj_on_of_nodup_map h.distinct mem' mem same
    rw [rest, List.nil_append]
  · rw [← List.append_assoc] at longer
    obtain ⟨source, final⟩ := List.append_singleton_inj.1 longer
    have nested : m'.source = m.source ++ "." ++ String.ofList inner := by
      rw [← String.toList_inj]
      simpa using source
    rw [h.nested m mem m' mem' _ nested, rest, ← final]
    simp

theorem target_of_found (h : IsConsistent mappings) (mem : m ∈ mappings) (mem' : m' ∈ mappings)
    (written : m.source.toList ++ '.' :: name = m'.source.toList ++ '.' :: name') :
    m.target.toList ++ '.' :: name = m'.target.toList ++ '.' :: name' := by
  have dotted : (m.source.toList ++ ['.']) ++ name = (m'.source.toList ++ ['.']) ++ name' := by
    simpa using written
  rcases List.append_eq_append_iff.1 dotted with ⟨v, longer, rest⟩ | ⟨v, longer, rest⟩
  · exact (h.target_of_longer mem mem' longer rest).symm
  · exact h.target_of_longer mem' mem longer rest

/-- All mappings of the table that find a statement move it to the same place. -/
theorem relocate_eq (h : IsConsistent mappings) (separated : isSeparated mappings = true)
    (mem : m ∈ mappings) (mem' : m' ∈ mappings) (found : st.below? m.source.toList = some name)
    (found' : st.below? m'.source.toList = some name') :
    st.relocate m.source.toList m.target.toList =
      st.relocate m'.source.toList m'.target.toList := by
  have written := (Statement.below?_eq_some.1 found).1.symm.trans
    (Statement.below?_eq_some.1 found').1
  obtain ⟨blanks, named⟩ :=
    Statement.relocate_of_some (isPackage_of_isSeparated separated m mem).2 found
  obtain ⟨blanks', named'⟩ :=
    Statement.relocate_of_some (isPackage_of_isSeparated separated m' mem').2 found'
  rw [Statement.mk.injEq]
  exact ⟨blanks.trans blanks'.symm,
    (named.trans (h.target_of_found mem mem' written)).trans named'.symm⟩

/-- What becomes of a statement depends on which mappings there are, not on their order. -/
theorem settle_eq (h : IsConsistent mappings) (separated : isSeparated mappings = true)
    (same : ∀ m, m ∈ mappings' ↔ m ∈ mappings) (st : Statement) :
    st.settle mappings' = st.settle mappings := by
  cases claimed : st.claim? mappings with
  | none =>
    have unfound := firstFinding?_eq_none.1 claimed
    rw [Statement.settle_of_none unfound,
      Statement.settle_of_none fun m mem => unfound m ((same m).1 mem)]
  | some r =>
    obtain ⟨position, m, name⟩ := r
    obtain ⟨front, back, table, -, found, -⟩ := firstFinding?_eq_some.1 claimed
    have mem : m ∈ mappings := by simp [table]
    cases claimed' : st.claim? mappings' with
    | none =>
      rw [firstFinding?_eq_none.1 claimed' m ((same m).2 mem)] at found
      cases found
    | some r' =>
      obtain ⟨position', m', name'⟩ := r'
      obtain ⟨front', back', table', -, found', -⟩ := firstFinding?_eq_some.1 claimed'
      have mem' : m' ∈ mappings := (same m').1 (by simp [table'])
      rw [(Statement.settle_of_claim separated (fun _ mem => mem) claimed).1,
        (Statement.settle_of_claim separated (fun m mem => (same m).1 mem) claimed').1]
      exact h.relocate_eq separated mem' mem found' found

end IsConsistent

def Tally.totalOf (group : String → Bool) (t : Tally) : Nat :=
  Tally.total (t.filter fun entry => group entry.1)

theorem Tally.totalOf_cons (group : String → Bool) (entry : String × Nat) (t : Tally) :
    totalOf group (entry :: t) = (if group entry.1 then entry.2 else 0) + t.totalOf group := by
  unfold totalOf
  rw [List.filter_cons]
  split
  · rfl
  · rw [Nat.zero_add]

theorem Tally.totalOf_true (t : Tally) : t.totalOf (fun _ => true) = t.total := by
  rw [totalOf, List.filter_eq_self.2 fun _ _ => rfl]

/-- The group holds with a source of the table all that overlap it. -/
def IsClosed (mappings : List Mapping) (group : String → Bool) : Prop :=
  ∀ m ∈ mappings, ∀ m' ∈ mappings, overlaps m.source m'.source = true →
    group m.source = group m'.source

namespace Segment

def isFoundBy (group : String → Bool) (mappings : List Mapping) : Segment → Bool
  | char _ => false
  | statement st => mappings.any fun m => group m.source && (st.below? m.source.toList).isSome

variable {group : String → Bool} {segments : List Segment}

/--
The first mapping of a table takes what it finds from the later ones. It may take it from a mapping
that it overlaps only, and that is in the group if the first one is.
-/
theorem toNat_isFoundBy_cons (separated : isSeparated mappings = true)
    (closed : IsClosed mappings group) (within : ∀ m' ∈ m :: rest, m' ∈ mappings)
    (segment : Segment) :
    (segment.isFoundBy group (m :: rest)).toNat =
      (if group m.source then (segment.isMoved m.source.toList).toNat else 0) +
        ((segment.mapStatement (·.relocate m.source.toList m.target.toList)).isFoundBy
          group rest).toNat := by
  have mem : m ∈ mappings := within m (by simp)
  cases segment with
  | char c => simp [isFoundBy, isMoved, mapStatement]
  | statement st =>
    cases found : st.below? m.source.toList with
    | none =>
      simp [isFoundBy, isMoved, mapStatement, found, Statement.relocate_of_none]
    | some name =>
      have later : rest.any (fun m' => group m'.source &&
          ((st.relocate m.source.toList m.target.toList).below? m'.source.toList).isSome) =
            false := by
        rw [List.any_eq_false]
        intro m' mem'
        have renamed := (Statement.relocate_of_some
          (isPackage_of_isSeparated separated m mem).2 found).2
        have apart := overlaps_of_isSeparated separated mem (within m' (by simp [mem']))
        simp [Statement.below?_of_name apart renamed]
      have grouped : rest.any (fun m' => group m'.source && (st.below? m'.source.toList).isSome) =
          true → group m.source = true := by
        rw [List.any_eq_true]
        rintro ⟨m', mem', both⟩
        rw [Bool.and_eq_true, Option.isSome_iff_exists] at both
        obtain ⟨inGroup, name', found'⟩ := both
        rw [closed m mem m' (within m' (by simp [mem'])) (overlaps_of_below? found found'), inGroup]
      simp only [isFoundBy, mapStatement, isMoved, found, later, List.any_cons]
      cases here : group m.source with
      | true => rfl
      | false =>
        have none := mt grouped (by simp [here])
        rw [Bool.not_eq_true] at none
        rw [none]
        rfl

theorem countP_isFoundBy_cons (separated : isSeparated mappings = true)
    (closed : IsClosed mappings group) (within : ∀ m' ∈ m :: rest, m' ∈ mappings)
    (segments : List Segment) :
    segments.countP (isFoundBy group (m :: rest)) =
      (if group m.source then segments.countP (isMoved m.source.toList) else 0) +
        (segments.map (mapStatement (·.relocate m.source.toList m.target.toList))).countP
          (isFoundBy group rest) := by
  induction segments with
  | nil => simp
  | cons segment segments ih =>
    have first := toNat_isFoundBy_cons separated closed within segment
    have number : ∀ b : Bool, b.toNat = if b then 1 else 0 := by
      intro b
      cases b <;> rfl
    simp only [number] at first
    simp only [List.countP_cons, List.map_cons, ih, first]
    split
    · omega
    · omega

/-- The mappings from a closed group of sources count what any of them finds in the text. -/
theorem Canonical.totalOf_tally (separated : isSeparated mappings = true)
    (closed : IsClosed mappings group) (within : ∀ m ∈ rest, m ∈ mappings)
    (canonical : Canonical none segments) :
    (applyMappings (textOf segments) rest).2.totalOf group =
      segments.countP (isFoundBy group rest) := by
  induction rest generalizing segments with
  | nil =>
    have unfound : segments.countP (isFoundBy group []) = 0 := by
      rw [List.countP_eq_zero]
      intro segment _
      cases segment with
      | char c => simp [isFoundBy]
      | statement st => simp [isFoundBy]
    rw [unfound]
    rfl
  | cons m rest ih =>
    obtain ⟨package, package'⟩ := isPackage_of_isSeparated separated m (within m (by simp))
    have later := ih (fun m' mem => within m' (by simp [mem]))
      (canonical.map (·.relocate m.source.toList m.target.toList))
    rw [countP_isFoundBy_cons separated closed within, ← later, applyMappings,
      canonical.move_textOf package package']
    by_cases none : segments.countP (isMoved m.source.toList) = 0
    · simp only [none, ↓reduceIte, map_relocate_of_none none, ite_self, Nat.zero_add]
    · simp only [none, ↓reduceIte, Tally.totalOf_cons]

end Segment

theorem applyMappings_of_same_members (separated : isSeparated mappings = true)
    (consistent : IsConsistent mappings) (same : ∀ m, m ∈ mappings' ↔ m ∈ mappings)
    (s : List Char) :
    (applyMappings s mappings').1 = (applyMappings s mappings).1 ∧
      ∀ group, IsClosed mappings group →
        (applyMappings s mappings').2.totalOf group =
          (applyMappings s mappings).2.totalOf group := by
  obtain ⟨segments, rfl, canonical⟩ := exists_canonical none s
  have packages := isPackage_of_isSeparated separated
  constructor
  · rw [canonical.applyMappings_textOf packages,
      canonical.applyMappings_textOf fun m mem => packages m ((same m).1 mem)]
    have settled : (fun st : Statement => st.settle mappings') = (·.settle mappings) :=
      funext (consistent.settle_eq separated same)
    rw [settled]
  · intro group closed
    rw [canonical.totalOf_tally separated closed (fun m mem => mem),
      canonical.totalOf_tally separated closed fun m mem => (same m).1 mem]
    have found : isFoundBy group mappings' = isFoundBy group mappings := by
      funext segment
      cases segment with
      | char c => rfl
      | statement st =>
        rw [Bool.eq_iff_iff]
        simp only [isFoundBy, List.any_eq_true, same]
    rw [found]

/--
The order of a consistent table, as the built-in one, does not change what a text is rewritten to,
whether it counts as modified and how many imports move. It decides only how the counts are split
among mappings with overlapping sources: any group of sources that no other one overlaps has the
same count.
-/
theorem rewrite_of_perm :
    (isSeparated Mapping.builtIn = true ∧ IsConsistent Mapping.builtIn) ∧
    ∀ mappings mappings' : List Mapping, isSeparated mappings = true → IsConsistent mappings →
      mappings'.Perm mappings → ∀ content,
        (rewrite mappings' content).content = (rewrite mappings content).content ∧
        (rewrite mappings' content).modified = (rewrite mappings content).modified ∧
        (rewrite mappings' content).tally.total = (rewrite mappings content).tally.total ∧
        ∀ group, IsClosed mappings group →
          (rewrite mappings' content).tally.totalOf group =
            (rewrite mappings content).tally.totalOf group := by
  refine ⟨⟨isSeparated_builtIn, isConsistent_builtIn⟩, ?_⟩
  intro mappings mappings' separated consistent perm content
  obtain ⟨texts, counts⟩ := applyMappings_of_same_members separated consistent
    (fun m => perm.mem_iff) content.toList
  refine ⟨?_, ?_, ?_, counts⟩
  · simp only [rewrite, texts]
  · simp only [rewrite, texts]
  · have whole := counts (fun _ => true) fun _ _ _ _ _ => rfl
    rwa [Tally.totalOf_true, Tally.totalOf_true] at whole

/-- Of two nested sources the outer one counts everything if it comes first, and else its share. -/
theorem rewrite_of_perm_nested :
    let mappings : List Mapping :=
      [⟨"javax.json", "jakarta.json"⟩, ⟨"javax.mail", "jakarta.mail"⟩,
       ⟨"javax.json.bind", "jakarta.json.bind"⟩]
    let content := "import javax.json.bind.Jsonb; import javax.json.Json; import javax.mail.*;"
    isSeparated mappings = true ∧ IsConsistent mappings ∧ mappings.reverse.Perm mappings ∧
      (rewrite mappings content).tally = [("javax.json", 2), ("javax.mail", 1)] ∧
      (rewrite mappings.reverse content).tally =
        [("javax.json.bind", 1), ("javax.mail", 1), ("javax.json", 1)] ∧
      (rewrite mappings.reverse content).content = (rewrite mappings content).content ∧
      (rewrite mappings.reverse content).tally.total = (rewrite mappings content).tally.total := by
  intro mappings content
  have separated : isSeparated mappings = true := by decide +kernel
  have consistent : IsConsistent mappings := by
    have part := isConsistent_builtIn.nested
    have within : ∀ m ∈ mappings, m ∈ Mapping.builtIn := by decide +kernel
    exact ⟨by decide +kernel, fun m mem m' mem' => part m (within m mem) m' (within m' mem')⟩
  obtain ⟨same, -, total, -⟩ := rewrite_of_perm.2 mappings mappings.reverse separated consistent
    mappings.reverse_perm content
  exact ⟨separated, consistent, mappings.reverse_perm, by decide +kernel, by decide +kernel, same,
    total⟩

end JavaMigration.Imports
