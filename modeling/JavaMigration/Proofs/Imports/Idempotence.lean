import JavaMigration.Proofs.Imports.Segment

/-!
# Settled imports

Where the targets of a table are apart from its sources, a statement that has moved once is not
moved again. Rewriting a text leaves settled statements only, so a second time it finds none.
-/

namespace JavaMigration.Imports

open Segment

def isPackageName (s : String) : Bool :=
  !s.isEmpty && s.toList.all isPackageChar

theorem isPackage_of_isPackageName {s : String} (h : isPackageName s = true) :
    IsPackage s.toList := by
  simp only [isPackageName, Bool.and_eq_true, Bool.not_eq_true', List.all_eq_true] at h
  exact ⟨by simpa using h.1, h.2⟩

theorem isPackageName_append {s s' : String} (h : isPackageName s = true)
    (h' : isPackageName s' = true) : isPackageName (s ++ s') = true := by
  have package := isPackage_of_isPackageName h
  have package' := isPackage_of_isPackageName h'
  simp only [isPackageName, Bool.and_eq_true, Bool.not_eq_true', List.all_eq_true,
    String.toList_append]
  constructor
  · have nonempty : s ++ s' ≠ "" := by
      rw [Ne, ← String.toList_eq_nil_iff, String.toList_append]
      exact List.append_ne_nil_of_left_ne_nil package.nonempty _
    simpa using nonempty
  · intro c mem
    rcases List.mem_append.1 mem with mem | mem
    · exact package.plain c mem
    · exact package'.plain c mem

def overlaps (a b : String) : Bool :=
  (a ++ ".").toList.isPrefixOf (b ++ ".").toList || (b ++ ".").toList.isPrefixOf (a ++ ".").toList

/-- The tables of package names none of whose targets overlaps a source. -/
def isSeparated (mappings : List Mapping) : Bool :=
  (mappings.all fun m => isPackageName m.source && isPackageName m.target) &&
    mappings.all fun m => mappings.all fun m' => !overlaps m.target m'.source

theorem isPackage_of_isSeparated {mappings : List Mapping} (h : isSeparated mappings = true) :
    ∀ m ∈ mappings, IsPackage m.source.toList ∧ IsPackage m.target.toList := by
  intro m mem
  simp only [isSeparated, Bool.and_eq_true, List.all_eq_true] at h
  obtain ⟨source, target⟩ := h.1 m mem
  exact ⟨isPackage_of_isPackageName source, isPackage_of_isPackageName target⟩

theorem overlaps_jakarta (s s' : String) : overlaps ("jakarta." ++ s) ("javax." ++ s') = false := by
  simp [overlaps, List.isPrefixOf]

theorem isSeparated_builtIn : isSeparated Mapping.builtIn = true := by
  have names : jakartaPackages.all isPackageName = true := by decide +kernel
  simp only [isSeparated, Mapping.builtIn, List.all_map, Bool.and_eq_true, List.all_eq_true,
    Function.comp]
  constructor
  · intro package mem
    have name := List.all_eq_true.1 names package mem
    exact ⟨isPackageName_append (by decide) name, isPackageName_append (by decide) name⟩
  · intro package _ package' _
    rw [overlaps_jakarta]
    rfl

theorem overlaps_of_isSeparated {mappings : List Mapping} (h : isSeparated mappings = true)
    {m m' : Mapping} (mem : m ∈ mappings) (mem' : m' ∈ mappings) :
    overlaps m.target m'.source = false := by
  simp only [isSeparated, Bool.and_eq_true, List.all_eq_true, Bool.not_eq_true'] at h
  exact h.2 m mem m' mem'

/--
The tables of package names where no target overlaps the source of its own mapping or of one before
it. What a mapping moves may be moved on by a later one.
-/
structure IsOrdered (mappings : List Mapping) : Prop where
  names : ∀ m ∈ mappings, isPackageName m.source = true ∧ isPackageName m.target = true
  apart : ∀ m ∈ mappings, overlaps m.target m.source = false
  earlier : mappings.Pairwise fun m later => overlaps later.target m.source = false

theorem isOrdered_iff (mappings : List Mapping) : IsOrdered mappings ↔
    (∀ m ∈ mappings, isPackageName m.source = true ∧ isPackageName m.target = true) ∧
      (∀ m ∈ mappings, overlaps m.target m.source = false) ∧
      mappings.Pairwise fun m later => overlaps later.target m.source = false := by
  constructor
  · exact fun h => ⟨h.names, h.apart, h.earlier⟩
  · exact fun h => ⟨h.1, h.2.1, h.2.2⟩

instance : DecidablePred IsOrdered :=
  fun mappings => decidable_of_iff _ (isOrdered_iff mappings).symm

theorem isOrdered_of_isSeparated {mappings : List Mapping} (h : isSeparated mappings = true) :
    IsOrdered mappings where
  names := by
    intro m mem
    simp only [isSeparated, Bool.and_eq_true, List.all_eq_true] at h
    exact h.1 m mem
  apart := fun m mem => overlaps_of_isSeparated h mem mem
  earlier := List.pairwise_of_forall_mem_list fun m mem m' mem' =>
    overlaps_of_isSeparated h mem' mem

/-- A name below the target of a mapping is not below a source that is apart from it. -/
theorem Statement.below?_of_name {m m' : Mapping} (apart : overlaps m.target m'.source = false)
    {st : Statement} {name : List Char} (named : st.name = m.target.toList ++ '.' :: name) :
    st.below? m'.source.toList = none := by
  cases found : st.below? m'.source.toList with
  | none => rfl
  | some name' =>
    have written : (m.target ++ ".").toList ++ name = (m'.source ++ ".").toList ++ name' := by
      have both := named.symm.trans (below?_eq_some.1 found).1
      simpa using both
    simp only [overlaps, Bool.or_eq_false_iff] at apart
    rcases List.prefix_or_prefix_of_prefix (List.prefix_append _ name)
      (written ▸ List.prefix_append _ name') with within | within
    · rw [List.isPrefixOf_iff_prefix.2 within] at apart
      cases apart.1
    · rw [List.isPrefixOf_iff_prefix.2 within] at apart
      cases apart.2

/--
No mapping moves a statement that all of them have been applied to. Of the table, `rest` is still
to be applied, and the mappings before it do not move the statement.
-/
theorem Statement.below?_settle (done rest : List Mapping) (ordered : IsOrdered (done ++ rest))
    (st : Statement) (settled : ∀ m ∈ done, st.below? m.source.toList = none) :
    ∀ m ∈ done ++ rest, (st.settle rest).below? m.source.toList = none := by
  induction rest generalizing done st with
  | nil => rwa [List.append_nil]
  | cons first rest ih =>
    have table : done ++ [first] ++ rest = done ++ first :: rest := by simp
    have next := ih (done ++ [first]) (by rwa [table])
      (st.relocate first.source.toList first.target.toList)
    rw [table] at next
    refine next fun m mem => ?_
    cases moved : st.below? first.source.toList with
    | none =>
      rw [relocate_of_none _ moved]
      rcases List.mem_append.1 mem with mem | mem
      · exact settled m mem
      · obtain rfl := List.mem_singleton.1 mem
        exact moved
    | some name =>
      have package := isPackage_of_isPackageName (ordered.names first (by simp)).2
      refine below?_of_name ?_ (relocate_of_some package moved).2
      rcases List.mem_append.1 mem with mem | mem
      · exact (List.pairwise_append.1 ordered.earlier).2.2 m mem first (by simp)
      · obtain rfl := List.mem_singleton.1 mem
        exact ordered.apart m (by simp)

/-- Applying the mappings of a table to what they leave changes nothing and finds nothing. -/
theorem applyMappings_applyMappings {mappings : List Mapping} (ordered : IsOrdered mappings)
    (s : List Char) :
    applyMappings (applyMappings s mappings).1 mappings = ((applyMappings s mappings).1, []) := by
  obtain ⟨segments, rfl, canonical⟩ := exists_canonical none s
  have packages : ∀ m ∈ mappings, IsPackage m.source.toList ∧ IsPackage m.target.toList :=
    fun m mem => (ordered.names m mem).imp isPackage_of_isPackageName isPackage_of_isPackageName
  rw [canonical.applyMappings_textOf packages]
  refine (canonical.map _).applyMappings_of_settled packages ?_
  intro m mem
  rw [List.countP_eq_zero]
  intro segment written
  obtain ⟨original, -, rfl⟩ := List.mem_map.1 written
  cases original with
  | char c => simp [mapStatement, isMoved]
  | statement st =>
    have settled := st.below?_settle [] mappings ordered (by simp) m mem
    simp [mapStatement, isMoved, settled]

theorem rewrite_of_isOrdered {mappings : List Mapping} (ordered : IsOrdered mappings)
    (content : String) :
    rewrite mappings (rewrite mappings content).content =
      ⟨(rewrite mappings content).content, [], false⟩ := by
  have settled := applyMappings_applyMappings ordered content.toList
  simp only [rewrite, String.toList_ofList, settled, ne_eq, not_true_eq_false, decide_false]

theorem rewrite_content {mappings : List Mapping} (h : isSeparated mappings = true)
    (content : String) :
    rewrite mappings (rewrite mappings content).content =
      ⟨(rewrite mappings content).content, [], false⟩ :=
  rewrite_of_isOrdered (isOrdered_of_isSeparated h) content

end JavaMigration.Imports
