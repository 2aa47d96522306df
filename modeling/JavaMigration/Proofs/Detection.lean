import JavaMigration.Detection
import JavaMigration.Proofs.Imports.Use

/-!
# Detection in rewritten texts

The detection takes an import from what it starts with, while a mapping moves whole statements only.
So a rewritten text still counts for a namespace where an import from it was no whole statement, and
for no other reason; which legacy APIs it uses does not change.
-/

namespace JavaMigration.Detection

open Imports

theorem mem_positions {α : Type} {p : α → Bool} {items : List α} {position : Nat} :
    position ∈ positions p items ↔ ∃ a, items[position]? = some a ∧ p a = true := by
  simp [positions, List.mem_zipIdx_iff_getElem?]

theorem positions_congr {α : Type} {p q : α → Bool} {items : List α}
    (same : ∀ a ∈ items, p a = q a) : positions p items = positions q items := by
  unfold positions
  rw [List.filter_congr]
  rintro ⟨a, position⟩ mem
  exact same a (List.fst_mem_of_mem_zipIdx mem)

/-- Whether a text imports from a namespace, at a word boundary, without a whole statement. -/
def LeavesImport (namespaceName : String) (s : List Char) : Prop :=
  ∃ before rest, s = before ++ rest ∧ isBoundary before.getLast? = true ∧
    BeginsUse (namespaceName.toList ++ ['.']) rest ∧ ¬ BeginsImport namespaceName.toList rest

/--
Of the imports from a namespace, a mapping of a namespace within it moves whole statements only, and
so does a mapping of the namespace itself.
-/
theorem beginsImport_of_meets {namespaceName source : String} {rest : List Char}
    (package : IsPackage namespaceName.toList) (package' : IsPackage source.toList)
    (plain : ∀ c ∈ source.toList, isNameChar c = true)
    (within : meets (namespaceName.toList ++ ['.']) source = true →
      namespaceName.toList ++ ['.'] <+: source.toList ++ ['.'])
    (use : BeginsUse (namespaceName.toList ++ ['.']) rest)
    (found : BeginsImport source.toList rest) : BeginsImport namespaceName.toList rest := by
  obtain ⟨st, name, after, rfl, below⟩ := (beginsImport_iff package').1 found
  obtain ⟨named, nonempty, plain'⟩ := Statement.below?_eq_some.1 below
  have starts := (beginsUse_text package.path st after).1 use
  obtain ⟨inner, longer⟩ := within (meets_of_starts starts named)
  have named' : st.name = namespaceName.toList ++ '.' :: (inner ++ name) := by
    rw [named, ← List.singleton_append, ← List.append_assoc, ← longer]
    simp
  have dotted : ∀ c ∈ source.toList ++ ['.'], isNameChar c = true := by
    intro c mem
    rcases List.mem_append.1 mem with mem | mem
    · exact plain c mem
    · obtain rfl := List.mem_singleton.1 mem
      decide
  refine (beginsImport_iff package).2 ⟨st, inner ++ name, after, rfl, ?_⟩
  refine Statement.below?_eq_some.2 ⟨named', by simp [nonempty], ?_⟩
  intro c mem
  rcases List.mem_append.1 mem with mem | mem
  · exact dotted c (by rw [← longer]; exact List.mem_append_right _ mem)
  · exact plain' c mem

def usedPackages : List String :=
  ["servlet", "persistence", "validation", "annotation", "transaction", "ws.rs"]

theorem namespaces_builtIn :
    DetectionSettings.builtIn.namespaces = usedPackages.map ("javax." ++ ·) := by
  decide

theorem usedPackages_mapped : ∀ package ∈ usedPackages,
    isPackageName package = true ∧ package ∈ jakartaPackages ∧
      ∀ outer ∈ jakartaPackages,
        (outer.toList ++ ['.']).isPrefixOf (package.toList ++ ['.']) = true → outer = package := by
  decide

theorem builtIn_sources :
    ∀ m ∈ Mapping.builtIn, ∀ c ∈ m.source.toList, isNameChar c = true := by
  have plain : (jakartaPackages.all fun package => package.toList.all isNameChar) = true := by
    decide
  intro m mem c inside
  obtain ⟨package, listed, rfl⟩ := List.mem_map.1 mem
  rw [String.toList_append] at inside
  rcases List.mem_append.1 inside with inside | inside
  · have outer : "javax.".toList.all isNameChar = true := by decide
    exact List.all_eq_true.1 outer c inside
  · exact List.all_eq_true.1 (List.all_eq_true.1 plain package listed) c inside

theorem not_meets_builtIn {name : List Char}
    (apart : ∀ outer ∈ ["javax.", "jakarta."],
      ¬ name <+: outer.toList ∧ ¬ outer.toList <+: name) :
    ∀ m ∈ Mapping.builtIn, meets name m.target = false ∧ meets name m.source = false := by
  intro m mem
  obtain ⟨package, -, rfl⟩ := List.mem_map.1 mem
  have below (outer : String) : outer.toList <+: (outer ++ package).toList := by
    rw [String.toList_append]
    exact List.prefix_append _ _
  exact ⟨not_meets_of_starts List.prefix_rfl (below "jakarta.") (apart _ (by simp)),
    not_meets_of_starts List.prefix_rfl (below "javax.") (apart _ (by simp))⟩

/-- The namespaces that are looked for are mapped, and met by no mapping of an outer namespace. -/
theorem builtIn_namespaces :
    ∀ namespaceName ∈ DetectionSettings.builtIn.namespaces,
      isPackageName namespaceName = true ∧
      (∃ m ∈ Mapping.builtIn, m.source = namespaceName) ∧
      ∀ m ∈ Mapping.builtIn, meets (namespaceName.toList ++ ['.']) m.target = false ∧
        (meets (namespaceName.toList ++ ['.']) m.source = true →
          namespaceName.toList ++ ['.'] <+: m.source.toList ++ ['.']) := by
  rw [namespaces_builtIn]
  intro namespaceName mem
  obtain ⟨package, used, rfl⟩ := List.mem_map.1 mem
  obtain ⟨isPackage, mapped, outermost⟩ := usedPackages_mapped package used
  refine ⟨isPackageName_append (by decide) isPackage,
    ⟨_, List.mem_map_of_mem mapped, rfl⟩, ?_⟩
  intro m mem
  obtain ⟨other, listed, rfl⟩ := List.mem_map.1 mem
  simp only [String.toList_append, List.append_assoc]
  constructor
  · have target : "jakarta.".toList <+: ("jakarta." ++ other).toList := by
      rw [String.toList_append]
      exact List.prefix_append _ _
    exact not_meets_of_starts (List.prefix_append "javax.".toList _) target (by decide)
  · intro meet
    -- Below `javax.`, which they share, either name may go on with the other one.
    rw [meets, String.toList_append, List.append_assoc, Bool.or_eq_true, List.isPrefixOf_iff_prefix,
      List.isPrefixOf_iff_prefix, List.prefix_append_right_inj, List.prefix_append_right_inj] at meet
    rw [List.prefix_append_right_inj]
    rcases meet with within | outer
    · exact within
    · obtain rfl := outermost other listed (List.isPrefixOf_iff_prefix.2 outer)
      exact List.prefix_rfl

theorem builtIn_deprecatedApis :
    ∀ entry ∈ DetectionSettings.builtIn.deprecatedApis,
      (∀ c ∈ entry.start.toList, isPathChar c = true) ∧
      ∀ m ∈ Mapping.builtIn, meets entry.start.toList m.target = false ∧
        meets entry.start.toList m.source = false := by
  have named : ∀ entry ∈ DetectionSettings.builtIn.deprecatedApis,
      entry.start.toList.all isPathChar = true ∧
        ∀ outer ∈ ["javax.", "jakarta."],
          ¬ entry.start.toList <+: outer.toList ∧ ¬ outer.toList <+: entry.start.toList := by
    decide
  intro entry mem
  obtain ⟨plain, apart⟩ := named entry mem
  exact ⟨List.all_eq_true.1 plain, not_meets_builtIn apart⟩

theorem usesNamespace_rewrite {namespaceName : String}
    (mem : namespaceName ∈ DetectionSettings.builtIn.namespaces) (content : String) :
    usesNamespace namespaceName (rewrite Mapping.builtIn content).content.toList = true ↔
      LeavesImport namespaceName content.toList := by
  obtain ⟨isPackage, ⟨own, mem_own, same⟩, others⟩ := builtIn_namespaces namespaceName mem
  have package := isPackage_of_isPackageName isPackage
  simp only [usesNamespace, rewrite, String.toList_ofList]
  rw [imports_applyMappings_iff isSeparated_builtIn package.path fun m mem => (others m mem).1]
  constructor
  · rintro ⟨before, rest, split, boundary, use, unfound⟩
    exact ⟨before, rest, split, boundary, use, same ▸ unfound own mem_own⟩
  · rintro ⟨before, rest, split, boundary, use, partially⟩
    refine ⟨before, rest, split, boundary, use, fun m mem found => partially ?_⟩
    have package' := (isPackage_of_isSeparated isSeparated_builtIn m mem).1
    exact beginsImport_of_meets package package' (builtIn_sources m mem) (others m mem).2 use found

/--
With the built-in tables, a rewritten text counts for a namespace if the text had an import from it
that was no whole statement, and uses the same legacy APIs as before.
-/
theorem detect_rewrite (content : String) :
    (∀ position, position ∈
        (detect .builtIn (rewrite Mapping.builtIn content).content).namespaces ↔
      ∃ namespaceName, DetectionSettings.builtIn.namespaces[position]? = some namespaceName ∧
        LeavesImport namespaceName content.toList) ∧
    (detect .builtIn (rewrite Mapping.builtIn content).content).deprecated =
      (detect .builtIn content).deprecated := by
  constructor
  · intro position
    rw [detect, mem_positions]
    constructor
    · rintro ⟨namespaceName, place, uses⟩
      have mem := List.mem_of_getElem? place
      exact ⟨namespaceName, place, (usesNamespace_rewrite mem content).1 uses⟩
    · rintro ⟨namespaceName, place, leaves⟩
      have mem := List.mem_of_getElem? place
      exact ⟨namespaceName, place, (usesNamespace_rewrite mem content).2 leaves⟩
  · simp only [detect]
    refine positions_congr fun entry mem => ?_
    obtain ⟨path, apart⟩ := builtIn_deprecatedApis entry mem
    simp only [usesApi, rewrite, String.toList_ofList]
    exact imports_applyMappings isSeparated_builtIn path apart content.toList

/-- A blank in front of the semicolon hides an import from the mappings, but not from detection. -/
theorem detect_rewrite_spaced :
    let content := "import javax.servlet.Filter ;"
    rewrite Mapping.builtIn content = ⟨content, [], false⟩ ∧
      (detect .builtIn (rewrite Mapping.builtIn content).content).namespaces = [0] := by
  decide +kernel

end JavaMigration.Detection
