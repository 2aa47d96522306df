import JavaMigration.Proofs.Detection

/-!
# Exact detection

What counts as a use of a table entry, said without the search: somewhere in the text a word starts
that is the keyword of an import, and the name follows after blanks. Detection finds the entries with
such a place and no others, each of them on its own.
-/

namespace JavaMigration.Detection

open Imports Text

/-- Exactly one of the characters around a place is a word character. -/
def IsWordBoundary (before after : List Char) : Prop :=
  before.getLast?.any isWord ≠ after.head?.any isWord

/-- At some word boundary of the text stands an import of something that starts with `name`. -/
def ImportsName (name text : List Char) : Prop :=
  ∃ before blanks after, text = before ++ keyword ++ blanks ++ name ++ after ∧
    IsWordBoundary before (keyword ++ blanks ++ name ++ after) ∧
    blanks ≠ [] ∧ ∀ c ∈ blanks, isBlank c = true

variable {before rest : List Char} {d : DetectionSettings} {content : String} {position : Nat}

/-- In front of the keyword of an import, a word boundary is where no word goes on. -/
theorem isWordBoundary_keyword :
    IsWordBoundary before (keyword ++ rest) ↔ isBoundary before.getLast? = true := by
  have letter : (keyword ++ rest).head?.any isWord = true := rfl
  rw [IsWordBoundary, letter, isBoundary]
  cases before.getLast? with
  | none => simp
  | some c => simp

theorem imports_iff_importsName (name text : List Char) :
    imports name none text = true ↔ ImportsName name text := by
  rw [imports_iff]
  constructor
  · rintro ⟨before, rest, rfl, boundary, blanks, after, spaced, blank, rfl⟩
    refine ⟨before, blanks, after, by simp, ?_, spaced, blank⟩
    rw [Option.or_none] at boundary
    rw [List.append_assoc, List.append_assoc]
    exact isWordBoundary_keyword.2 boundary
  · rintro ⟨before, blanks, after, rfl, boundary, spaced, blank⟩
    refine ⟨before, keyword ++ blanks ++ name ++ after, by simp, ?_, blanks, after, spaced, blank,
      rfl⟩
    rw [List.append_assoc, List.append_assoc] at boundary
    rw [Option.or_none]
    exact isWordBoundary_keyword.1 boundary

theorem mem_namespaces_detect : position ∈ (detect d content).namespaces ↔
    ∃ namespaceName, d.namespaces[position]? = some namespaceName ∧
      ImportsName (namespaceName.toList ++ ['.']) content.toList := by
  simp only [detect, mem_positions, usesNamespace, imports_iff_importsName]

theorem mem_deprecated_detect : position ∈ (detect d content).deprecated ↔
    ∃ entry, d.deprecatedApis[position]? = some entry ∧
      ImportsName entry.start.toList content.toList := by
  simp only [detect, mem_positions, usesApi, imports_iff_importsName]

theorem pairwise_positions {α : Type} (p : α → Bool) (items : List α) :
    (positions p items).Pairwise (· < ·) := by
  have sublist : (positions p items).Sublist (items.zipIdx.map (·.2)) :=
    List.filter_sublist.map _
  rw [List.zipIdx_map_snd] at sublist
  exact List.Pairwise.sublist sublist (List.pairwise_lt_range' 1)

/--
Detection lists, in ascending order, the entries that the text imports from. What it says about an
entry is the same in any two tables, whatever else stands in them and wherever the entry does.
-/
theorem detect_exact (d : DetectionSettings) (content : String) :
    (∀ position, position ∈ (detect d content).namespaces ↔
      ∃ namespaceName, d.namespaces[position]? = some namespaceName ∧
        ImportsName (namespaceName.toList ++ ['.']) content.toList) ∧
    (∀ position, position ∈ (detect d content).deprecated ↔
      ∃ entry, d.deprecatedApis[position]? = some entry ∧
        ImportsName entry.start.toList content.toList) ∧
    (detect d content).namespaces.Pairwise (· < ·) ∧
    (detect d content).deprecated.Pairwise (· < ·) ∧
    ∀ (d' : DetectionSettings) (position position' : Nat),
      (∀ namespaceName, d.namespaces[position]? = some namespaceName →
        d'.namespaces[position']? = some namespaceName →
        (position ∈ (detect d content).namespaces ↔
          position' ∈ (detect d' content).namespaces)) ∧
      ∀ entry, d.deprecatedApis[position]? = some entry →
        d'.deprecatedApis[position']? = some entry →
        (position ∈ (detect d content).deprecated ↔
          position' ∈ (detect d' content).deprecated) := by
  refine ⟨fun _ => mem_namespaces_detect, fun _ => mem_deprecated_detect,
    pairwise_positions (usesNamespace · content.toList) d.namespaces,
    pairwise_positions (usesApi · content.toList) d.deprecatedApis, ?_⟩
  intro d' position position'
  constructor
  · intro namespaceName here there
    rw [mem_namespaces_detect, mem_namespaces_detect, here, there]
  · intro entry here there
    rw [mem_deprecated_detect, mem_deprecated_detect, here, there]

/-- A namespace within another one, found in two tables at different places. -/
theorem detect_exact_nested :
    let d : DetectionSettings :=
      { DetectionSettings.builtIn with namespaces := ["javax.servlet.jsp", "javax.servlet", "x+"] }
    let d' : DetectionSettings :=
      { DetectionSettings.builtIn with namespaces := ["javax.servlet"], deprecatedApis := [] }
    let content := "reimport x+.Y;\nimport\u00a0\n\tjavax.servlet.Filter;"
    d.namespaces[1]? = some "javax.servlet" ∧ d'.namespaces[0]? = some "javax.servlet" ∧
      (detect d content).namespaces = [1] ∧
      (1 ∈ (detect d content).namespaces ↔ 0 ∈ (detect d' content).namespaces) := by
  intro d d' content
  have found : (detect d content).namespaces = [1] := by decide +kernel
  exact ⟨rfl, rfl, found, ((detect_exact d content).2.2.2.2 d' 1 0).1 "javax.servlet" rfl rfl⟩

end JavaMigration.Detection
