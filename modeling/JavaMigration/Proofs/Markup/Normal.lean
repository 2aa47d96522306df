import JavaMigration.Markup.Printer
import JavaMigration.Proofs.Markup.Subtree
import JavaMigration.Proofs.Text.Trimming

/-!
# Normal documents

The form of a document in which it comes back from its text: every element text trimmed and none of
them blank, the comments in front of the root among those of the prolog, and a header.
-/

namespace JavaMigration.Markup

open Text

def solidText? (text : Option String) : Option String :=
  (text.map trim).filter (· ≠ "")

theorem solidText?_eq_some {text : Option String} {s : String} :
    solidText? text = some s ↔ text.map trim = some s ∧ s ≠ "" := by
  simp [solidText?, Option.filter_eq_some_iff]

@[simp] theorem solidText?_solidText? (text : Option String) :
    solidText? (solidText? text) = solidText? text := by
  cases h : solidText? text with
  | none => rfl
  | some s =>
    obtain ⟨trimmed, solid⟩ := solidText?_eq_some.1 h
    obtain ⟨t, -, rfl⟩ := Option.map_eq_some_iff.1 trimmed
    exact solidText?_eq_some.2 ⟨by simp, solid⟩

theorem solidText?_getD (text : Option String) :
    (solidText? text).getD "" = trim (text.getD "") := by
  cases text with
  | none => rfl
  | some s =>
    by_cases empty : trim s = "" <;> simp [solidText?, Option.filter, empty]

theorem isTrimmed_of_solidText? {text : Option String} {s : String}
    (h : solidText? text = some s) : IsTrimmed isBlank s.toList := by
  obtain ⟨trimmed, -⟩ := solidText?_eq_some.1 h
  obtain ⟨t, -, rfl⟩ := Option.map_eq_some_iff.1 trimmed
  rw [trim, String.toList_ofList]
  exact isTrimmed_trimList

namespace Element

mutual

/-- `e` with the texts in it and below it trimmed, or absent where they are blank. -/
def normal : Element → Element
  | ⟨name, attributes, text, children, leading, trailing⟩ =>
    ⟨name, attributes, solidText? text, normalAll children, leading, trailing⟩

def normalAll : List Element → List Element
  | [] => []
  | e :: rest => normal e :: normalAll rest

end

theorem normalAll_eq (cs : List Element) : normalAll cs = cs.map normal := by
  induction cs with
  | nil => rfl
  | cons c cs ih => rw [normalAll, ih, List.map_cons]

theorem normal_eq (e : Element) :
    e.normal = { e with text := solidText? e.text, children := e.children.map normal } := by
  rw [← normalAll_eq]
  cases e
  rfl

variable (e : Element)

@[simp] theorem name_normal : e.normal.name = e.name := by rw [normal_eq]

@[simp] theorem attributes_normal : e.normal.attributes = e.attributes := by rw [normal_eq]

@[simp] theorem text_normal : e.normal.text = solidText? e.text := by rw [normal_eq]

@[simp] theorem children_normal : e.normal.children = e.children.map normal := by rw [normal_eq]

@[simp] theorem leading_normal : e.normal.leading = e.leading := by rw [normal_eq]

@[simp] theorem trailing_normal : e.normal.trailing = e.trailing := by rw [normal_eq]

@[simp] theorem normal_normal : e.normal.normal = e.normal := by
  induction e using inductionOnChildren with
  | step e ih =>
    have children : (e.children.map normal).map normal = e.children.map normal := by
      rw [List.map_map]
      exact List.map_congr_left ih
    rw [normal_eq e.normal, children_normal, children, text_normal, solidText?_solidText?,
      normal_eq]

theorem trimmedText?_normal : e.normal.trimmedText? = e.trimmedText?.filter (· ≠ "") := by
  rw [trimmedText?, text_normal, trimmedText?]
  cases solid : solidText? e.text with
  | none => simpa only [solidText?, Option.map_none] using solid.symm
  | some t =>
    obtain ⟨trimmed, -⟩ := solidText?_eq_some.1 solid
    obtain ⟨t', -, rfl⟩ := Option.map_eq_some_iff.1 trimmed
    rw [Option.map_some, trim_trim, ← solid, solidText?]

theorem descendants_normal : e.normal.descendants = e.descendants.map normal := by
  induction e using inductionOnChildren with
  | step e ih =>
    rw [descendants_eq, descendants_eq, children_normal, List.flatMap_map, List.map_flatMap]
    exact List.flatMap_congr fun c mem => by rw [ih c mem, List.map_cons]

end Element

/-- The document as its text gives it back. -/
def Document.normal (d : Document) : Document where
  declaration := some (d.declaration.getD .standard)
  prolog := d.prolog ++ d.root.leading
  root := { d.root.normal with leading := [] }
  epilog := d.epilog

end JavaMigration.Markup
