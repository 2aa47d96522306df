import JavaMigration.Project.DeclaredVersions
import JavaMigration.Proofs.Descriptor.Convergence
import JavaMigration.Proofs.Markup.Search

/-!
# Versions that upgraded projects declare

An upgrade sets a property among the first properties of a project, and the version that a project
declares is that of the first list of properties, in document order, that has one. These are the
same, unless such a list stands in front of the properties of the project, somewhere below its other
children. An upgrade brings in none that does.
-/

namespace JavaMigration.Project

open Markup Descriptor

variable {s : UpgradeSettings} {e e' project properties c : Element} {key value : String}

def preceding (project : Element) : List Element :=
  project.children.takeWhile fun c => !c.isNamed "properties"

/--
The property of a name that is found in front of the properties of a project: that of the first list
of properties there, in document order, that has one. Another one, in a list of properties below the
former, can stand in front of it.
-/
def earlier? (key : String) (project : Element) : Option Element :=
  ((Element.descendantsAll (preceding project)).find? fun e =>
    e.isNamed "properties" && (e.child? key).isSome).bind (·.child? key)

def LacksProperty (key : String) (e : Element) : Prop :=
  Element.hit? "properties" [key] e = none

theorem findPath?_singleton (key : String) (e : Element) :
    Element.findPath? [key] e = e.child? key := by
  have whole : Element.findPath? [key] e = (e.childrenNamed key).findSome? some := rfl
  rw [whole, Element.childrenNamed, Element.child?, ← List.head?_filter]
  cases e.children.filter (Element.isNamed key) <;> rfl

/-- The search for a property stops at the first list of properties that has one. -/
theorem earlier?_eq (key : String) (project : Element) :
    earlier? key project = Element.findAmong? "properties" [key] (preceding project) := by
  rw [Element.findAmong?_eq, earlier?]
  induction Element.descendantsAll (preceding project) with
  | nil => rfl
  | cons e rest ih =>
    rw [List.find?_cons, List.findSome?_cons, Element.hit?, findPath?_singleton, ← ih]
    cases e.isNamed "properties" with
    | false => rfl
    | true => cases found : e.child? key <;> simp [found]

/-- Of the two properties the inner one comes first, but of the two lists the outer one does. -/
example :
    let property (text : String) : Element := { name := "java.version", text := some text }
    let inner : Element := { name := "properties", children := [property "1.6"] }
    let between : Element := { name := "x", children := [inner] }
    let outer : Element := { name := "properties", children := [between, property "11"] }
    let profiles : Element := { name := "profiles", children := [outer] }
    let project : Element := { name := "project", children := [profiles] }
    earlier? "java.version" project = some (property "11") := by
  decide

theorem earlier?_eq_none :
    earlier? key project = none ↔ ∀ c ∈ preceding project, c.All (LacksProperty key) := by
  rw [earlier?_eq]
  exact Element.findAmong?_eq_none

theorem lacksProperty_iff :
    LacksProperty key e ↔ (e.isNamed "properties" = true → e.child? key = none) := by
  rw [LacksProperty, Element.hit?, findPath?_singleton]
  split
  · rename_i named
    simp [named]
  · rename_i other
    simp [other]

theorem all_lacksProperty_newChild (key : String) (e : Element) (name : String) :
    (e.newChild name).All (LacksProperty key) :=
  Element.all_iff.2 ⟨lacksProperty_iff.2 fun _ => rfl, fun _ mem => nomatch mem⟩

theorem isSteady_lacksProperty (foreign : key ∉ stepNames) :
    IsSteady (LacksProperty key) (· ≠ key) fun _ => True where
  withText _ _ h _ := h
  newChild e name _ _ := (all_lacksProperty_newChild key e name).self
  withChildren e cs h fit := by
    rw [lacksProperty_iff] at h ⊢
    intro named
    have absent : ∀ c ∈ e.children, ¬ decide (c.localName = key) = true :=
      List.find?_eq_none.1 (h named)
    apply List.find?_eq_none.2
    intro c mem
    rcases fit c mem with ⟨d, old, same⟩ | other
    · simpa [Element.isNamed, same] using absent d old
    · simpa [Element.isNamed] using other
  names := fun name mem same => foreign (same ▸ mem)
  literals _ _ := trivial

theorem findDescendant?_property (own : project.child? "properties" = some properties)
    (found : properties.child? key = some c) :
    project.findDescendant? ["properties", key] = some ((earlier? key project).getD c) := by
  obtain ⟨named, front, rest, split, others⟩ := List.find?_eq_some_iff_append.1 own
  have front_eq : preceding project = front := by
    rw [preceding, split, List.takeWhile_append_of_pos others, List.takeWhile_cons_of_neg,
      List.append_nil]
    simp [named]
  have children : project.findDescendant? ["properties", key] =
      Element.findAmong? "properties" [key] project.children := by
    cases project
    rfl
  have here : Element.findAmong? "properties" [key] (properties :: rest) = some c := by
    rw [Element.findAmong?, if_pos named, findPath?_singleton, found]
    rfl
  rw [children, split, Element.findAmong?_append, here, earlier?_eq, front_eq]
  cases Element.findAmong? "properties" [key] front <;> rfl

theorem property?_eq (own : project.child? "properties" = some properties)
    (found : properties.child? key = some c) :
    Versions.property? key project = ((earlier? key project).getD c).trimmedText? := by
  rw [Versions.property?, findDescendant?_property own found]
  rfl

theorem property?_normal (key : String) (project : Element) :
    Versions.property? key project.normal =
      (Versions.property? key project).filter (· ≠ "") := by
  rw [Versions.property?, Element.findDescendant?_normal, Versions.property?]
  cases project.findDescendant? ["properties", key] with
  | none => rfl
  | some found => exact found.trimmedText?_normal

theorem property?_with_leading (key : String) (project : Element) (leading : List String) :
    Versions.property? key { project with leading } = Versions.property? key project := by
  cases project
  rfl

theorem exists_child?_setProperties (stable : IsStable s) (mem : key ∈ s.javaProperties)
    (set : propertyTexts s key = some value) (noList : e.isNamed "dependencies" = false) :
    ∃ c : Element, (pinWithin s (setProperties s e).1).child? key = some c ∧
      c.trimmedText? = some (Text.trim value) := by
  have pass := (isPass_setProperties stable.plain e).writing_pinWithin (s := s) noList
  obtain ⟨c, -, found⟩ := pass.exists_child? mem stable.plain
  rw [writing, set] at found
  exact ⟨_, found, rfl⟩

/-- The first properties of an upgraded project have what the upgrade sets. -/
theorem exists_child?_upgradeRoot (stable : IsStable s) (mem : key ∈ s.javaProperties)
    (set : propertyTexts s key = some value) (strategy : Strategy) (processors : List Coordinate)
    (project : Element) :
    ∃ properties c : Element,
      (upgradeRoot s strategy processors project).child? "properties" = some properties ∧
        properties.child? key = some c ∧ c.trimmedText? = some (Text.trim value) := by
  have upgraded (c : Element) (named : c.isNamed "properties" = true) :
      ∃ d : Element, (pinWithin s (setProperties s c).1).child? key = some d ∧
        d.trimmedText? = some (Text.trim value) :=
    exists_child?_setProperties stable mem set (noList_of_isNamed named (by decide))
  cases strategy with
  | bomImport =>
    have pass := isPass_bomImport s processors project
    obtain ⟨c, named, own⟩ := pass.exists_child? (by simp : "properties" ∈ _) (by decide)
    obtain ⟨d, found, text⟩ := upgraded c named
    exact ⟨_, d, own, found, text⟩
  | parentInheritance =>
    have pass := isPass_orphaned s (orphaned project)
    obtain ⟨c, named, own⟩ := pass.exists_child? (by simp : "properties" ∈ _) (by decide)
    obtain ⟨d, found, text⟩ := upgraded c named
    refine ⟨_, d, ?_, found, text⟩
    have other : (pinWithin s (parentFor s project)).isNamed "properties" = false := by
      simp only [Element.isNamed, localName_pinWithin, localName_parentFor]
      decide
    rw [upgradeRoot_parentInheritance, Element.child?, Element.insertFirst, List.find?_cons, other]
    exact own

/-- A pass leaves no property in front of the properties where none of its functions does. -/
theorem earlier?_of_isPass {names : List String} {special : Choice String}
    {g : Element → Element} (pass : IsPass e names special g e')
    (others : Keeps (LacksProperty key) g)
    (chosen : ∀ name f, special name = some f → name ≠ "properties" →
      Keeps (LacksProperty key) f)
    (absent : earlier? key e = none) : earlier? key e' = none := by
  rw [earlier?_eq_none] at absent ⊢
  intro y mem
  rw [preceding, pass.eq] at mem
  obtain ⟨c, inFront, changed⟩ := mem_takeWhile_changeFirsts pass.keeps mem
  have lacks : c.All (LacksProperty key) := by
    rcases mem_takeWhile_completeAll inFront with old | ⟨name, -, rfl⟩
    · exact absent c old
    · exact all_lacksProperty_newChild key e name
  rcases changed with rfl | ⟨f, found, rfl⟩
  · exact others c lacks
  · have other := List.mem_takeWhile_imp inFront
    exact chosen _ f found (by simpa using other) c lacks

theorem mem_takeWhile_filter {p q : Element → Bool} {cs : List Element}
    (stops : ∀ c, p c = false → q c = true) (h : c ∈ (cs.filter q).takeWhile p) :
    c ∈ cs.takeWhile p := by
  induction cs with
  | nil => cases h
  | cons d cs ih =>
    cases inside : p d with
    | false =>
      rw [List.filter_cons_of_pos (stops d inside), List.takeWhile_cons_of_neg (by simp [inside])]
        at h
      cases h
    | true =>
      rw [List.takeWhile_cons_of_pos inside]
      cases kept : q d with
      | false =>
        rw [List.filter_cons_of_neg (by simp [kept])] at h
        exact List.mem_cons_of_mem d (ih h)
      | true =>
        rw [List.filter_cons_of_pos kept, List.takeWhile_cons_of_pos inside] at h
        rcases List.mem_cons.1 h with rfl | mem
        · exact List.mem_cons_self ..
        · exact List.mem_cons_of_mem d (ih mem)

theorem earlier?_orphaned (absent : earlier? key e = none) : earlier? key (orphaned e) = none := by
  rw [earlier?_eq_none] at absent ⊢
  intro c mem
  apply absent
  apply mem_takeWhile_filter _ mem
  intro d own
  have named : d.localName = "properties" := by simpa [Element.isNamed] using own
  simp [Element.isNamed, named]

theorem earlier?_insertFirst (lacks : c.All (LacksProperty key)) (absent : earlier? key e = none) :
    earlier? key (e.insertFirst c) = none := by
  rw [earlier?_eq_none] at absent ⊢
  intro d mem
  rw [preceding, Element.insertFirst, List.takeWhile_cons] at mem
  split at mem
  · rcases List.mem_cons.1 mem with rfl | mem
    · exact lacks
    · exact absent d mem
  · cases mem

/-- An upgrade brings in no property in front of the properties of a project. -/
theorem earlier?_upgradeRoot (s : UpgradeSettings) (foreign : key ∉ stepNames)
    (strategy : Strategy) (processors : List Coordinate) (absent : earlier? key project = none) :
    earlier? key (upgradeRoot s strategy processors project) = none := by
  have steady := isSteady_lacksProperty foreign
  have pinned := steady.keeps_pinWithin s.fits_any
  cases strategy with
  | bomImport =>
    apply earlier?_of_isPass (isPass_bomImport s processors project) pinned _ absent
    intro name f chosen other
    rcases Choice.of_set chosen with ⟨-, rfl⟩ | chosen
    · exact (steady.keeps_configureBuild s.fits_any fun p _ => p.fits_any).comp pinned
    rcases Choice.of_set chosen with ⟨own, -⟩ | chosen
    · exact absurd own other
    rcases Choice.of_set chosen with ⟨-, rfl⟩ | chosen
    · exact pinned.comp (steady.keeps_importManaged s.bom.fits_any)
    · cases chosen
  | parentInheritance =>
    rw [upgradeRoot_parentInheritance]
    apply earlier?_insertFirst
    · apply pinned
      apply steady.keeps_withCoordinate s.parent.fits_any
      exact all_lacksProperty_newChild key project "parent"
    · apply earlier?_of_isPass (isPass_orphaned s (orphaned project)) pinned _
        (earlier?_orphaned absent)
      intro name f chosen other
      rcases Choice.of_set chosen with ⟨own, -⟩ | chosen
      · exact absurd own other
      · cases chosen

end JavaMigration.Project
