import JavaMigration.Proofs.Descriptor.Plugin
import JavaMigration.Proofs.Descriptor.Properties
import JavaMigration.Proofs.Markup.Tag

/-!
# Upgraded projects

All steps of an upgrade come to one pass over the sections of a project, beside the parent that one
of the strategies puts before them. An upgrade of the normal form of an upgraded project has the
same normal form.
-/

namespace JavaMigration.Descriptor

open Markup

variable {s : UpgradeSettings} {strategy : Strategy} {processors : List Coordinate} {e e' : Element}

/-- What the settings have to be like for an upgrade to find again what it wrote. -/
structure IsStable (s : UpgradeSettings) : Prop where
  keys : ∀ key ∈ s.javaProperties, IsName key ∧ ':' ∉ key.toList
  group : IsSolid s.bom.groupId
  artifact : IsSolid s.bom.artifactId
  plugin : IsSolid s.compilerPlugin.artifactId

theorem isStable_iff (s : UpgradeSettings) : IsStable s ↔
    (∀ key ∈ s.javaProperties, IsName key ∧ ':' ∉ key.toList) ∧
      IsSolid s.bom.groupId ∧ IsSolid s.bom.artifactId ∧ IsSolid s.compilerPlugin.artifactId :=
  ⟨fun ⟨keys, group, artifact, plugin⟩ => ⟨keys, group, artifact, plugin⟩,
    fun ⟨keys, group, artifact, plugin⟩ => ⟨keys, group, artifact, plugin⟩⟩

instance : DecidablePred IsStable := fun s => decidable_of_iff _ (isStable_iff s).symm

theorem IsStable.plain (h : IsStable s) : ∀ key ∈ s.javaProperties, ':' ∉ key.toList :=
  fun key mem => (h.keys key mem).2

def upgradeCommon (s : UpgradeSettings) (project : Element) : Element :=
  (pinDependencies s (upgradeProperties s project).1).1

def wirePlatform (s : UpgradeSettings) : Strategy → Element → Element
  | .parentInheritance => installParent s
  | .bomImport => importBom s

def processorsFor (s : UpgradeSettings) : Strategy → Except UpgradeError (List Coordinate)
  | .parentInheritance => .ok []
  | .bomImport => processorPaths s

theorem processorsFor_builtIn : processorsFor .builtIn .bomImport =
    .ok [⟨"org.projectlombok", "lombok", "1.18.36"⟩,
      ⟨"org.mapstruct", "mapstruct-processor", "1.5.5.Final"⟩] := by
  decide +kernel

theorem exists_processors_builtIn (strategy : Strategy) :
    ∃ processors, processorsFor .builtIn strategy = .ok processors := by
  cases strategy with
  | parentInheritance => exact ⟨[], rfl⟩
  | bomImport => exact ⟨_, processorsFor_builtIn⟩

def upgradeRoot (s : UpgradeSettings) (strategy : Strategy) (processors : List Coordinate)
    (project : Element) : Element :=
  match strategy with
  | .parentInheritance => upgradeCommon s (installParent s project)
  | .bomImport => installPlugin s processors (upgradeCommon s (importBom s project))

def changesOf (s : UpgradeSettings) (strategy : Strategy) (project : Element) : Changes where
  dependencies := (pinDependencies s (upgradeProperties s (wirePlatform s strategy project)).1).2
  properties := (upgradeProperties s (wirePlatform s strategy project)).2
  pluginInstalled := strategy.installsCompilerPlugin

/-- Whether an upgrade succeeds depends on the settings, not on the project. -/
theorem upgradeProject_eq (s : UpgradeSettings) (strategy : Strategy) (project : Element) :
    upgradeProject s strategy project =
      (processorsFor s strategy).map fun processors =>
        (upgradeRoot s strategy processors project, changesOf s strategy project) := by
  unfold upgradeProject upgradeRoot changesOf upgradeCommon
  cases strategy with
  | parentInheritance =>
    simp only [Strategy.installsCompilerPlugin, processorsFor, wirePlatform, Bool.false_eq_true,
      if_false]
    generalize upgradeProperties s (installParent s project) = upgraded
    generalize pinDependencies s upgraded.1 = pinned
    rfl
  | bomImport =>
    simp only [Strategy.installsCompilerPlugin, if_true, processorsFor, wirePlatform]
    cases processorPaths s with
    | error e => rfl
    | ok processors =>
      generalize upgradeProperties s (importBom s project) = upgraded
      generalize pinDependencies s upgraded.1 = pinned
      rfl

theorem upgradeDocument_eq (s : UpgradeSettings) (strategy : Strategy) (d : Document) :
    upgradeDocument s strategy d =
      (processorsFor s strategy).map fun processors =>
        ({ d with root := upgradeRoot s strategy processors d.root },
          changesOf s strategy d.root) := by
  rw [upgradeDocument, upgradeProject_eq]
  cases processorsFor s strategy <;> rfl

theorem upgradeCommon_eq (s : UpgradeSettings) (project : Element) :
    upgradeCommon s project =
      { project.updateChild "properties" fun p => (setProperties s p).1 with
        children := (project.updateChild "properties" fun p => (setProperties s p).1).children.map
          (pinWithin s) } := by
  rw [upgradeCommon, pinDependencies_eq]
  rfl

theorem isPass_upgradeCommon {names : List String} {special : Choice String}
    (pass : IsPass e names special id e') (first : special "properties" = none) :
    IsPass e (names ++ ["properties"])
      ((special.andThen (pinWithin s)).set "properties"
        (pinWithin s ∘ fun p => (setProperties s p).1))
      (pinWithin s) (upgradeCommon s e') := by
  have step := pass.updateChild (f := fun p => (setProperties s p).1) "properties" (by decide)
    (.inl first) (localName_setProperties s)
  have pinned := step.map (localName_pinWithin s) (pinWithin_newChild s e)
  rw [Choice.andThen_set, first] at pinned
  rw [upgradeCommon_eq]
  exact pinned

/-- What becomes of the first section of each name where the bill of materials is imported. -/
def bomSections (s : UpgradeSettings) (processors : List Coordinate) : Choice String :=
  ((Choice.plain.set "dependencyManagement" (pinWithin s ∘ importManaged s.bom)).set "properties"
    (pinWithin s ∘ fun p => (setProperties s p).1)).set "build"
      (configureBuild s processors ∘ pinWithin s)

theorem isPass_bomImport (s : UpgradeSettings) (processors : List Coordinate) (e : Element) :
    IsPass e ["dependencyManagement", "properties", "build"] (bomSections s processors)
      (pinWithin s) (upgradeRoot s .bomImport processors e) := by
  have managed := (IsPass.start e).updateChild (f := importManaged s.bom) "dependencyManagement"
    (by decide) (.inl rfl) fun c => localName_of_name (name_updateChild _ _ c)
  have common := isPass_upgradeCommon (s := s) managed rfl
  have built := common.updateChild (f := configureBuild s processors) "build" (by decide)
    (.inl rfl) fun c => localName_of_name (name_updateChild _ _ c)
  rw [Choice.andThen_set] at built
  exact built

theorem bomSections_again (h : IsStable s) {c : Element} {f : Element → Element}
    (chosen : bomSections s processors c.localName = some f) :
    (f (f c).normal).normal = (f c).normal := by
  rcases Choice.of_set chosen with ⟨named, rfl⟩ | chosen
  · have named : c.isNamed "build" = true := decide_eq_true named
    exact configureBuild_again h.plugin (noList_of_isNamed named (by decide))
  rcases Choice.of_set chosen with ⟨named, rfl⟩ | chosen
  · have named : c.isNamed "properties" = true := decide_eq_true named
    exact setProperties_again h.plain (noList_of_isNamed named (by decide))
  rcases Choice.of_set chosen with ⟨named, rfl⟩ | chosen
  · have named : c.isNamed "dependencyManagement" = true := decide_eq_true named
    exact importManaged_again h.group h.artifact (noList_of_isNamed named (by decide))
  · cases chosen

theorem updateChild_insertFirst {c : Element} {name : String} {f : Element → Element}
    (other : c.isNamed name = false) (e : Element) :
    (e.insertFirst c).updateChild name f = (e.updateChild name f).insertFirst c := by
  have found : (e.insertFirst c).child? name = e.child? name := by
    rw [Element.child?, Element.insertFirst, List.find?_cons, other]
    rfl
  unfold Element.updateChild
  rw [found]
  cases e.child? name with
  | none => rfl
  | some old =>
    simp only [Element.modifyChild, Element.insertFirst, Element.modifyFirst, other,
      Bool.false_eq_true, if_false]

def parentFor (s : UpgradeSettings) (project : Element) : Element :=
  withCoordinate s.parent (project.newChild "parent")

theorem localName_parentFor (s : UpgradeSettings) (project : Element) :
    (parentFor s project).localName = "parent" := by
  have name : (parentFor s project).name = (project.newChild "parent").name := by
    simp only [parentFor, withCoordinate, name_setChildText]
  rw [localName_of_name name, localName_newChild (by decide)]

def orphaned (project : Element) : Element :=
  project.removeChildren (·.isNamed "parent")

theorem upgradeRoot_parentInheritance (s : UpgradeSettings) (processors : List Coordinate)
    (project : Element) :
    upgradeRoot s .parentInheritance processors project =
      (upgradeCommon s (orphaned project)).insertFirst (pinWithin s (parentFor s project)) := by
  have other : (parentFor s project).isNamed "properties" = false := by
    simp only [Element.isNamed, localName_parentFor]
    decide
  have installed : installParent s project = (orphaned project).insertFirst (parentFor s project) :=
    rfl
  rw [upgradeRoot, installed, upgradeCommon_eq, updateChild_insertFirst other, upgradeCommon_eq]
  rfl

theorem isPass_orphaned (s : UpgradeSettings) (e : Element) :
    IsPass e ["properties"]
      (Choice.plain.set "properties" (pinWithin s ∘ fun p => (setProperties s p).1)) (pinWithin s)
      (upgradeCommon s e) :=
  isPass_upgradeCommon (IsPass.start e) rfl

theorem orphaned_insertFirst (s : UpgradeSettings) {c : Element}
    (named : c.isNamed "parent" = true) (project : Element) :
    orphaned ((upgradeCommon s (orphaned project)).normal.insertFirst c) =
      (upgradeCommon s (orphaned project)).normal := by
  have pass := isPass_orphaned s (orphaned project)
  have absent : hasNamed "parent" (upgradeCommon s (orphaned project)).normal.children = false := by
    rw [hasNamed, pass.children_normal, any_kind_changeFirsts (pass.keeps.andThen localName_normal),
      List.any_eq_false]
    intro d mem
    rcases mem_completeAll mem with mem | ⟨name, new, rfl⟩
    · simpa [orphaned, Element.removeChildren, Element.isNamed] using (List.mem_filter.1 mem).2
    · obtain rfl := List.mem_singleton.1 new
      rw [localName_newChild (by decide)]
      decide
  have others : (upgradeCommon s (orphaned project)).normal.children.filter
      (fun d => !d.isNamed "parent") = (upgradeCommon s (orphaned project)).normal.children := by
    rw [List.filter_eq_self]
    intro d mem
    have other := List.any_eq_false.1 absent d mem
    simpa [Element.isNamed] using other
  rw [orphaned, Element.removeChildren, Element.insertFirst,
    List.filter_cons_of_neg (by simp [named]), others]
  cases (upgradeCommon s (orphaned project)).normal
  rfl

theorem upgradeCommon_again (h : IsStable s) (e : Element) :
    (upgradeCommon s (upgradeCommon s e).normal).normal = (upgradeCommon s e).normal := by
  refine (isPass_orphaned s e).normal_again (isPass_orphaned s _) (by decide) ?_
    (IsPinned.pinWithin s)
  intro c f chosen
  rcases Choice.of_set chosen with ⟨named, rfl⟩ | chosen
  · have named : c.isNamed "properties" = true := decide_eq_true named
    exact setProperties_again h.plain (noList_of_isNamed named (by decide))
  · cases chosen

theorem normal_insertFirst (e c : Element) :
    (e.insertFirst c).normal = e.normal.insertFirst c.normal := by
  rw [Element.normal_eq, Element.normal_eq e]
  rfl

/-- An upgrade changes nothing in the normal form of an upgraded project. -/
theorem upgradeRoot_again (h : IsStable s) (strategy : Strategy) (processors : List Coordinate)
    (project : Element) :
    (upgradeRoot s strategy processors (upgradeRoot s strategy processors project).normal).normal =
      (upgradeRoot s strategy processors project).normal := by
  cases strategy with
  | bomImport =>
    exact (isPass_bomImport s processors project).normal_again
      (isPass_bomImport s processors _) (by decide) (fun _ _ => bomSections_again h)
      (IsPinned.pinWithin s)
  | parentInheritance =>
    have named : (pinWithin s (parentFor s project)).normal.isNamed "parent" = true := by
      simp only [Element.isNamed, localName_normal, localName_pinWithin, localName_parentFor]
      rfl
    have parent : parentFor s (upgradeRoot s .parentInheritance processors project).normal =
        parentFor s project := by
      have name : (upgradeRoot s .parentInheritance processors project).normal.name =
          project.name := by
        rw [upgradeRoot_parentInheritance, Element.name_normal]
        exact (isPass_orphaned s (orphaned project)).name_eq
      rw [parentFor, newChild_of_name name, parentFor]
    rw [upgradeRoot_parentInheritance s processors (upgradeRoot _ _ _ _).normal, parent,
      upgradeRoot_parentInheritance, normal_insertFirst, normal_insertFirst,
      orphaned_insertFirst s named, upgradeCommon_again h]

theorem updateChild_with_leading (name : String) (f : Element → Element) (e : Element)
    (leading : List String) :
    Element.updateChild name f { e with leading } = { e.updateChild name f with leading } := by
  unfold Element.updateChild
  have found : Element.child? { e with leading } name = e.child? name := rfl
  rw [found]
  cases e.child? name with
  | none => rfl
  | some old => rfl

theorem upgradeRoot_with_leading (s : UpgradeSettings) (strategy : Strategy)
    (processors : List Coordinate) (e : Element) (leading : List String) :
    upgradeRoot s strategy processors { e with leading } =
      { upgradeRoot s strategy processors e with leading } := by
  have common : ∀ e : Element, upgradeCommon s { e with leading } =
      { upgradeCommon s e with leading } := by
    intro e
    rw [upgradeCommon_eq, updateChild_with_leading, upgradeCommon_eq]
  cases strategy with
  | parentInheritance =>
    have installed : installParent s { e with leading } = { installParent s e with leading } := rfl
    rw [upgradeRoot, installed, common]
    rfl
  | bomImport =>
    have imported : importBom s { e with leading } = { importBom s e with leading } :=
      updateChild_with_leading _ _ e leading
    rw [upgradeRoot, imported, common]
    exact updateChild_with_leading _ _ _ leading

end JavaMigration.Descriptor
