import JavaMigration.Proofs.Descriptor.Lookup
import JavaMigration.Proofs.Descriptor.Pins
import JavaMigration.Proofs.Descriptor.Convergence
import Mathlib.Data.List.Forall2

/-!
# What every upgrade guarantees

Each step of an upgrade leaves what it is for, and no later step takes it away: the properties, the
pinned versions, the parent, the import of the bill of materials, and the compiler plugin.
-/

namespace JavaMigration.Descriptor

open Markup

variable {s : UpgradeSettings} {strategy : Strategy} {processors : List Coordinate}
  {e e' project : Element} {key value : String}

/-- The value that is listed for a key, the last one where several are. -/
def override? (s : UpgradeSettings) (key : String) : Option String :=
  (s.frameworkProperties.reverse.find? fun o => o.key = key).map (·.value)

theorem frameworkTexts_eq (overrides : List PropertyOverride) (texts : String → Option String)
    (key : String) :
    frameworkTexts overrides texts key =
      ((overrides.reverse.find? fun o => o.key = key).map (·.value)).or (texts key) := by
  induction overrides generalizing texts with
  | nil => rfl
  | cons o overrides ih =>
    have rest : frameworkTexts (o :: overrides) texts =
        frameworkTexts overrides (Function.update texts o.key (some o.value)) := rfl
    rw [rest, ih, List.reverse_cons, List.find?_append]
    cases overrides.reverse.find? fun o => o.key = key with
    | some later => rfl
    | none =>
      by_cases same : o.key = key
      · subst same
        simp
      · simp [same, Function.update_of_ne (Ne.symm same)]

theorem javaTexts_eq (target : String) (keys : List String) (texts : String → Option String)
    (key : String) :
    javaTexts target keys texts key = if key ∈ keys then some target else texts key := by
  induction keys generalizing texts with
  | nil => rfl
  | cons key' keys ih =>
    have rest : javaTexts target (key' :: keys) texts =
        javaTexts target keys (Function.update texts key' (some target)) := rfl
    rw [rest, ih]
    by_cases same : key = key'
    · subst same
      simp
    · simp [same]

theorem propertyTexts_eq (s : UpgradeSettings) (key : String) :
    propertyTexts s key =
      (override? s key).or (if key ∈ s.javaProperties then some s.targetJavaVersion else none) := by
  rw [propertyTexts, frameworkTexts_eq, javaTexts_eq]
  rfl

def Declares (project : Element) (key : String) : Prop :=
  ∃ properties c : Element,
    project.child? "properties" = some properties ∧ properties.child? key = some c

structure HasProperties (s : UpgradeSettings) (project properties : Element) : Prop where
  java : ∀ key ∈ s.javaProperties, override? s key = none →
    properties.childText? key = some (Text.trim s.targetJavaVersion)
  framework : ∀ key value, override? s key = some value →
    Declares project key ∨ key ∈ s.javaProperties →
      properties.childText? key = some (Text.trim value)
  absent : ∀ key value, override? s key = some value →
    ¬ (Declares project key ∨ key ∈ s.javaProperties) → properties.child? key = none

theorem child?_setProperties (plain : ∀ key ∈ s.javaProperties, ':' ∉ key.toList) (key : String)
    (e : Element) :
    (setProperties s e).1.child? key =
      (if key ∈ s.javaProperties then some (childOrNew key e) else e.child? key).map
        ((writing id (propertyTexts s) key).getD id) :=
  (isPass_setProperties plain e).child?_eq plain key

theorem childText?_setProperties (plain : ∀ key ∈ s.javaProperties, ':' ∉ key.toList)
    (set : propertyTexts s key = some value)
    (there : key ∈ s.javaProperties ∨ (e.child? key).isSome) :
    (pinWithin s (setProperties s e).1).childText? key = some (Text.trim value) := by
  rw [childText?_pinWithin, Element.childText?, child?_setProperties plain, writing, set]
  split
  · rfl
  · rename_i other
    obtain ⟨c, found⟩ := Option.isSome_iff_exists.1 (there.resolve_left other)
    rw [found]
    rfl

theorem hasProperties_setProperties (plain : ∀ key ∈ s.javaProperties, ':' ∉ key.toList)
    (project : Element) :
    HasProperties s project
      (pinWithin s (setProperties s (childOrNew "properties" project)).1) where
  java := by
    intro key mem unlisted
    apply childText?_setProperties plain _ (.inl mem)
    rw [propertyTexts_eq, unlisted, if_pos mem]
    rfl
  framework := by
    intro key value listed there
    apply childText?_setProperties plain
    · rw [propertyTexts_eq, listed]
      rfl
    · rcases there with ⟨properties, c, own, found⟩ | mem
      · rw [childOrNew, own, Option.getD_some, found]
        exact .inr rfl
      · exact .inl mem
  absent := by
    intro key value _ missing
    obtain ⟨undeclared, other⟩ := not_or.1 missing
    rw [child?_pinWithin, child?_setProperties plain, if_neg other, childOrNew]
    cases own : project.child? "properties" with
    | none => rfl
    | some properties =>
      have none : properties.child? key = none := by
        rw [← Option.not_isSome_iff_eq_none, Option.isSome_iff_exists]
        rintro ⟨c, found⟩
        exact undeclared ⟨properties, c, own, found⟩
      rw [Option.getD_some, none]
      rfl

/-- How many entries for the bill of materials the first managed list of a project has. -/
def importCount (bom : Coordinate) (project : Element) : Nat :=
  match (project.child? "dependencyManagement").bind (·.child? "dependencies") with
  | some dependencies => dependencies.children.countP (isEntryOf bom)
  | none => 0

structure HasImport (s : UpgradeSettings) (project dependencies : Element) : Prop where
  count : dependencies.children.countP (isEntryOf s.bom) = max 1 (importCount s.bom project)
  first : ∃ entry, dependencies.children.find? (isEntryOf s.bom) = some entry ∧
    entry.childText? "type" = some "pom" ∧ entry.childText? "scope" = some "import" ∧
    entry.childText? "version" =
      some (Text.trim ((s.pinned? s.bom.groupId s.bom.artifactId).getD s.bom.version))

theorem isEntryOf_asImport (c : Coordinate) (e : Element) :
    isEntryOf c (asImport c e) = isEntryOf c e :=
  isEntryOf_of_sameCoordinates (sameCoordinates_asImport c e)

theorem countP_modifyFirstWhere {p : Element → Bool} {f : Element → Element}
    (kept : ∀ c, p (f c) = p c) (cs : List Element) :
    (modifyFirstWhere p f cs).countP p = cs.countP p := by
  induction cs with
  | nil => rfl
  | cons c cs ih =>
    by_cases here : p c = true
    · rw [modifyFirstWhere_cons_of_pos here, List.countP_cons, List.countP_cons, kept]
    · rw [modifyFirstWhere_cons_of_neg here, List.countP_cons, List.countP_cons, ih]

section Import

variable {c : Coordinate} (group : Text.trim c.groupId = c.groupId)
  (artifact : Text.trim c.artifactId = c.artifactId)

include group artifact

theorem countP_importInto (e : Element) :
    (importInto c e).children.countP (isEntryOf c) = max 1 (e.children.countP (isEntryOf c)) := by
  unfold importInto
  split
  · rename_i there
    have positive : 0 < e.children.countP (isEntryOf c) :=
      List.countP_pos_iff.2 (List.any_eq_true.1 there)
    rw [countP_modifyFirstWhere (isEntryOf_asImport c)]
    exact (max_eq_right positive).symm
  · rename_i missing
    have zero : e.children.countP (isEntryOf c) = 0 := by
      rw [List.countP_eq_zero]
      simpa using missing
    have new : isEntryOf c (asImport c (newEntry c e)) = true := by
      rw [isEntryOf_asImport, isEntryOf_newEntry group artifact]
    change (e.children ++ [asImport c (newEntry c e)]).countP (isEntryOf c) = _
    rw [List.countP_append, zero, List.countP_singleton, if_pos new]
    rfl

theorem find?_importInto (e : Element) :
    ∃ entry, isEntryOf c entry = true ∧
      (importInto c e).children.find? (isEntryOf c) = some (asImport c entry) := by
  have kept (d : Element) (here : isEntryOf c d = true) : isEntryOf c (asImport c d) = true :=
    (isEntryOf_asImport c d).trans here
  unfold importInto
  split
  · rename_i there
    have found : (e.children.find? (isEntryOf c)).isSome = true :=
      List.find?_isSome.2 (List.any_eq_true.1 there)
    obtain ⟨entry, found⟩ := Option.isSome_iff_exists.1 found
    refine ⟨entry, List.find?_some found, ?_⟩
    rw [find?_modifyFirstWhere_self kept, found]
    rfl
  · rename_i missing
    have none : e.children.find? (isEntryOf c) = none := by
      rw [List.find?_eq_none]
      simpa using missing
    have new := isEntryOf_newEntry group artifact e
    refine ⟨newEntry c e, new, ?_⟩
    change (e.children ++ [asImport c (newEntry c e)]).find? (isEntryOf c) = _
    rw [List.find?_append, none, List.find?_singleton, if_pos (kept _ new)]
    rfl

end Import

/-- An entry that is imported and then pinned has its version from the table, if that has one. -/
theorem childText?_pinChild_asImport {c : Coordinate} {entry : Element}
    (here : isEntryOf c entry = true) :
    (pinChild s true (asImport c entry)).childText? "type" = some "pom" ∧
      (pinChild s true (asImport c entry)).childText? "scope" = some "import" ∧
      (pinChild s true (asImport c entry)).childText? "version" =
        some (Text.trim ((s.pinned? c.groupId c.artifactId).getD c.version)) := by
  have type : (asImport c entry).childText? "type" = some "pom" := by
    rw [asImport, childText?_setChildText (by decide) (by decide),
      childText?_setChildText_self (by decide)]
    decide
  have scope : (asImport c entry).childText? "scope" = some "import" := by
    rw [asImport, childText?_setChildText_self (by decide)]
    decide
  have version : (asImport c entry).childText? "version" = some (Text.trim c.version) := by
    rw [asImport, childText?_setChildText (by decide) (by decide),
      childText?_setChildText (by decide) (by decide), childText?_setChildText_self (by decide)]
  have pinned : pinVersion? s (asImport c entry) = s.pinned? c.groupId c.artifactId :=
    pinVersion?_of_isEntryOf ((isEntryOf_asImport c entry).trans here)
  rw [pinChild_true, pinned]
  cases s.pinned? c.groupId c.artifactId with
  | none =>
    simp only [childText?_pinWithin]
    exact ⟨type, scope, version⟩
  | some v =>
    refine ⟨?_, ?_, childText?_setChildText_self (by decide) v _⟩
    · rw [childText?_setChildText (by decide) (by decide), childText?_pinWithin, type]
    · rw [childText?_setChildText (by decide) (by decide), childText?_pinWithin, scope]

theorem importCount_eq (c : Coordinate) (project : Element) :
    importCount c project =
      (childOrNew "dependencies" (childOrNew "dependencyManagement" project)).children.countP
        (isEntryOf c) := by
  unfold importCount childOrNew
  cases project.child? "dependencyManagement" with
  | none => rfl
  | some management =>
    rw [Option.getD_some, Option.bind_some]
    cases management.child? "dependencies" <;> rfl

theorem hasImport_pinWithin (group : Text.trim s.bom.groupId = s.bom.groupId)
    (artifact : Text.trim s.bom.artifactId = s.bom.artifactId) (project : Element) :
    HasImport s project (pinWithin s (importInto s.bom
      (childOrNew "dependencies" (childOrNew "dependencyManagement" project)))) := by
  set dependencies := childOrNew "dependencies" (childOrNew "dependencyManagement" project)
  have list : (importInto s.bom dependencies).isNamed "dependencies" = true := by
    rw [isNamed_of_localName (localName_importInto s.bom dependencies), Element.isNamed,
      localName_childOrNew (by decide)]
    rfl
  have entry (c : Element) : isEntryOf s.bom (pinChild s true c) = isEntryOf s.bom c :=
    isEntryOf_of_sameCoordinates (sameCoordinates_pinChild s true c)
  have same : isEntryOf s.bom ∘ pinChild s true = isEntryOf s.bom := by
    funext c
    rw [Function.comp_apply, entry]
  constructor
  · rw [pinWithin_eq, list, List.countP_map, same, countP_importInto group artifact,
      importCount_eq]
  · obtain ⟨first, here, found⟩ := find?_importInto group artifact dependencies
    refine ⟨pinChild s true (asImport s.bom first), ?_, childText?_pinChild_asImport here⟩
    rw [pinWithin_eq, list, List.find?_map, same, found]
    rfl

def HasParent (s : UpgradeSettings) (root : Element) : Prop :=
  ∃ parent rest, root.children = parent :: rest ∧ parent.isNamed "parent" = true ∧
    contents parent = coordinateContents s.parent ∧ ∀ c ∈ rest, c.isNamed "parent" = false

theorem not_isNamed_parent_upgradeCommon (s : UpgradeSettings) (project : Element) :
    ∀ c ∈ (upgradeCommon s (orphaned project)).children, c.isNamed "parent" = false := by
  rw [upgradeCommon_eq, List.forall_mem_map]
  intro c mem
  rw [isNamed_of_localName (localName_pinWithin s c)]
  rcases mem_updateChild (by decide) mem with old | ⟨d, -, named, rfl⟩
  · simpa using (List.mem_filter.1 old).2
  · rw [Element.isNamed, localName_setProperties, named]
    decide

theorem hasParent_upgradeRoot (s : UpgradeSettings) (processors : List Coordinate)
    (project : Element) : HasParent s (upgradeRoot s .parentInheritance processors project) := by
  rw [upgradeRoot_parentInheritance]
  refine ⟨pinWithin s (parentFor s project), (upgradeCommon s (orphaned project)).children, rfl,
    ?_, ?_, not_isNamed_parent_upgradeCommon s project⟩
  · rw [Element.isNamed, localName_pinWithin, localName_parentFor]
    rfl
  · rw [contents_pinWithin]
    exact contents_newCoordinate s.parent project "parent"

/-- An annotation processor with the version that the table has for the artifact it names. -/
def TakesVersion (s : UpgradeSettings) (p : AnnotationProcessor) (c : Coordinate) : Prop :=
  c.groupId = p.groupId ∧ c.artifactId = p.artifactId ∧
    s.pinnedByKey? p.versionFrom = some c.version

theorem forall₂_of_mapM_eq_ok {α β ε : Type} {f : α → Except ε β} {xs : List α} {ys : List β}
    (h : xs.mapM f = .ok ys) : List.Forall₂ (fun x y => f x = .ok y) xs ys := by
  induction xs generalizing ys with
  | nil =>
    cases h
    exact .nil
  | cons x xs ih =>
    rw [List.mapM_cons] at h
    cases first : f x with
    | error e => simp [first, bind, Except.bind] at h
    | ok y =>
      cases rest : xs.mapM f with
      | error e => simp [first, rest, bind, Except.bind] at h
      | ok ys' =>
        simp only [first, rest, bind, Except.bind, pure, Except.pure] at h
        cases h
        exact .cons first (ih rest)

theorem takesVersion_of_processorPaths (found : processorPaths s = .ok processors) :
    List.Forall₂ (TakesVersion s) s.compilerPlugin.annotationProcessors processors := by
  refine List.Forall₂.imp ?_ (forall₂_of_mapM_eq_ok found)
  intro p c taken
  cases version : s.pinnedByKey? p.versionFrom with
  | none => simp [version] at taken
  | some v =>
    simp only [version] at taken
    cases taken
    exact ⟨rfl, rfl, version⟩

structure IsConfiguration (s : UpgradeSettings) (configuration : Element) : Prop where
  contents : contents configuration =
    [("source", some s.targetJavaVersion), ("target", some s.targetJavaVersion),
      ("release", some s.targetJavaVersion),
      ("fork", some (if s.compilerPlugin.fork then "true" else "false")),
      ("annotationProcessorPaths", none), ("compilerArgs", none)]
  processors : ∃ paths processors,
    configuration.child? "annotationProcessorPaths" = some paths ∧
      List.Forall₂ (TakesVersion s) s.compilerPlugin.annotationProcessors processors ∧
      paths.children.map (fun p => (p.localName, Descriptor.contents p)) =
        processors.map fun c => ("path", coordinateContents c)
  arguments : ∃ args, configuration.child? "compilerArgs" = some args ∧
    Descriptor.contents args = s.compilerPlugin.compilerArgs.map fun arg => ("arg", some arg)

def HasPlugin (s : UpgradeSettings) (plugins : Element) : Prop :=
  ∃ others plugin configuration, plugins.children = others ++ [plugin] ∧
    (∀ c ∈ others, isCompilerPlugin s c = false) ∧ isCompilerPlugin s plugin = true ∧
    contents plugin = coordinateContents ⟨s.compilerPlugin.groupId, s.compilerPlugin.artifactId,
      s.compilerPlugin.version⟩ ++ [("configuration", none)] ∧
    plugin.child? "configuration" = some configuration ∧ IsConfiguration s configuration

theorem text_configure (s : UpgradeSettings) (processors : List Coordinate) (e : Element) :
    (configure s processors e).text = e.text := by
  simp only [configure, Element.setChildText, text_updateChild]

def configureTarget (s : UpgradeSettings) (configuration : Element) : Element :=
  configuration.setChildText "source" s.targetJavaVersion
    |>.setChildText "target" s.targetJavaVersion
    |>.setChildText "release" s.targetJavaVersion
    |>.setChildText "fork" (if s.compilerPlugin.fork then "true" else "false")

theorem contents_configureTarget (bare : contents e = []) :
    contents (configureTarget s e) =
      [("source", some s.targetJavaVersion), ("target", some s.targetJavaVersion),
        ("release", some s.targetJavaVersion),
        ("fork", some (if s.compilerPlugin.fork then "true" else "false"))] := by
  have source : contents (e.setChildText "source" s.targetJavaVersion) =
      [("source", some s.targetJavaVersion)] := by
    rw [contents_setChildText (by decide) (by simp [bare]), bare]
    rfl
  have target : contents ((e.setChildText "source" s.targetJavaVersion).setChildText "target"
      s.targetJavaVersion) =
        [("source", some s.targetJavaVersion), ("target", some s.targetJavaVersion)] := by
    rw [contents_setChildText (by decide) (by simp [source]), source]
    rfl
  have release : contents (((e.setChildText "source" s.targetJavaVersion).setChildText "target"
      s.targetJavaVersion).setChildText "release" s.targetJavaVersion) =
        [("source", some s.targetJavaVersion), ("target", some s.targetJavaVersion),
          ("release", some s.targetJavaVersion)] := by
    rw [contents_setChildText (by decide) (by simp [target]), target]
    rfl
  rw [configureTarget, contents_setChildText (by decide) (by simp [release]), release]
  rfl

def addProcessors (processors : List Coordinate) (paths : Element) : Element :=
  { paths with
    children := paths.children ++
      processors.map fun p => withCoordinate p (paths.newChild "path") }

def addArguments (arguments : List String) (args : Element) : Element :=
  { args with
    children := args.children ++ arguments.map fun arg => args.newTextChild "arg" arg }

theorem configure_eq (s : UpgradeSettings) (processors : List Coordinate) (e : Element) :
    configure s processors e =
      ((configureTarget s e).updateChild "annotationProcessorPaths"
        (addProcessors processors)).updateChild "compilerArgs"
          (addArguments s.compilerPlugin.compilerArgs) :=
  rfl

theorem contents_addProcessors (processors : List Coordinate) (e : Element) (name : String) :
    (addProcessors processors (e.newChild name)).children.map (fun p => (p.localName, contents p)) =
      processors.map fun c => ("path", coordinateContents c) := by
  have whole : (addProcessors processors (e.newChild name)).children =
      processors.map fun p => withCoordinate p ((e.newChild name).newChild "path") :=
    List.nil_append _
  rw [whole, List.map_map]
  apply List.map_congr_left
  intro c _
  rw [Function.comp_apply, contents_newCoordinate, localName_withCoordinate,
    localName_newChild (by decide)]

theorem contents_addArguments (arguments : List String) (e : Element) (name : String) :
    contents (addArguments arguments (e.newChild name)) =
      arguments.map fun arg => ("arg", some arg) := by
  have whole : (addArguments arguments (e.newChild name)).children =
      arguments.map fun arg => (e.newChild name).newTextChild "arg" arg :=
    List.nil_append _
  rw [contents, whole, List.map_map]
  apply List.map_congr_left
  intro arg _
  have spelled : ((e.newChild name).newTextChild "arg" arg).name =
      ((e.newChild name).newChild "arg").name := rfl
  rw [Function.comp_apply, localName_of_name spelled, localName_newChild (by decide)]
  rfl

theorem isConfiguration_configure (found : processorPaths s = .ok processors)
    (bare : contents e = []) : IsConfiguration s (configure s processors e) := by
  have target := contents_configureTarget (s := s) bare
  have unfilled : "annotationProcessorPaths" ∉ (contents (configureTarget s e)).map (·.1) := by
    simp [target]
  have filled := contents_updateChild (f := addProcessors processors) (by decide) (fun _ => rfl)
    unfilled
  have absent : "compilerArgs" ∉ (contents ((configureTarget s e).updateChild
      "annotationProcessorPaths" (addProcessors processors))).map (·.1) := by
    simp [filled, target]
  rw [configure_eq]
  constructor
  · rw [contents_updateChild (f := addArguments _) (by decide) (fun _ => rfl) absent, filled,
      target]
    rfl
  · refine ⟨_, processors, ?_, takesVersion_of_processorPaths found,
      contents_addProcessors processors (configureTarget s e) "annotationProcessorPaths"⟩
    rw [child?_updateChild (f := addArguments _) (by decide) (by decide) fun _ => rfl]
    exact child?_updateChild_of_absent (by decide) (fun _ => rfl) unfilled
  · exact ⟨_, child?_updateChild_of_absent (by decide) (fun _ => rfl) absent,
      contents_addArguments s.compilerPlugin.compilerArgs _ "compilerArgs"⟩

theorem hasPlugin_replacePlugin (found : processorPaths s = .ok processors)
    (artifact : Text.trim s.compilerPlugin.artifactId = s.compilerPlugin.artifactId) (e : Element) :
    HasPlugin s (replacePlugin s processors e) := by
  have kept (c : Element) : (configure s processors c).localName = c.localName :=
    localName_of_name (name_configure s processors c)
  let coordinate : Coordinate :=
    ⟨s.compilerPlugin.groupId, s.compilerPlugin.artifactId, s.compilerPlugin.version⟩
  let plugin := withCoordinate coordinate (e.newChild "plugin")
  have plugin_contents : contents plugin = coordinateContents coordinate :=
    contents_newCoordinate coordinate e "plugin"
  have absent : "configuration" ∉ (contents plugin).map (·.1) := by
    simp [plugin_contents, coordinateContents]
  have whole : pluginFor s processors e =
      plugin.updateChild "configuration" (configure s processors) := rfl
  refine ⟨otherPlugins s e, pluginFor s processors e,
    configure s processors (plugin.newChild "configuration"), rfl, ?_,
    isCompilerPlugin_pluginFor artifact e, ?_, ?_, isConfiguration_configure found rfl⟩
  · intro c mem
    simpa using (List.mem_filter.1 mem).2
  · rw [whole, contents_updateChild (by decide) kept absent, plugin_contents, text_configure]
    rfl
  · rw [whole]
    exact child?_updateChild_of_absent (by decide) kept absent

/-- What an upgrade of this strategy leaves in a project. -/
structure Guarantees (s : UpgradeSettings) (strategy : Strategy) (project root : Element) :
    Prop where
  properties : ∃ properties, root.child? "properties" = some properties ∧
    HasProperties s project properties
  pinned : ∀ dependencies ∈ root.descendants, dependencies.isNamed "dependencies" = true →
    ∀ entry ∈ dependencies.children, entry.isNamed "dependency" = true →
      ∀ groupId artifactId version, entry.childText? "groupId" = some groupId →
        entry.childText? "artifactId" = some artifactId →
          s.pinned? groupId artifactId = some version →
            entry.childText? "version" = some (Text.trim version)
  parent : strategy = .parentInheritance → HasParent s root
  bom : strategy = .bomImport → ∃ management dependencies,
    root.child? "dependencyManagement" = some management ∧
      management.child? "dependencies" = some dependencies ∧ HasImport s project dependencies
  plugin : strategy = .bomImport → ∃ build plugins, root.child? "build" = some build ∧
    build.child? "plugins" = some plugins ∧ HasPlugin s plugins

theorem child?_orphaned {name : String} (other : name ≠ "parent") (project : Element) :
    (orphaned project).child? name = project.child? name := by
  rw [Element.child?, orphaned, Element.removeChildren, List.find?_filter, Element.child?]
  refine congrArg (fun p => project.children.find? p) ?_
  funext c
  by_cases named : c.localName = name <;> simp [Element.isNamed, named, other]

theorem child?_properties_upgradeRoot (s : UpgradeSettings) (strategy : Strategy)
    (processors : List Coordinate) (project : Element) :
    (upgradeRoot s strategy processors project).child? "properties" =
      some (pinWithin s (setProperties s (childOrNew "properties" project)).1) := by
  cases strategy with
  | bomImport =>
    exact (isPass_bomImport s processors project).child?_of_mem (by decide) (by simp)
  | parentInheritance =>
    have same : childOrNew "properties" (orphaned project) = childOrNew "properties" project := by
      rw [childOrNew, child?_orphaned (by decide)]
      rfl
    have other : (pinWithin s (parentFor s project)).isNamed "properties" = false := by
      rw [Element.isNamed, localName_pinWithin, localName_parentFor]
      decide
    have found := (isPass_orphaned s (orphaned project)).child?_of_mem (by decide)
      (List.mem_singleton_self "properties")
    rw [same] at found
    rw [upgradeRoot_parentInheritance, Element.child?, Element.insertFirst, List.find?_cons, other]
    exact found

theorem hasImport_upgradeRoot (group : Text.trim s.bom.groupId = s.bom.groupId)
    (artifact : Text.trim s.bom.artifactId = s.bom.artifactId) (processors : List Coordinate)
    (project : Element) :
    ∃ management dependencies,
      (upgradeRoot s .bomImport processors project).child? "dependencyManagement" =
          some management ∧
        management.child? "dependencies" = some dependencies ∧
          HasImport s project dependencies := by
  let before := childOrNew "dependencyManagement" project
  have noList : (importManaged s.bom before).isNamed "dependencies" = false := by
    rw [importManaged, Element.isNamed, localName_of_name (name_updateChild _ _ before),
      localName_childOrNew (by decide)]
    decide
  refine ⟨pinWithin s (importManaged s.bom before), _,
    (isPass_bomImport s processors project).child?_of_mem (by decide) (by simp), ?_,
    hasImport_pinWithin group artifact project⟩
  rw [child?_pinWithin, noList, importManaged,
    child?_updateChild_self (by decide) (localName_importInto s.bom)]
  rfl

theorem hasPlugin_upgradeRoot (found : processorPaths s = .ok processors)
    (artifact : Text.trim s.compilerPlugin.artifactId = s.compilerPlugin.artifactId)
    (project : Element) :
    ∃ build plugins,
      (upgradeRoot s .bomImport processors project).child? "build" = some build ∧
        build.child? "plugins" = some plugins ∧ HasPlugin s plugins :=
  ⟨_, _, (isPass_bomImport s processors project).child?_of_mem (by decide) (by simp),
    child?_updateChild_self (by decide) (localName_replacePlugin s processors) _,
    hasPlugin_replacePlugin found artifact _⟩

theorem guarantees_upgradeRoot (plain : ∀ key ∈ s.javaProperties, ':' ∉ key.toList)
    (group : Text.trim s.bom.groupId = s.bom.groupId)
    (artifact : Text.trim s.bom.artifactId = s.bom.artifactId)
    (plugin : Text.trim s.compilerPlugin.artifactId = s.compilerPlugin.artifactId)
    (found : processorsFor s strategy = .ok processors) (project : Element) :
    Guarantees s strategy project (upgradeRoot s strategy processors project) where
  properties := ⟨_, child?_properties_upgradeRoot s strategy processors project,
    hasProperties_setProperties plain project⟩
  pinned := by
    intro dependencies mem list entry below named groupId artifactId version group artifact pinned
    apply holdsPins_upgradeRoot s strategy processors project dependencies mem list entry below
    rw [pinVersion?_eq, if_pos named, group, artifact]
    exact pinned
  parent := by
    intro inherits
    subst inherits
    exact hasParent_upgradeRoot s processors project
  bom := by
    intro imports
    subst imports
    exact hasImport_upgradeRoot group artifact processors project
  plugin := by
    intro imports
    subst imports
    exact hasPlugin_upgradeRoot found plugin project

/--
What an upgrade of a project guarantees: the properties have the target version or the values listed
last, the dependencies of the upgrade table have its versions at any depth, and the strategy has put
in the parent, alone and in front, or the import, once where there was none, and the compiler
plugin, alone of its name and as the last plugin.
-/
theorem upgradeProject_guarantees (s : UpgradeSettings)
    (plain : ∀ key ∈ s.javaProperties, ':' ∉ key.toList)
    (group : Text.trim s.bom.groupId = s.bom.groupId)
    (artifact : Text.trim s.bom.artifactId = s.bom.artifactId)
    (plugin : Text.trim s.compilerPlugin.artifactId = s.compilerPlugin.artifactId)
    (strategy : Strategy) {project root : Element} {changes : Changes}
    (upgraded : upgradeProject s strategy project = .ok (root, changes)) :
    Guarantees s strategy project root := by
  rw [upgradeProject_eq] at upgraded
  cases found : processorsFor s strategy with
  | error e =>
    rw [found] at upgraded
    cases upgraded
  | ok processors =>
    rw [found] at upgraded
    cases upgraded
    exact guarantees_upgradeRoot plain group artifact plugin found project

/-- A managed dependency that is pinned and a replaced plugin, in a project with a prefix. -/
theorem upgradeProject_guarantees_prefixed :
    let managed : Element :=
      { name := "m:dependency",
        children :=
          [{ name := "m:groupId", text := some " org.projectlombok " },
           { name := "m:artifactId", text := some "lombok" }] }
    let old : Element :=
      { name := "m:plugin",
        children := [{ name := "m:artifactId", text := some "maven-compiler-plugin" }] }
    let project : Element :=
      { name := "m:project",
        children :=
          [{ name := "m:dependencyManagement",
             children := [{ name := "m:dependencies", children := [managed] }] },
           { name := "m:build", children := [{ name := "m:plugins", children := [old] }] }] }
    ∃ root changes, upgradeProject .builtIn .bomImport project = .ok (root, changes) ∧
      Guarantees .builtIn .bomImport project root := by
  intro managed old project
  have upgraded := (upgradeProject_eq .builtIn .bomImport project).trans
    (congrArg (Except.map _) processorsFor_builtIn)
  have guaranteed := upgradeProject_guarantees .builtIn (by decide) (by decide) (by decide)
    (by decide) .bomImport upgraded
  exact ⟨_, _, upgraded, guaranteed⟩

end JavaMigration.Descriptor
