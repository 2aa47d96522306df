import JavaMigration.Descriptor.Strategy
import JavaMigration.Markup.Printer
import JavaMigration.Settings.Basic

/-!
# Upgrading a descriptor

The steps that bring a build descriptor to the target platform: the parent or the bill of materials,
the properties, the pinned dependencies and the compiler plugin. A second upgrade finds what the
first one wrote and sets it to the same values.
-/

namespace JavaMigration.Descriptor

open Markup

structure DependencyChange where
  groupId : String
  artifactId : String
  /-- The version text before, as it was written. -/
  previous : Option String
  version : String
deriving DecidableEq, Repr

structure PropertyChange where
  key : String
  /-- The text before, as it was written. -/
  previous : Option String
  value : String
deriving DecidableEq, Repr

structure Changes where
  dependencies : List DependencyChange
  properties : List PropertyChange
  pluginInstalled : Bool
deriving DecidableEq, Repr

inductive UpgradeError
  | document (e : DocumentError)
  /-- The upgrade table lacks an artifact whose version an annotation processor takes. -/
  | missingVersion (key : String)
deriving DecidableEq, Repr

def withCoordinate (c : Coordinate) (e : Element) : Element :=
  e.setChildText "groupId" c.groupId
    |>.setChildText "artifactId" c.artifactId
    |>.setChildText "version" c.version

/-- Replaces every parent by the configured one, as the first child. -/
def installParent (s : UpgradeSettings) (project : Element) : Element :=
  (project.removeChildren (·.isNamed "parent")).insertFirst
    (withCoordinate s.parent (project.newChild "parent"))

def isEntryOf (c : Coordinate) (e : Element) : Bool :=
  e.isNamed "dependency" && e.childText? "groupId" = some c.groupId &&
    e.childText? "artifactId" = some c.artifactId

/-- `entry` as an import of the bill of materials at its version. -/
def asImport (c : Coordinate) (entry : Element) : Element :=
  entry.setChildText "version" c.version
    |>.setChildText "type" "pom"
    |>.setChildText "scope" "import"

/-- Applies `f` to the first element of the list that satisfies `p`. -/
def modifyFirstWhere (p : Element → Bool) (f : Element → Element) : List Element → List Element
  | [] => []
  | c :: cs => if p c then f c :: cs else c :: modifyFirstWhere p f cs

/-- Turns the first entry for the bill of materials into its import, appended if there is none. -/
def importInto (bom : Coordinate) (dependencies : Element) : Element :=
  if dependencies.children.any (isEntryOf bom) then
    { dependencies with
      children := modifyFirstWhere (isEntryOf bom) (asImport bom) dependencies.children }
  else
    dependencies.push <| asImport bom <|
      (dependencies.newChild "dependency").setChildText "groupId" bom.groupId
        |>.setChildText "artifactId" bom.artifactId

def importBom (s : UpgradeSettings) (project : Element) : Element :=
  project.updateChild "dependencyManagement" fun management =>
    management.updateChild "dependencies" (importInto s.bom)

/-- Sets each key to the target version, in order. -/
def setJavaProperties (target : String) :
    List String → Element → Element × List PropertyChange
  | [], properties => (properties, [])
  | key :: keys, properties =>
    let change := ⟨key, (properties.child? key).bind (·.text), target⟩
    let (properties, changes) := setJavaProperties target keys (properties.setChildText key target)
    (properties, change :: changes)

/-- Sets each property that is declared, in order. -/
def setFrameworkProperties :
    List PropertyOverride → Element → Element × List PropertyChange
  | [], properties => (properties, [])
  | ⟨key, value⟩ :: rest, properties =>
    match properties.child? key with
    | none => setFrameworkProperties rest properties
    | some old =>
      let (properties, changes) :=
        setFrameworkProperties rest (properties.modifyChild key (Element.withText value))
      (properties, ⟨key, old.text, value⟩ :: changes)

def setProperties (s : UpgradeSettings) (properties : Element) : Element × List PropertyChange :=
  let (properties, java) := setJavaProperties s.targetJavaVersion s.javaProperties properties
  let (properties, framework) := setFrameworkProperties s.frameworkProperties properties
  (properties, java ++ framework)

/-- Sets the properties of a project, in a new element where it has none. -/
def upgradeProperties (s : UpgradeSettings) (project : Element) : Element × List PropertyChange :=
  let properties := (project.child? "properties").getD (project.newChild "properties")
  (project.updateChild "properties" fun p => (setProperties s p).1, (setProperties s properties).2)

/-- What pinning does to an entry of a list of dependencies, if the upgrade table has it. -/
def pinning? (s : UpgradeSettings) (entry : Element) : Option DependencyChange := do
  if entry.isNamed "dependency" then
    let groupId ← entry.childText? "groupId"
    let artifactId ← entry.childText? "artifactId"
    let version ← s.pinned? groupId artifactId
    some ⟨groupId, artifactId, (entry.child? "version").bind (·.text), version⟩
  else none

def pinEntry (s : UpgradeSettings) (entry : Element) : Element :=
  match pinning? s entry with
  | some change => entry.setChildText "version" change.version
  | none => entry

/-- Pins the entries of `e` if it is a list of dependencies. -/
def pinEntries (s : UpgradeSettings) (e : Element) : Element :=
  if e.isNamed "dependencies" then { e with children := e.children.map (pinEntry s) } else e

/-- The entries of `e` that are pinned, if it is a list of dependencies. -/
def pinnings (s : UpgradeSettings) (e : Element) : List DependencyChange :=
  if e.isNamed "dependencies" then e.children.filterMap (pinning? s) else []

/-- Pins the dependencies at any depth, reported list by list in document order. -/
def pinDependencies (s : UpgradeSettings) (project : Element) : Element × List DependencyChange :=
  (project.mapDescendants fun _ => pinEntries s, project.descendants.flatMap (pinnings s))

/-- The annotation processors at the versions that the upgrade table has for them. -/
def processorPaths (s : UpgradeSettings) : Except UpgradeError (List Coordinate) :=
  s.compilerPlugin.annotationProcessors.mapM fun p =>
    match s.pinnedByKey? p.versionFrom with
    | some version => .ok ⟨p.groupId, p.artifactId, version⟩
    | none => .error (.missingVersion p.versionFrom)

/-- The configuration of the compiler plugin, with its processors and arguments. -/
def configure (s : UpgradeSettings) (processors : List Coordinate) (configuration : Element) :
    Element :=
  configuration.setChildText "source" s.targetJavaVersion
    |>.setChildText "target" s.targetJavaVersion
    |>.setChildText "release" s.targetJavaVersion
    |>.setChildText "fork" (if s.compilerPlugin.fork then "true" else "false")
    |>.updateChild "annotationProcessorPaths" (fun paths =>
      { paths with children := paths.children ++
          processors.map fun p => withCoordinate p (paths.newChild "path") })
    |>.updateChild "compilerArgs" (fun args =>
      { args with children := args.children ++
          s.compilerPlugin.compilerArgs.map fun arg => args.newTextChild "arg" arg })

/-- The plugin element, with the qualifier of the list it goes into. -/
def pluginFor (s : UpgradeSettings) (processors : List Coordinate) (plugins : Element) : Element :=
  let plugin := s.compilerPlugin
  (withCoordinate ⟨plugin.groupId, plugin.artifactId, plugin.version⟩ (plugins.newChild "plugin"))
    |>.updateChild "configuration" (configure s processors)

def isCompilerPlugin (s : UpgradeSettings) (e : Element) : Bool :=
  e.isNamed "plugin" && e.childText? "artifactId" = some s.compilerPlugin.artifactId

/-- Replaces the compiler plugins of a project by the configured one, as the last plugin. -/
def installPlugin (s : UpgradeSettings) (processors : List Coordinate) (project : Element) :
    Element :=
  project.updateChild "build" fun build =>
    build.updateChild "plugins" fun plugins =>
      plugins.replaceChildren (isCompilerPlugin s) (pluginFor s processors plugins)

def upgradeProject (s : UpgradeSettings) (strategy : Strategy) (project : Element) :
    Except UpgradeError (Element × Changes) := do
  let processors ← if strategy.installsCompilerPlugin then processorPaths s else .ok []
  let project := match strategy with
    | .parentInheritance => installParent s project
    | .bomImport => importBom s project
  let (project, properties) := upgradeProperties s project
  let (project, dependencies) := pinDependencies s project
  let project :=
    if strategy.installsCompilerPlugin then installPlugin s processors project else project
  .ok (project, ⟨dependencies, properties, strategy.installsCompilerPlugin⟩)

def upgradeDocument (s : UpgradeSettings) (strategy : Strategy) (d : Document) :
    Except UpgradeError (Document × Changes) := do
  let (root, changes) ← upgradeProject s strategy d.root
  .ok ({ d with root }, changes)

def upgradeText (s : UpgradeSettings) (strategy : Strategy) (xml : String) :
    Except UpgradeError (String × Changes) := do
  let d ← (Document.parse xml).mapError .document
  let (d, changes) ← upgradeDocument s strategy d
  .ok (d.render, changes)

end JavaMigration.Descriptor
