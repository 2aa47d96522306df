import JavaMigration.Json.Table
import JavaMigration.Warning

/-!
# Snapshots of a project

Everything that a scan finds out about a project: its shape, the versions it declares and the
legacy imports of its sources.
-/

namespace JavaMigration.Project

open Json (Value)

inductive Topology
  | singleModule | multiModule
deriving DecidableEq, Repr

def Topology.name : Topology → String
  | singleModule => "single-module"
  | multiModule => "multi-module"

def Topology.decode? : Value → Option Topology
  | .string s =>
    if s = "single-module" then some singleModule
    else if s = "multi-module" then some multiModule
    else none
  | _ => none

structure Structure where
  topology : Topology
  /-- Some descriptor mentions the framework. -/
  usesFramework : Bool
  descriptorCount : Nat
  sourceCount : Nat
  /-- The directories of the descriptors, for more than one module. -/
  modules : List String
deriving DecidableEq, Repr

def Structure.encode (s : Structure) : Value :=
  .object [
    ("type", .string s.topology.name),
    ("is_spring_boot", .bool s.usesFramework),
    ("pom_count", .nat s.descriptorCount),
    ("java_files_count", .nat s.sourceCount),
    ("modules", .strings s.modules)]

def Structure.decode? (v : Value) : Option Structure := do
  some {
    topology := ← v.required? "type" Topology.decode?
    usesFramework := ← v.required? "is_spring_boot" Value.toBool?
    descriptorCount := ← v.required? "pom_count" Value.toNat?
    sourceCount := ← v.required? "java_files_count" Value.toNat?
    modules := ← v.required? "modules" (Value.toListOf? Value.toString?) }

/-- The versions that the root descriptor declares. -/
structure Versions where
  java : Option String := none
  framework : Option String := none
  extension : Option String := none
deriving DecidableEq, Repr

def Versions.encode (v : Versions) : Value :=
  .ofFields [
    ("java", v.java.map .string),
    ("spring_boot", v.framework.map .string),
    ("spring_cloud", v.extension.map .string)]

def Versions.decode? (v : Value) : Option Versions := do
  some {
    java := ← v.optional? "java" Value.toString?
    framework := ← v.optional? "spring_boot" Value.toString?
    extension := ← v.optional? "spring_cloud" Value.toString? }

/-- The sources that use a legacy API. -/
structure ApiUsage where
  api : String
  files : List String
deriving DecidableEq, Repr

def ApiUsage.encode (u : ApiUsage) : Value :=
  .object [("api", .string u.api), ("files", .strings u.files)]

def ApiUsage.decode? (v : Value) : Option ApiUsage := do
  some {
    api := ← v.required? "api" Value.toString?
    files := ← v.required? "files" (Value.toListOf? Value.toString?) }

structure Snapshot where
  name : String
  shape : Structure
  versions : Versions
  /-- How many sources import from a namespace. -/
  namespaceUsage : ByName Nat
  /-- Which sources import from a namespace. -/
  namespaceFiles : ByName (List String)
  /-- The legacy APIs that some source uses, in the order of the detection table. -/
  deprecatedApis : List ApiUsage
  warnings : List Warning
deriving DecidableEq, Repr

namespace Snapshot

def encode (s : Snapshot) : Value :=
  .ofFields [
    ("project_name", some (.string s.name)),
    ("structure", some s.shape.encode),
    ("versions", some s.versions.encode),
    ("namespace_usage", some (s.namespaceUsage.encode .nat)),
    ("namespace_files", some (s.namespaceFiles.encode .strings)),
    ("deprecated_apis", some (.array (s.deprecatedApis.map ApiUsage.encode))),
    Warning.field s.warnings]

/-- The ascending list without repetitions of the strings in an array. -/
def decodeSet? (v : Value) : Option (List String) :=
  (Value.toListOf? Value.toString? v).map fun items => items.foldl (fun s t => insertAscending t s) []

def decode? (v : Value) : Option Snapshot := do
  some {
    name := ← v.required? "project_name" Value.toString?
    shape := ← v.required? "structure" Structure.decode?
    versions := ← v.required? "versions" Versions.decode?
    namespaceUsage := ← v.required? "namespace_usage" (ByName.decode? Value.toNat?)
    namespaceFiles := ← v.required? "namespace_files" (ByName.decode? decodeSet?)
    deprecatedApis := ← v.required? "deprecated_apis" (Value.toListOf? ApiUsage.decode?)
    warnings := ← Warning.decodeField? v }

def isMultiModule (s : Snapshot) : Bool :=
  s.shape.topology = .multiModule

/-- The sum of the counts of all namespaces. -/
def totalUsage (s : Snapshot) : Nat :=
  s.namespaceUsage.total

end Snapshot

end JavaMigration.Project
