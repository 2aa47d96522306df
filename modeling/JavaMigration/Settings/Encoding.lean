import JavaMigration.Settings.Basic
import JavaMigration.Toml.Printer
import JavaMigration.Toml.Reader

/-!
# Stored settings

Settings as TOML. Every section, and every field of a section, may be left out and then has its
built-in value; unknown fields are ignored. The entries of the tables have to be complete.
-/

namespace JavaMigration

open Toml (Value)

namespace Mapping

def decode? (v : Value) : Option Mapping := do
  some {
    source := ← v.required? 0 "from" Value.toString?
    target := ← v.required? 1 "to" Value.toString? }

def encode (m : Mapping) : Value :=
  .table [("from", .string m.source), ("to", .string m.target)]

end Mapping

namespace DeprecatedApi

def decode? (v : Value) : Option DeprecatedApi := do
  some {
    api := ← v.required? 0 "api" Value.toString?
    start := ← v.required? 1 "prefix" Value.toString? }

def encode (d : DeprecatedApi) : Value :=
  .table [("api", .string d.api), ("prefix", .string d.start)]

end DeprecatedApi

namespace Coordinate

def decode? (v : Value) : Option Coordinate := do
  some {
    groupId := ← v.required? 0 "group_id" Value.toString?
    artifactId := ← v.required? 1 "artifact_id" Value.toString?
    version := ← v.required? 2 "version" Value.toString? }

def encode (c : Coordinate) : Value :=
  .table [("group_id", .string c.groupId), ("artifact_id", .string c.artifactId),
    ("version", .string c.version)]

end Coordinate

namespace PropertyOverride

def decode? (v : Value) : Option PropertyOverride := do
  some {
    key := ← v.required? 0 "key" Value.toString?
    value := ← v.required? 1 "value" Value.toString? }

def encode (p : PropertyOverride) : Value :=
  .table [("key", .string p.key), ("value", .string p.value)]

end PropertyOverride

namespace AnnotationProcessor

def decode? (v : Value) : Option AnnotationProcessor := do
  some {
    groupId := ← v.required? 0 "group_id" Value.toString?
    artifactId := ← v.required? 1 "artifact_id" Value.toString?
    versionFrom := ← v.required? 2 "version_from" Value.toString? }

def encode (p : AnnotationProcessor) : Value :=
  .table [("group_id", .string p.groupId), ("artifact_id", .string p.artifactId),
    ("version_from", .string p.versionFrom)]

end AnnotationProcessor

namespace ScanSettings

def decode? (v : Value) : Option ScanSettings := do
  some {
    maxFileSize := ← v.orElse? 0 "max_file_size" none fun v => v.toUnsigned?.map some
    threads := ← v.orElse? 1 "threads" none fun v => v.toUnsigned?.map some
    extraIgnore := ← v.orElse? 2 "extra_ignore" [] (Value.toListOf? Value.toString?)
    followSymlinks := ← v.orElse? 3 "follow_symlinks" none fun v => v.toBool?.map some
    respectGitignore := ← v.orElse? 4 "respect_gitignore" none fun v => v.toBool?.map some }

def encode (s : ScanSettings) : Value :=
  .ofEntries [
    ("max_file_size", s.maxFileSize.map fun n => .integer n),
    ("threads", s.threads.map fun n => .integer n),
    ("extra_ignore", some (.strings s.extraIgnore)),
    ("follow_symlinks", s.followSymlinks.map .boolean),
    ("respect_gitignore", s.respectGitignore.map .boolean)]

end ScanSettings

namespace DetectionSettings

def decode? (v : Value) : Option DetectionSettings := do
  let d := builtIn
  some {
    frameworkMarker := ← v.orElse? 0 "framework_marker" d.frameworkMarker Value.toString?
    platformProperty :=
      ← v.orElse? 1 "platform_version_property" d.platformProperty Value.toString?
    extensionProperty :=
      ← v.orElse? 2 "extension_version_property" d.extensionProperty Value.toString?
    namespaces := ← v.orElse? 3 "namespaces" d.namespaces (Value.toListOf? Value.toString?)
    deprecatedApis :=
      ← v.orElse? 4 "deprecated_apis" d.deprecatedApis (Value.toListOf? DeprecatedApi.decode?) }

def encode (d : DetectionSettings) : Value :=
  .table [
    ("framework_marker", .string d.frameworkMarker),
    ("platform_version_property", .string d.platformProperty),
    ("extension_version_property", .string d.extensionProperty),
    ("namespaces", .strings d.namespaces),
    ("deprecated_apis", .array (d.deprecatedApis.map DeprecatedApi.encode))]

end DetectionSettings

namespace RiskSettings

def decode? (v : Value) : Option RiskSettings := do
  let d := builtIn
  some {
    ancientJavaVersions :=
      ← v.orElse? 0 "ancient_java_versions" d.ancientJavaVersions (Value.toListOf? Value.toString?)
    assumedJavaVersion := ← v.orElse? 1 "assumed_java_version" d.assumedJavaVersion Value.toString?
    obsoleteFrameworkStart :=
      ← v.orElse? 2 "obsolete_framework_prefix" d.obsoleteFrameworkStart Value.toString? }

def encode (r : RiskSettings) : Value :=
  .table [
    ("ancient_java_versions", .strings r.ancientJavaVersions),
    ("assumed_java_version", .string r.assumedJavaVersion),
    ("obsolete_framework_prefix", .string r.obsoleteFrameworkStart)]

end RiskSettings

namespace CompilerPlugin

def decode? (v : Value) : Option CompilerPlugin := do
  let d := builtIn
  some {
    groupId := ← v.orElse? 0 "group_id" d.groupId Value.toString?
    artifactId := ← v.orElse? 1 "artifact_id" d.artifactId Value.toString?
    version := ← v.orElse? 2 "version" d.version Value.toString?
    fork := ← v.orElse? 3 "fork" d.fork Value.toBool?
    annotationProcessors :=
      ← v.orElse? 4 "annotation_processors" d.annotationProcessors
        (Value.toListOf? AnnotationProcessor.decode?)
    compilerArgs :=
      ← v.orElse? 5 "compiler_args" d.compilerArgs (Value.toListOf? Value.toString?) }

def encode (p : CompilerPlugin) : Value :=
  .table [
    ("group_id", .string p.groupId),
    ("artifact_id", .string p.artifactId),
    ("version", .string p.version),
    ("fork", .boolean p.fork),
    ("annotation_processors", .array (p.annotationProcessors.map AnnotationProcessor.encode)),
    ("compiler_args", .strings p.compilerArgs)]

end CompilerPlugin

namespace UpgradeSettings

def decode? (v : Value) : Option UpgradeSettings := do
  let d := builtIn
  some {
    targetJavaVersion := ← v.orElse? 0 "target_java_version" d.targetJavaVersion Value.toString?
    javaProperties :=
      ← v.orElse? 1 "java_properties" d.javaProperties (Value.toListOf? Value.toString?)
    parent := ← v.orElse? 2 "parent" d.parent Coordinate.decode?
    bom := ← v.orElse? 3 "bom" d.bom Coordinate.decode?
    frameworkProperties :=
      ← v.orElse? 4 "framework_properties" d.frameworkProperties
        (Value.toListOf? PropertyOverride.decode?)
    dependencyUpgrades :=
      ← v.orElse? 5 "dependency_upgrades" d.dependencyUpgrades (Value.toListOf? Coordinate.decode?)
    compilerPlugin := ← v.orElse? 6 "compiler_plugin" d.compilerPlugin CompilerPlugin.decode? }

def encode (s : UpgradeSettings) : Value :=
  .table [
    ("target_java_version", .string s.targetJavaVersion),
    ("java_properties", .strings s.javaProperties),
    ("parent", s.parent.encode),
    ("bom", s.bom.encode),
    ("framework_properties", .array (s.frameworkProperties.map PropertyOverride.encode)),
    ("dependency_upgrades", .array (s.dependencyUpgrades.map Coordinate.encode)),
    ("compiler_plugin", s.compilerPlugin.encode)]

end UpgradeSettings

/-- The mappings in the section on imports, which has nothing else. -/
def Mapping.decodeSection? (v : Value) : Option (List Mapping) :=
  v.orElse? 0 "mappings" Mapping.builtIn (Value.toListOf? Mapping.decode?)

inductive SettingsError
  /-- The text is no TOML, or a field is missing or of the wrong type. -/
  | unreadable
  /-- A number is too large for a TOML integer. -/
  | unwritable
  | invalid (fault : SettingsFault)
deriving DecidableEq, Repr

namespace SettingsError

def message : SettingsError → String
  | unreadable => "TOML parse error: the text does not describe settings"
  | unwritable => "TOML serialize error: out-of-range value for u64 type"
  | invalid fault => "Invalid config: " ++ fault.message

def code : SettingsError → String
  | unreadable => "CONFIG_PARSE_ERROR"
  | unwritable => "CONFIG_SERIALIZE_ERROR"
  | invalid _ => "CONFIG_INVALID"

end SettingsError

namespace Settings

def decode? (v : Value) : Option Settings := do
  some {
    scan := ← v.orElse? 0 "scan" .builtIn ScanSettings.decode?
    mappings := ← v.orElse? 1 "imports" Mapping.builtIn Mapping.decodeSection?
    detection := ← v.orElse? 2 "detection" .builtIn DetectionSettings.decode?
    risk := ← v.orElse? 3 "risk" .builtIn RiskSettings.decode?
    upgrade := ← v.orElse? 4 "descriptor" .builtIn UpgradeSettings.decode? }

def encode (s : Settings) : Value :=
  .table [
    ("scan", s.scan.encode),
    ("imports", .table [("mappings", .array (s.mappings.map Mapping.encode))]),
    ("detection", s.detection.encode),
    ("risk", s.risk.encode),
    ("descriptor", s.upgrade.encode)]

/-- The settings that a text holds, if they can be worked with. -/
def ofToml (text : String) : Except SettingsError Settings :=
  match (Toml.read? text).bind decode? with
  | none => .error .unreadable
  | some s =>
    match s.fault? with
    | some fault => .error (.invalid fault)
    | none => .ok s

/-- The settings as text, unless one of their numbers takes more than 63 bits. -/
def toToml (s : Settings) : Except SettingsError String :=
  let fits (n : Option Nat) := n.all (· < Number.twoTo 63)
  if fits s.scan.maxFileSize && fits s.scan.threads then .ok (Toml.render s.encode)
  else .error .unwritable

end Settings

end JavaMigration
