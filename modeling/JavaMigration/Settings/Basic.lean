import JavaMigration.Text.Blank

/-!
# Settings

The tables that steer a migration: which files are looked at, which imports move, what counts as
legacy usage, which versions are a risk and what a build descriptor is upgraded to. Each structure's
`builtIn` value applies where nothing else is configured.
-/

namespace JavaMigration

/-- How a directory tree is walked. An absent option leaves the choice to the walk. -/
structure ScanSettings where
  /-- Files with more bytes are skipped with a warning. Zero, like none, means no limit. -/
  maxFileSize : Option Nat := none
  threads : Option Nat := none
  /-- Ignore patterns beyond the ones that always apply. -/
  extraIgnore : List String := []
  followSymlinks : Option Bool := none
  respectGitignore : Option Bool := none
deriving DecidableEq, Repr

namespace ScanSettings

def builtIn : ScanSettings := {}

/-- The greatest size of a file that is read, if there is a limit. -/
def sizeLimit? (s : ScanSettings) : Option Nat :=
  s.maxFileSize.filter (0 < ·)

/-- The number of threads, where zero leaves it open. -/
def threadCount (s : ScanSettings) : Nat :=
  s.threads.getD 0

def honoursIgnoreFiles (s : ScanSettings) : Bool :=
  s.respectGitignore.getD false

end ScanSettings

/-- A namespace whose imports move to another one. -/
structure Mapping where
  source : String
  target : String
deriving DecidableEq, Repr

/-- The packages that left `javax` for `jakarta`, in the order in which they are tried. -/
def jakartaPackages : List String :=
  ["servlet", "persistence", "validation", "annotation", "transaction", "websocket", "ws.rs",
    "json", "json.bind", "xml.bind", "mail", "activation", "ejb", "jms", "security.auth",
    "security.enterprise", "inject", "interceptor", "decorator", "el", "faces", "servlet.jsp"]

def Mapping.builtIn : List Mapping :=
  jakartaPackages.map fun package => ⟨"javax." ++ package, "jakarta." ++ package⟩

/-- A legacy API, reported under a name of its own wherever an import starts with `start`. -/
structure DeprecatedApi where
  api : String
  start : String
deriving DecidableEq, Repr

/-- What counts as legacy usage, and where the declared versions stand. -/
structure DetectionSettings where
  /-- The part of an artifact name, or of a descriptor, that marks use of the framework. -/
  frameworkMarker : String
  /-- The property that declares the Java version. -/
  platformProperty : String
  /-- The property that declares the version of the framework's extension. -/
  extensionProperty : String
  /-- The namespaces whose imports are counted by file. -/
  namespaces : List String
  deprecatedApis : List DeprecatedApi
deriving DecidableEq, Repr

def DetectionSettings.builtIn : DetectionSettings where
  frameworkMarker := "spring-boot"
  platformProperty := "java.version"
  extensionProperty := "spring-cloud.version"
  namespaces := ["javax.servlet", "javax.persistence", "javax.validation", "javax.annotation",
    "javax.transaction", "javax.ws.rs"]
  deprecatedApis := [⟨"sun.misc.Unsafe", "sun.misc.Unsafe"⟩, ⟨"com.sun.*", "com.sun."⟩]

/-- Which versions make a migration risky. -/
structure RiskSettings where
  /-- The Java versions from which no single step leads to the target. -/
  ancientJavaVersions : List String
  /-- The Java version taken for a descriptor that declares none. -/
  assumedJavaVersion : String
  /-- How the framework versions start from which no single step leads to the target. -/
  obsoleteFrameworkStart : String
deriving DecidableEq, Repr

def RiskSettings.builtIn : RiskSettings where
  ancientJavaVersions := ["1.6", "1.7", "6", "7"]
  assumedJavaVersion := "8"
  obsoleteFrameworkStart := "1."

structure Coordinate where
  groupId : String
  artifactId : String
  version : String
deriving DecidableEq, Repr

/-- A property that is set wherever it is declared. -/
structure PropertyOverride where
  key : String
  value : String
deriving DecidableEq, Repr

/-- An annotation processor, at the version that the upgrade table has for another artifact. -/
structure AnnotationProcessor where
  groupId : String
  artifactId : String
  /-- The artifact whose version is taken, as `group:artifact`. -/
  versionFrom : String
deriving DecidableEq, Repr

structure CompilerPlugin where
  groupId : String
  artifactId : String
  version : String
  fork : Bool
  annotationProcessors : List AnnotationProcessor
  compilerArgs : List String
deriving DecidableEq, Repr

def CompilerPlugin.builtIn : CompilerPlugin where
  groupId := "org.apache.maven.plugins"
  artifactId := "maven-compiler-plugin"
  version := "3.11.0"
  fork := true
  annotationProcessors :=
    [⟨"org.projectlombok", "lombok", "org.projectlombok:lombok"⟩,
      ⟨"org.mapstruct", "mapstruct-processor", "org.mapstruct:mapstruct"⟩]
  compilerArgs :=
    ["-Amapstruct.suppressGeneratorTimestamp=true", "-Amapstruct.defaultComponentModel=spring",
      "--add-opens", "jdk.compiler/com.sun.tools.javac.processing=ALL-UNNAMED"]

/-- What a build descriptor is upgraded to. -/
structure UpgradeSettings where
  targetJavaVersion : String
  /-- The properties that are always set to the target version. -/
  javaProperties : List String
  parent : Coordinate
  bom : Coordinate
  frameworkProperties : List PropertyOverride
  /-- The artifacts that are pinned wherever they are declared as dependencies. -/
  dependencyUpgrades : List Coordinate
  compilerPlugin : CompilerPlugin
deriving DecidableEq, Repr

namespace UpgradeSettings

def builtIn : UpgradeSettings where
  targetJavaVersion := "21"
  javaProperties :=
    ["java.version", "maven.compiler.source", "maven.compiler.target", "maven.compiler.release"]
  parent := ⟨"com.ym", "ym-build-parent", "1.0.0-SNAPSHOT"⟩
  bom := ⟨"com.ym", "ym-dependencies-bom", "1.0.0-SNAPSHOT"⟩
  frameworkProperties := [⟨"spring-boot.version", "3.2.4"⟩, ⟨"spring-cloud.version", "2023.0.1"⟩]
  dependencyUpgrades :=
    [⟨"org.projectlombok", "lombok", "1.18.36"⟩, ⟨"org.mapstruct", "mapstruct", "1.5.5.Final"⟩,
      ⟨"com.google.guava", "guava", "33.2.1-jre"⟩, ⟨"cn.hutool", "hutool-all", "5.8.25"⟩,
      ⟨"com.baomidou", "mybatis-plus-boot-starter", "3.5.5"⟩,
      ⟨"com.mysql", "mysql-connector-j", "8.3.0"⟩,
      ⟨"org.redisson", "redisson-spring-boot-starter", "3.27.2"⟩,
      ⟨"com.alibaba.fastjson2", "fastjson2", "2.0.47"⟩]
  compilerPlugin := CompilerPlugin.builtIn

/-- The version that an artifact is pinned to: the first entry of the table for it. -/
def pinned? (s : UpgradeSettings) (groupId artifactId : String) : Option String :=
  (s.dependencyUpgrades.find? fun c => c.groupId = groupId && c.artifactId = artifactId).map
    (·.version)

/-- The version that the artifact `group:artifact` is pinned to. The group ends at the first colon. -/
def pinnedByKey? (s : UpgradeSettings) (key : String) : Option String :=
  match key.toList.dropWhile (· ≠ ':') with
  | [] => none
  | _ :: artifactId =>
    s.pinned? (String.ofList (key.toList.takeWhile (· ≠ ':'))) (String.ofList artifactId)

end UpgradeSettings

structure Settings where
  scan : ScanSettings := .builtIn
  mappings : List Mapping := Mapping.builtIn
  detection : DetectionSettings := .builtIn
  risk : RiskSettings := .builtIn
  upgrade : UpgradeSettings := .builtIn
deriving DecidableEq, Repr

inductive SettingsFault
  | emptyNamespace
  | selfMapping (source : String)
  | duplicateMapping (source : String)
  | emptyJavaVersion
  | unpinnedProcessor (p : AnnotationProcessor)
deriving DecidableEq, Repr

def SettingsFault.message : SettingsFault → String
  | .emptyNamespace => "namespace mapping with empty prefix"
  | .selfMapping source => s!"namespace mapping '{source}' maps onto itself"
  | .duplicateMapping source => s!"duplicate namespace mapping '{source}'"
  | .emptyJavaVersion => "descriptor.target_java_version is empty"
  | .unpinnedProcessor ⟨groupId, artifactId, versionFrom⟩ =>
    s!"annotation processor {groupId}:{artifactId} takes its version from '{versionFrom}', " ++
      "which is not in the upgrade table"

namespace Settings

/-- The first fault of the mappings, where `seen` are the namespaces of earlier ones. -/
def mappingFault? (seen : List String) : List Mapping → Option SettingsFault
  | [] => none
  | ⟨source, target⟩ :: rest =>
    if Text.allBlank source || Text.allBlank target then some .emptyNamespace
    else if source = target then some (.selfMapping source)
    else if source ∈ seen then some (.duplicateMapping source)
    else mappingFault? (source :: seen) rest

/-- The first fault of the settings: of the mappings, the Java version, or the processors. -/
def fault? (s : Settings) : Option SettingsFault :=
  match mappingFault? [] s.mappings with
  | some f => some f
  | none =>
    if Text.allBlank s.upgrade.targetJavaVersion then some .emptyJavaVersion
    else
      (s.upgrade.compilerPlugin.annotationProcessors.find? fun p =>
        (s.upgrade.pinnedByKey? p.versionFrom).isNone).map .unpinnedProcessor

end Settings

end JavaMigration
