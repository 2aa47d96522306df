import JavaMigration.CommandLine.Help
import JavaMigration.Descriptor.InPlace
import JavaMigration.Imports.Statistics
import JavaMigration.Project.Report

/-!
# Summaries

What a finished run says about its results.
-/

namespace JavaMigration.CommandLine

open Project (Report RiskLevel)

def rule : String :=
  String.ofList (List.replicate 60 '=')

def warningLines (warnings : List Warning) : List String :=
  warnings.map fun w => "warning: " ++ w.text

def levelMark : RiskLevel → String
  | .high => "!!"
  | .medium => "! "
  | .low => "  "

def riskLines (risks : List Project.Finding) : List String :=
  ["", "Risks:"] ++ (if risks.isEmpty then ["  none"] else []) ++
  risks.flatMap fun f =>
    [s!"  {levelMark f.level} [{f.level.name}] {f.item}", s!"       {f.description}"]

/-- The summary of an analysis, by its report and the files it was written to. -/
def analysisSummary (r : Report) (json : Path) (markdown : Option Path) : String :=
  page <|
    [s!"Project: {r.name}", rule,
      s!"Structure: {r.shape.topology.name} ({r.shape.descriptorCount} descriptors, " ++
        s!"{r.shape.sourceCount} java files, " ++
        s!"spring boot: {Report.yesNo r.shape.usesFramework})",
      "JDK:          " ++ r.versions.java.getD "not declared",
      "Spring Boot:  " ++ r.versions.framework.getD "not used",
      "Spring Cloud: " ++ r.versions.extension.getD "not used"] ++
    (if r.namespaceUsage.isEmpty then [] else ["", "javax usage:"]) ++
    (r.namespaceUsage.map fun (name, count) => s!"  {name}: {count} files") ++
    (r.deprecatedApis.map fun usage =>
      s!"Deprecated API {usage.api}: {usage.files.length} files") ++
    riskLines r.risks ++
    ["", "Workload:",
      s!"  estimated hours:     {r.workload.hours.plain}",
      s!"  estimated days:      {r.workload.days.plain}",
      s!"  automation coverage: {r.workload.automationPercent}%",
      s!"  manual work hours:   {r.workload.manualHours.plain}"] ++
    warningLines r.warnings ++
    ["", s!"Analysis written to {json.text}"] ++
    (markdown.toList.map fun p => s!"Report written to {p.text}")

/-- The summary of a migration, by its statistics and the file they were written to. -/
def migrationSummary (s : Imports.Statistics) (written : Option Path) : String :=
  page <|
    (if s.dryRun then ["[dry run] no files were modified"] else []) ++
    (s.changedFiles.map fun c => s!"  {c.path} ({c.replacements} replacements)") ++
    [rule,
      s!"Total files:        {s.totalFiles}",
      s!"Modified files:     {s.modifiedFiles}",
      s!"Total replacements: {s.totalReplacements}"] ++
    (if s.byNamespace.isEmpty then [] else ["", "By package:"]) ++
    (s.namespacesByCount.map fun (name, count) => s!"  {name}: {count}") ++
    warningLines s.warnings ++
    (written.toList.flatMap fun p => ["", s!"Stats written to {p.text}"])

def propertyLine (c : Descriptor.PropertyChange) : String :=
  match c.previous with
  | some previous => s!"  property {c.key}: {previous} -> {c.value}"
  | none => s!"  property {c.key}: {c.value} (added)"

def upgradeSummary (s : Descriptor.Summary) : String :=
  page <|
    [s!"Upgraded {s.path.text} ({s.strategy.name})"] ++
    (s.backup.toList.map fun p => s!"  backup: {p.text}") ++
    s.changes.properties.map propertyLine ++
    (s.changes.dependencies.map fun d =>
      s!"  dependency {d.groupId}:{d.artifactId} -> {d.version}") ++
    (if s.changes.pluginInstalled then ["  compiler plugin installed"] else []) ++
    ["Verify with: mvn clean compile"]

end JavaMigration.CommandLine
