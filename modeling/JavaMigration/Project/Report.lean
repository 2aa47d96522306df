import JavaMigration.Json.Printer
import JavaMigration.Project.Workload

/-!
# Analysis reports

What an analysis says about a project: the snapshot without the lists of files, the risks and the
workload, as a record and as a page to read.
-/

namespace JavaMigration.Project

open Json (Value)

structure Report where
  name : String
  time : String
  shape : Structure
  versions : Versions
  namespaceUsage : ByName Nat
  deprecatedApis : List ApiUsage
  risks : List Finding
  workload : Workload
  warnings : List Warning
deriving DecidableEq, Repr

namespace Report

/-- The report on a snapshot, with the given findings, at a point in time. -/
def ofSnapshot (s : Snapshot) (risks : List Finding) (time : String) : Report where
  name := s.name
  time
  shape := s.shape
  versions := s.versions
  namespaceUsage := s.namespaceUsage
  deprecatedApis := s.deprecatedApis
  risks
  workload := Workload.estimate s risks
  warnings := s.warnings

def encode (r : Report) : Value :=
  .ofFields [
    ("project_name", some (.string r.name)),
    ("analysis_time", some (.string r.time)),
    ("structure", some r.shape.encode),
    ("versions", some r.versions.encode),
    ("namespace_usage", some (r.namespaceUsage.encode .nat)),
    ("deprecated_apis", some (.array (r.deprecatedApis.map ApiUsage.encode))),
    ("risks", some (.array (r.risks.map Finding.encode))),
    ("workload_estimate", some r.workload.encode),
    Warning.field r.warnings]

def decode? (v : Value) : Option Report := do
  some {
    name := ← v.required? "project_name" Value.toString?
    time := ← v.required? "analysis_time" Value.toString?
    shape := ← v.required? "structure" Structure.decode?
    versions := ← v.required? "versions" Versions.decode?
    namespaceUsage := ← v.required? "namespace_usage" (ByName.decode? Value.toNat?)
    deprecatedApis := ← v.required? "deprecated_apis" (Value.toListOf? ApiUsage.decode?)
    risks := ← v.required? "risks" (Value.toListOf? Finding.decode?)
    workload := ← v.required? "workload_estimate" Workload.decode?
    warnings := ← Warning.decodeField? v }

def json (r : Report) : String :=
  r.encode.pretty

def yesNo (b : Bool) : String :=
  if b then "yes" else "no"

/-- The lines of a section that lists items, or says that there are none. -/
def listing (none : String) (items : List String) : List String :=
  if items.isEmpty then [none] else items

def riskLines (f : Finding) : List String :=
  [s!"**[{f.level.name}] {f.item}**", s!"   - Description: {f.description}",
    s!"   - Impact: {f.impact}", ""]

/-- The page, line by line. -/
def markdownLines (r : Report) : List String :=
  [s!"# JDK upgrade analysis - {r.name}", "",
    s!"**Analysis time**: {r.time}", "",
    "## Project overview", "",
    s!"- **Project type**: {r.shape.topology.name}",
    s!"- **Spring Boot**: {yesNo r.shape.usesFramework}",
    s!"- **Descriptors**: {r.shape.descriptorCount}",
    s!"- **Java files**: {r.shape.sourceCount}", "",
    "## Declared versions", "",
    "- **JDK**: " ++ r.versions.java.getD "not declared",
    "- **Spring Boot**: " ++ r.versions.framework.getD "not used",
    "- **Spring Cloud**: " ++ r.versions.extension.getD "not used", "",
    "## Code migration", "",
    "### javax namespace usage", ""] ++
  listing "No javax namespace usage found"
    (r.namespaceUsage.map fun (name, count) => s!"- `{name}`: {count} files") ++
  ["", "### Deprecated APIs", ""] ++
  listing "No deprecated API usage found"
    (r.deprecatedApis.map fun usage => s!"- **{usage.api}**: {usage.files.length} files") ++
  ["", "## Risks", ""] ++
  (if r.risks.isEmpty then ["No risks found", ""] else r.risks.flatMap riskLines) ++
  ["## Workload estimate", "",
    s!"- **Estimated hours**: {r.workload.hours.plain}",
    s!"- **Estimated days**: {r.workload.days.plain}",
    s!"- **Automation coverage**: {r.workload.automationPercent}%",
    s!"- **Manual work hours**: {r.workload.manualHours.plain}"] ++
  (if r.warnings.isEmpty then []
    else ["", "## Warnings", ""] ++ r.warnings.map fun w => "- " ++ w.text)

/-- The page to read. -/
def markdown (r : Report) : String :=
  String.join (r.markdownLines.map (· ++ "\n"))

end Report

end JavaMigration.Project
