import JavaMigration.Project.Snapshot
import JavaMigration.Settings.Basic

/-!
# Risks

What makes the migration of a project risky. Each rule raises at most one finding, in a fixed order.
-/

namespace JavaMigration.Project

open Json (Value)

inductive RiskLevel
  | low | medium | high
deriving DecidableEq, Repr

def RiskLevel.name : RiskLevel → String
  | low => "LOW"
  | medium => "MEDIUM"
  | high => "HIGH"

def RiskLevel.decode? : Value → Option RiskLevel
  | .string s =>
    if s = "LOW" then some low
    else if s = "MEDIUM" then some medium
    else if s = "HIGH" then some high
    else none
  | _ => none

structure Finding where
  level : RiskLevel
  item : String
  description : String
  impact : String
deriving DecidableEq, Repr

namespace Finding

def encode (f : Finding) : Value :=
  .object [("level", .string f.level.name), ("item", .string f.item),
    ("description", .string f.description), ("impact", .string f.impact)]

def decode? (v : Value) : Option Finding := do
  some {
    level := ← v.required? "level" RiskLevel.decode?
    item := ← v.required? "item" Value.toString?
    description := ← v.required? "description" Value.toString?
    impact := ← v.required? "impact" Value.toString? }

end Finding

/-- The greatest number of namespace usages that is still a low risk. -/
def heavyUsage : Nat := 100

/-- The Java version from which no single step leads to the target. -/
def javaRisk? (r : RiskSettings) (s : Snapshot) : Option Finding :=
  let declared := s.versions.java.getD r.assumedJavaVersion
  if declared ∈ r.ancientJavaVersions then
    some {
      level := .high
      item := "JDK version too low"
      description := s!"Current JDK {declared} is too far behind; upgrade to JDK 11 first"
      impact := "Likely to hit many incompatibilities" }
  else none

/-- A framework version from which no single step leads to the target. -/
def frameworkRisk? (r : RiskSettings) (s : Snapshot) : Option Finding := do
  let version ← s.versions.framework
  if r.obsoleteFrameworkStart.toList.isPrefixOf version.toList then
    some {
      level := .high
      item := "Spring Boot 1.x"
      description := "Spring Boot 1.x must be upgraded to 2.x first"
      impact := "Cannot upgrade directly to 3.x" }
  else none

/-- Any use of the watched namespaces, and more so a heavy one. -/
def usageRisk? (s : Snapshot) : Option Finding :=
  let total := s.totalUsage
  let description := s!"Found {total} javax namespace usages"
  if heavyUsage < total then
    some {
      level := .medium
      item := "Heavy javax usage"
      description
      impact := "Large amount of code migration work" }
  else if 0 < total then
    some {
      level := .low
      item := "javax usage"
      description
      impact := "Small amount of code migration work" }
  else none

/-- Any use of legacy APIs. -/
def apiRisk? (s : Snapshot) : Option Finding :=
  if s.deprecatedApis.isEmpty then none
  else
    some {
      level := .high
      item := "Deprecated API usage"
      description := s!"Found {s.deprecatedApis.length} kinds of deprecated API usage"
      impact := "Needs manual fixes; there may be no automatic replacement" }

/-- Several modules whose versions have to agree. -/
def moduleRisk? (s : Snapshot) : Option Finding :=
  if s.isMultiModule then
    some {
      level := .medium
      item := "Multi-module project"
      description := s!"Contains {s.shape.descriptorCount} modules"
      impact := "Dependency versions must be coordinated across modules" }
  else none

/-- The findings of all rules, in their order. -/
def assess (r : RiskSettings) (s : Snapshot) : List Finding :=
  [javaRisk? r s, frameworkRisk? r s, usageRisk? s, apiRisk? s, moduleRisk? s].filterMap id

def countHigh (findings : List Finding) : Nat :=
  findings.countP (·.level = .high)

end JavaMigration.Project
