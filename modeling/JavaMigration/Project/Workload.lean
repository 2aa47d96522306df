import JavaMigration.Number.Binary64
import JavaMigration.Project.Risk

/-!
# Workload

The effort that a migration takes, in hours that add up from the size of a project, its legacy
imports, its high risks and its modules.
-/

namespace JavaMigration.Project

open Json (Value)
open Number

structure Workload where
  hours : Binary64
  days : Binary64
  automationPercent : Nat
  manualHours : Binary64
deriving DecidableEq, Repr

namespace Workload

/-- The hours for more than so many source files: the first tier that applies counts. -/
def sizeTiers : List (Nat × Nat) := [(500, 8), (200, 4), (50, 2)]

/-- The hours of every migration and of the tier that its number of sources is in. -/
def baseHours (sourceCount : Nat) : Binary64 :=
  match sizeTiers.find? fun tier => tier.1 < sourceCount with
  | some (_, extra) => .ofNat 2 + .ofNat extra
  | none => .ofNat 2

/-- The hours, before any rounding to a decimal. -/
def exactHours (s : Snapshot) (findings : List Finding) : Binary64 :=
  let hours := baseHours s.shape.sourceCount
  let hours := hours + .ofNat s.totalUsage * .ofQuotient 5 100
  let hours := hours + .ofNat (countHigh findings) * .ofNat 2
  if s.isMultiModule then hours + .ofNat s.shape.descriptorCount * .ofQuotient 1 2 else hours

/-- The effort for a project with the given findings. A day has eight hours. -/
def estimate (s : Snapshot) (findings : List Finding) : Workload :=
  let hours := exactHours s findings
  { hours := hours.roundTenth
    days := (hours.divNat 8).roundTenth
    automationPercent := 85
    manualHours := (hours * .ofQuotient 15 100).roundTenth }

def encode (w : Workload) : Value :=
  .object [
    ("estimated_hours", .real w.hours),
    ("estimated_days", .real w.days),
    ("automation_coverage_percent", .nat w.automationPercent),
    ("manual_work_hours", .real w.manualHours)]

def decode? (v : Value) : Option Workload := do
  some {
    hours := ← v.required? "estimated_hours" Value.toBinary64?
    days := ← v.required? "estimated_days" Value.toBinary64?
    automationPercent :=
      ← v.required? "automation_coverage_percent" fun v => v.toNat?.filter (· < 256)
    manualHours := ← v.required? "manual_work_hours" Value.toBinary64? }

end Workload

end JavaMigration.Project
