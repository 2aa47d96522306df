import JavaMigration.Imports.Statistics
import JavaMigration.Project.Report
import JavaMigration.Proofs.Json.Record
import JavaMigration.Proofs.Project.Usage

/-!
# Stored records read back

The statistics of a migration, the snapshot of a project and the report on it are read back from
the values that they are stored as, with all that is absent or empty in them. The one part that may
be lost are numbers that are not finite: a report with one of these is stored and then refused.
-/

namespace JavaMigration

open Json (Value)
open Json.Value

namespace Imports

theorem FileChange.decode?_encode (c : FileChange) : decode? c.encode = some c := by
  simp [decode?, encode, required?, field?_object, lookup_cons, toString?, toNat?_nat]

theorem Statistics.decode?_encode {s : Statistics} (ascending : Table.Ascending s.byNamespace) :
    decode? s.encode = some s := by
  have table : ByName.decode? toNat? (s.byNamespace.encode .nat) = some s.byNamespace :=
    ByName.decode?_encode ascending fun row _ => toNat?_nat row.2
  have warnings : Warning.decodeField? s.encode = some s.warnings :=
    Warning.decodeField?_ofFields (by simp [Warning.field]) rfl
  rw [decode?, warnings]
  simp [encode, required?, orElse?, field?_ofFields, lookup_cons, Warning.field, toNat?_nat,
    toBool?, table, toListOf?_array FileChange.decode?_encode]

end Imports

namespace Project

open Imports (Statistics)

theorem Topology.decode?_name (t : Topology) : decode? (.string t.name) = some t := by
  cases t <;> rfl

theorem RiskLevel.decode?_name (level : RiskLevel) : decode? (.string level.name) = some level := by
  cases level <;> rfl

theorem Structure.decode?_encode (s : Structure) : decode? s.encode = some s := by
  simp [decode?, encode, required?, field?_object, lookup_cons, Topology.decode?_name, toBool?,
    toNat?_nat, toListOf?_strings]

theorem Versions.decode?_encode (v : Versions) : decode? v.encode = some v := by
  have java : v.encode.optional? "java" toString? = some v.java :=
    optional?_ofFields (by simp) rfl
  have framework : v.encode.optional? "spring_boot" toString? = some v.framework :=
    optional?_ofFields (by simp) rfl
  have extension : v.encode.optional? "spring_cloud" toString? = some v.extension :=
    optional?_ofFields (by simp) rfl
  rw [decode?, java, framework, extension]
  rfl

theorem ApiUsage.decode?_encode (u : ApiUsage) : decode? u.encode = some u := by
  simp [decode?, encode, required?, field?_object, lookup_cons, toString?, toListOf?_strings]

theorem Finding.decode?_encode (f : Finding) : decode? f.encode = some f := by
  simp [decode?, encode, required?, field?_object, lookup_cons, toString?, RiskLevel.decode?_name]

/-- The tables of a snapshot are in the order of their keys, and so are the files of each of them. -/
structure Snapshot.IsOrdered (s : Snapshot) : Prop where
  usage : Table.Ascending s.namespaceUsage
  files : Table.Ascending s.namespaceFiles
  sets : ∀ row ∈ s.namespaceFiles, row.2.Pairwise (· < ·)

theorem Snapshot.decodeSet?_strings {items : List String} (ascending : items.Pairwise (· < ·)) :
    decodeSet? (.strings items) = some items := by
  rw [decodeSet?, toListOf?_strings, Option.map_some, foldl_insertAscending_of_pairwise ascending]

theorem Snapshot.decode?_encode {s : Snapshot} (ordered : s.IsOrdered) :
    decode? s.encode = some s := by
  have usage : ByName.decode? toNat? (s.namespaceUsage.encode .nat) = some s.namespaceUsage :=
    ByName.decode?_encode ordered.usage fun row _ => toNat?_nat row.2
  have files : ByName.decode? decodeSet? (s.namespaceFiles.encode .strings) =
      some s.namespaceFiles :=
    ByName.decode?_encode ordered.files fun row mem => decodeSet?_strings (ordered.sets row mem)
  have warnings : Warning.decodeField? s.encode = some s.warnings :=
    Warning.decodeField?_ofFields (by simp [Warning.field]) rfl
  rw [decode?, warnings]
  simp [encode, required?, field?_ofFields, lookup_cons, Warning.field, toString?,
    Structure.decode?_encode, Versions.decode?_encode, usage, files,
    toListOf?_array ApiUsage.decode?_encode]

theorem Snapshot.isOrdered_snapshotOf (s : Settings) (t : FileTree) (root : Path)
    (descriptors sources : List Path) : (snapshotOf s t root descriptors sources).IsOrdered := by
  let hits := results (readSources s t root sources)
  have ascending := ascending_namespaceFiles s.detection hits
  refine ⟨ascending_namespaceUsage s.detection hits, ascending, ?_⟩
  intro row mem
  have found := Table.get?_of_mem String.lt_asymm ascending mem
  exact ((records_namespaceFiles s.detection hits row.1).present row.2 found).ascending

def Workload.isFinite (w : Workload) : Bool :=
  w.hours.isFinite && w.days.isFinite && w.manualHours.isFinite

theorem Workload.decode?_encode {w : Workload} (fits : w.automationPercent < 256) :
    decode? w.encode = if w.isFinite then some w else none := by
  have percent : (toNat? (.nat w.automationPercent)).filter (· < 256) =
      some w.automationPercent := by
    simp [toNat?_nat, fits]
  cases hours : w.hours.isFinite <;> cases days : w.days.isFinite <;>
    cases manual : w.manualHours.isFinite <;>
    simp [decode?, encode, required?, field?_object, lookup_cons, toBinary64?_real, percent,
      isFinite, hours, days, manual]

structure Report.IsOrdered (r : Report) : Prop where
  usage : Table.Ascending r.namespaceUsage
  percent : r.workload.automationPercent < 256

/-- A report is read back if its numbers are finite, and refused otherwise. -/
theorem Report.decode?_encode {r : Report} (ordered : r.IsOrdered) :
    decode? r.encode = if r.workload.isFinite then some r else none := by
  have usage : ByName.decode? toNat? (r.namespaceUsage.encode .nat) = some r.namespaceUsage :=
    ByName.decode?_encode ordered.usage fun row _ => toNat?_nat row.2
  have warnings : Warning.decodeField? r.encode = some r.warnings :=
    Warning.decodeField?_ofFields (by simp [Warning.field]) rfl
  have parts : decode? r.encode =
      (Workload.decode? r.workload.encode).bind fun w => some { r with workload := w } := by
    rw [decode?, warnings]
    simp [encode, required?, field?_ofFields, lookup_cons, Warning.field, toString?, usage,
      Structure.decode?_encode, Versions.decode?_encode, toListOf?_array ApiUsage.decode?_encode,
      toListOf?_array Finding.decode?_encode]
  rw [parts, Workload.decode?_encode ordered.percent]
  cases r.workload.isFinite with
  | false => rfl
  | true => rfl

theorem Report.isOrdered_ofSnapshot {s : Snapshot} (ordered : s.IsOrdered) (risks : List Finding)
    (time : String) : (ofSnapshot s risks time).IsOrdered where
  usage := ordered.usage
  percent := by
    change 85 < 256
    decide

/--
Every record is read back as it was stored, but for a report whose numbers are not all finite. Such
a report is refused.
-/
theorem records_read_back {t : Statistics} {s : Snapshot} {r : Report}
    (ascending : Table.Ascending t.byNamespace) (ordered : s.IsOrdered) (sound : r.IsOrdered) :
    Statistics.decode? t.encode = some t ∧
      Snapshot.decode? s.encode = some s ∧
        Report.decode? r.encode = if r.workload.isFinite then some r else none :=
  ⟨Statistics.decode?_encode ascending, Snapshot.decode?_encode ordered,
    Report.decode?_encode sound⟩

theorem records_read_back_sparse :
    let t : Statistics :=
      { totalFiles := 2, modifiedFiles := 1, totalReplacements := 3, dryRun := true
        byNamespace := [("javax.mail", 1), ("javax.servlet", 2)]
        changedFiles := [⟨"A.java", 3⟩] }
    let s : Snapshot :=
      { name := "demo"
        shape := { topology := .multiModule, usesFramework := false, descriptorCount := 2
                   sourceCount := 1, modules := ["", "core"] }
        versions := { framework := some "1.5.0" }
        namespaceUsage := [("javax.servlet", 2)]
        namespaceFiles := [("javax.servlet", ["A.java", "B.java"])]
        deprecatedApis := [], warnings := [⟨"pom.xml", "not read"⟩] }
    let r := Report.ofSnapshot s (assess .builtIn s) "now"
    Statistics.decode? t.encode = some t ∧ Snapshot.decode? s.encode = some s ∧
      Report.decode? r.encode = some r := by
  intro t s r
  have ascending : Table.Ascending t.byNamespace := by unfold Table.Ascending; decide +kernel
  have ordered : s.IsOrdered := {
    usage := by unfold Table.Ascending; decide +kernel
    files := by unfold Table.Ascending; decide +kernel
    sets := by decide +kernel }
  have finite : r.workload.isFinite = true := by decide +kernel
  have sound : r.IsOrdered := Report.isOrdered_ofSnapshot ordered (assess .builtIn s) "now"
  have read := records_read_back ascending ordered sound
  rwa [if_pos finite] at read

end Project

end JavaMigration
