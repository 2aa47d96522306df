import JavaMigration.Json.Table
import JavaMigration.Imports.Rewrite
import JavaMigration.Json.Printer
import JavaMigration.Warning

/-!
# Statistics of a migration

How many files and imports a rewrite of a source tree changed, by file and by namespace.
-/

namespace JavaMigration.Imports

open Json (Value)

/-- A rewritten file, by its path below the root. -/
structure FileChange where
  path : String
  replacements : Nat
deriving DecidableEq, Repr

namespace FileChange

def encode (c : FileChange) : Value :=
  .object [("path", .string c.path), ("replacements", .nat c.replacements)]

def decode? (v : Value) : Option FileChange := do
  some {
    path := ← v.required? "path" Value.toString?
    replacements := ← v.required? "replacements" Value.toNat? }

end FileChange

structure Statistics where
  totalFiles : Nat
  modifiedFiles : Nat := 0
  totalReplacements : Nat := 0
  /-- How many imports moved from a namespace, where any did. -/
  byNamespace : ByName Nat := []
  dryRun : Bool
  changedFiles : List FileChange := []
  warnings : List Warning := []
deriving DecidableEq, Repr

namespace Statistics

def record (s : Statistics) (path : String) (tally : Tally) : Statistics :=
  { s with
    modifiedFiles := s.modifiedFiles + 1
    totalReplacements := s.totalReplacements + tally.total
    byNamespace := tally.foldl (fun t (name, n) => t.count name n) s.byNamespace
    changedFiles := s.changedFiles ++ [⟨path, tally.total⟩] }

def warn (s : Statistics) (w : Warning) : Statistics :=
  { s with warnings := s.warnings ++ [w] }

/-- The counts by namespace, greater ones first and equal ones by name. -/
def namespacesByCount (s : Statistics) : List (String × Nat) :=
  s.byNamespace.mergeSort fun a b => b.2 ≤ a.2

def encode (s : Statistics) : Value :=
  .ofFields [
    ("total_files", some (.nat s.totalFiles)),
    ("modified_files", some (.nat s.modifiedFiles)),
    ("total_replacements", some (.nat s.totalReplacements)),
    ("by_package", some (s.byNamespace.encode .nat)),
    ("dry_run", some (.bool s.dryRun)),
    ("changed_files", some (.array (s.changedFiles.map FileChange.encode))),
    Warning.field s.warnings]

def decode? (v : Value) : Option Statistics := do
  some {
    totalFiles := ← v.required? "total_files" Value.toNat?
    modifiedFiles := ← v.required? "modified_files" Value.toNat?
    totalReplacements := ← v.required? "total_replacements" Value.toNat?
    byNamespace := ← v.required? "by_package" (ByName.decode? Value.toNat?)
    dryRun := ← v.required? "dry_run" Value.toBool?
    changedFiles := ← v.orElse? "changed_files" [] (Value.toListOf? FileChange.decode?)
    warnings := ← Warning.decodeField? v }

def json (s : Statistics) : String :=
  s.encode.pretty

end Statistics

end JavaMigration.Imports
