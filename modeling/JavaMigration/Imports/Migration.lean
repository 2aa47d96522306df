import JavaMigration.Imports.Statistics
import JavaMigration.Walk

/-!
# Migrating a source tree

The imports of all sources below a root are rewritten, file by file. A dry run counts what would
change and writes nothing.
-/

namespace JavaMigration.Imports

inductive MigrationError
  | rootNotFound (root : Path)
  | walk (e : WalkError)
deriving DecidableEq, Repr

namespace MigrationError

def message : MigrationError → String
  | rootNotFound root => s!"Source path does not exist: {root.text}"
  | walk e => e.message

def code : MigrationError → String
  | rootNotFound _ => "REWRITE_ROOT_NOT_FOUND"
  | walk e => e.code

end MigrationError

/-- Which imports move, and which files are too large to be looked at. -/
structure Plan where
  mappings : List Mapping
  sizeLimit : Option Nat
  dryRun : Bool
deriving DecidableEq, Repr

def Plan.ofSettings (s : Settings) (dryRun : Bool) : Plan :=
  ⟨s.mappings, s.scan.sizeLimit?, dryRun⟩

/-- Rewrites one file. A file that cannot be read is left out with a warning. -/
def migrateFile (plan : Plan) (root : Path) (state : FileTree × Statistics) (p : Path) :
    FileTree × Statistics :=
  let (t, stats) := state
  match t.textWithin plan.sizeLimit p with
  | .error e => (t, stats.warn ⟨p.text, s!"read failed: {e.message}"⟩)
  | .ok content =>
    let rewriting := rewrite plan.mappings content
    if rewriting.modified then
      let stats := stats.record (root.relativeTo p) rewriting.tally
      if plan.dryRun then (t, stats)
      else
        match t.writeText p rewriting.content with
        | .error e => (t, stats.warn ⟨p.text, s!"write failed: {e.message}"⟩)
        | .ok t => (t, stats)
    else (t, stats)

def migrate (enumerate : Enumeration) (plan : Plan) (t : FileTree) (root : Path) :
    FileTree × Except MigrationError Statistics :=
  if t.contains root then
    match enumerate t root .sources with
    | .error e => (t, .error (.walk e))
    | .ok files =>
      let stats : Statistics := { totalFiles := files.length, dryRun := plan.dryRun }
      let (t, stats) := files.foldl (migrateFile plan root) (t, stats)
      (t, .ok stats)
  else (t, .error (.rootNotFound root))

end JavaMigration.Imports
