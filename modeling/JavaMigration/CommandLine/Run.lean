import JavaMigration.CommandLine.Arguments
import JavaMigration.CommandLine.Summary
import JavaMigration.Imports.Migration
import JavaMigration.Project.Scan
import JavaMigration.Settings.Loading

/-!
# Runs

What the program does to a file tree, and what it says. A run that fails says why, from the step
that failed down to the cause.
-/

namespace JavaMigration.CommandLine

/-- The point in time of a run, as reports and backups show it. -/
structure Moment where
  time : String
  stamp : String
deriving DecidableEq, Repr

/-- Why a run failed: messages, each with its cause after it, and the code of the kind of failure. -/
structure Failure where
  chain : List String
  code : Option String := none
deriving DecidableEq, Repr

def Failure.message (f : Failure) : String :=
  let code := match f.code with
    | some code => s!" [{code}]"
    | none => ""
  s!"{programName} error: " ++ ": ".intercalate f.chain ++ code

/-- The tree after a command, with what is shown or why it failed. -/
abbrev Attempt := FileTree × Except Failure String

/-- A path has to lead somewhere. -/
def ensureExists (t : FileTree) (what : String) (p : Path) : Except Failure Unit :=
  if t.contains p then .ok () else .error ⟨[s!"{what} does not exist: {p.text}"], none⟩

def loadSettings (t : FileTree) (config : Option Path) (root : Path) : Except Failure Settings :=
  let context := match config with
    | some p => s!"failed to load config {p.text}"
    | none => s!"failed to load config for {root.text}"
  (Settings.load t root config).mapError fun e => ⟨context :: e.chain, some e.code⟩

def writeText (t : FileTree) (p : Path) (s : String) : Except Failure FileTree :=
  (t.writeText p s).mapError fun e => ⟨[s!"failed to write {p.text}", e.message], none⟩

def shown (quiet : Bool) (summary : String) : String :=
  if quiet then "" else summary

def analysisFile : Path := ⟨"upgrade_analysis.json"⟩

def statisticsFile : Path := ⟨"import_migration_stats.json"⟩

def reportOn (m : Moment) (t : FileTree) (config : Option Path) (project : Path) :
    Except Failure Project.Report := do
  ensureExists t "project directory" project
  let settings ← loadSettings t config project
  (Project.analyze settings m.time t project).mapError fun e =>
    ⟨[s!"failed to analyze {project.text}", e.message], some e.code⟩

/-- Writes the report on a project to its files. The record is left where the page cannot be written. -/
def analyze (m : Moment) (t : FileTree) (i : Invocation) (project : Path)
    (output markdown : Option Path) : Attempt :=
  let json := output.getD (project.join analysisFile)
  let recorded := do
    let r ← reportOn m t i.config project
    .ok (r, ← writeText t json r.json)
  match recorded with
  | .error f => (t, .error f)
  | .ok (r, t) =>
    let summary := shown i.quiet (analysisSummary r json markdown)
    match markdown with
    | none => (t, .ok summary)
    | some p =>
      match writeText t p r.markdown with
      | .error f => (t, .error f)
      | .ok t => (t, .ok summary)

/-- The file for the statistics of a migration, next to the source directory. -/
def statisticsPath (t : FileTree) (source : Path) : Path :=
  match (t.resolve source).parent? with
  | some directory => directory.join statisticsFile
  | none => statisticsFile

/-- Migrates a source directory. The statistics are written if any file was. -/
def migrateImports (t : FileTree) (i : Invocation) (source : Path) (dryRun : Bool) : Attempt :=
  let prepared := do
    ensureExists t "source directory" source
    loadSettings t i.config source
  match prepared with
  | .error f => (t, .error f)
  | .ok s =>
    match Imports.migrate (walk s.scan) (.ofSettings s dryRun) t source with
    | (t, .error e) =>
      (t, .error ⟨[s!"failed to migrate imports under {source.text}", e.message], some e.code⟩)
    | (t, .ok stats) =>
      if !dryRun && 0 < stats.modifiedFiles then
        let p := statisticsPath t source
        match writeText t p stats.json with
        | .error f => (t, .error f)
        | .ok t => (t, .ok (shown i.quiet (migrationSummary stats (some p))))
      else (t, .ok (shown i.quiet (migrationSummary stats none)))

/-- Upgrades a descriptor. Its directory is the root for the settings. -/
def upgradePom (m : Moment) (t : FileTree) (i : Invocation) (descriptor : Path)
    (o : Descriptor.Options) : Attempt :=
  let prepared := do
    ensureExists t "descriptor" descriptor
    loadSettings t i.config (descriptor.parent?.getD ⟨"."⟩)
  match prepared with
  | .error f => (t, .error f)
  | .ok s =>
    match Descriptor.upgradeFile s.upgrade o m.stamp t descriptor with
    | (t, .error e) =>
      (t, .error ⟨s!"failed to upgrade {descriptor.text}" :: e.chain, some e.code⟩)
    | (t, .ok summary) => (t, .ok (shown i.quiet (upgradeSummary summary)))

def perform (m : Moment) (t : FileTree) (i : Invocation) : Attempt :=
  match i.action with
  | .analyze project output report => analyze m t i project output report
  | .migrateImports source dryRun => migrateImports t i source dryRun
  | .upgradePom descriptor strategy backsUp => upgradePom m t i descriptor ⟨strategy, backsUp⟩

structure Outcome where
  exitCode : Nat
  output : String := ""
  error : Option String := none
deriving DecidableEq, Repr

/-- Runs the program on its arguments. -/
def run (m : Moment) (t : FileTree) (arguments : List String) : FileTree × Outcome :=
  match Request.read arguments with
  | .misuse => (t, { exitCode := 2 })
  | .print text => (t, { exitCode := 0, output := text })
  | .run i =>
    match perform m t i with
    | (t, .ok output) => (t, { exitCode := 0, output })
    | (t, .error f) => (t, { exitCode := 1, error := some f.message })

end JavaMigration.CommandLine
