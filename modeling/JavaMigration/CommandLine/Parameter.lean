import JavaMigration.CommandLine.Verbosity

/-!
# Parameters

What can be said on the command line: the commands, their operands, and the options that go with
them.
-/

namespace JavaMigration.CommandLine

inductive Parameter
  | output | report | dryRun | strategy | useParent | noBackup | config | quiet | verbose | help
  | version
deriving DecidableEq, Repr

namespace Parameter

/-- The name after two hyphens. -/
def long : Parameter → String
  | output => "output"
  | report => "report"
  | dryRun => "dry-run"
  | strategy => "strategy"
  | useParent => "use-parent"
  | noBackup => "no-backup"
  | config => "config"
  | quiet => "quiet"
  | verbose => "verbose"
  | help => "help"
  | version => "version"

/-- The letter after one hyphen. -/
def short? : Parameter → Option Char
  | output => some 'o'
  | config => some 'c'
  | quiet => some 'q'
  | verbose => some 'v'
  | help => some 'h'
  | version => some 'V'
  | _ => none

/-- What the value of a parameter that takes one is called. -/
def value? : Parameter → Option String
  | output => some "OUTPUT"
  | report => some "REPORT"
  | strategy => some "STRATEGY"
  | config => some "CONFIG"
  | _ => none

def takesValue (p : Parameter) : Bool :=
  p.value?.isSome

def about : Parameter → String
  | output => "JSON output path (defaults to <PROJECT>/upgrade_analysis.json)"
  | report => "Also write a Markdown report to this path"
  | dryRun => "Count replacements without modifying any file"
  | strategy => "parent-inheritance or bom-import"
  | useParent => "Shorthand for --strategy parent-inheritance"
  | noBackup => "Do not write a timestamped backup first"
  | config => "Config file (defaults to <target>/uplift.toml when present)"
  | quiet => "Quiet mode (errors only, no summaries)"
  | verbose => "Verbose mode (debug logging)"
  | help => "Print help"
  | version => "Print version"

/-- The parameters that may stand before a command. -/
def general : List Parameter := [config, quiet, verbose, help, version]

end Parameter

inductive Verb
  | analyze | migrateImports | upgradePom
deriving DecidableEq, Repr

namespace Verb

def all : List Verb := [analyze, migrateImports, upgradePom]

def name : Verb → String
  | analyze => "analyze"
  | migrateImports => "migrate-imports"
  | upgradePom => "upgrade-pom"

def about : Verb → String
  | analyze => "Analyze a project: structure, versions, javax usage, risks, workload"
  | migrateImports => "Rewrite javax.* imports to jakarta.* under a source directory"
  | upgradePom => "Upgrade a pom.xml to the JDK 21 platform"

def operand : Verb → String
  | analyze => "PROJECT"
  | migrateImports => "SRC"
  | upgradePom => "POM"

def operandAbout : Verb → String
  | analyze => "Project root directory"
  | migrateImports => "Source directory to rewrite"
  | upgradePom => "Descriptor to upgrade"

/-- The parameters that may stand after a command. -/
def parameters (v : Verb) : List Parameter :=
  let own := match v with
    | analyze => [.output, .report]
    | migrateImports => [.dryRun]
    | upgradePom => [.strategy, .useParent, .noBackup]
  own ++ [.config, .quiet, .verbose, .help]

def ofName? (name : String) : Option Verb :=
  all.find? (·.name = name)

end Verb

end JavaMigration.CommandLine
