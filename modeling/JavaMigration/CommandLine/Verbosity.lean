/-!
# Verbosity

How much is said about a run.
-/

namespace JavaMigration.CommandLine

/-- The levels of messages, by the least severe one that is shown. -/
inductive Verbosity
  | error | warn | debug
deriving DecidableEq, Repr

namespace Verbosity

def name : Verbosity → String
  | error => "error"
  | warn => "warn"
  | debug => "debug"

/-- The level that two flags ask for. Silence wins. -/
def ofFlags (quiet verbose : Bool) : Verbosity :=
  if quiet then error else if verbose then debug else warn

end Verbosity

end JavaMigration.CommandLine
