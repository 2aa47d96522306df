import JavaMigration.CommandLine.Parameter

/-!
# Help

The pages that explain the commands: what one is for, how it is written, and its options in columns.
-/

namespace JavaMigration.CommandLine

def programName : String := "uplift"

def versionText : String := programName ++ " 0.1.0\n"

/-- Rows of two columns, of which the first is as wide as its widest cell. -/
def columns (rows : List (String × String)) : List String :=
  let width := (rows.map (·.1.length)).foldl max 0
  rows.map fun (left, right) =>
    "  " ++ left ++ String.ofList (List.replicate (width - left.length) ' ') ++ "  " ++ right

/-- How a parameter is written. Those without a letter keep its place free. -/
def Parameter.form (p : Parameter) : String :=
  let letter := match p.short? with
    | some c => String.ofList ['-', c, ',', ' ']
    | none => "    "
  let value := match p.value? with
    | some name => s!" <{name}>"
    | none => ""
  letter ++ "--" ++ p.long ++ value

def optionRows (parameters : List Parameter) : List String :=
  "Options:" :: columns (parameters.map fun p => (p.form, p.about))

def page (lines : List String) : String :=
  String.join (lines.map (· ++ "\n"))

def helpAbout : String := "Print this message or the help of the given subcommand(s)"

def overview : String :=
  page <|
    ["Uplift - JDK 8 to 21 and javax to jakarta migration assistant", "",
      s!"Usage: {programName} [OPTIONS] <COMMAND>", "", "Commands:"] ++
    columns ((Verb.all.map fun v => (v.name, v.about)) ++ [("help", helpAbout)]) ++
    [""] ++ optionRows Parameter.general

def Verb.page (v : Verb) : String :=
  CommandLine.page <|
    [v.about, "", s!"Usage: {programName} {v.name} [OPTIONS] <{v.operand}>", "", "Arguments:"] ++
    columns [(s!"<{v.operand}>", v.operandAbout)] ++
    [""] ++ optionRows v.parameters

def helpPage : String :=
  page <|
    [helpAbout, "", s!"Usage: {programName} help [COMMAND]...", "", "Arguments:"] ++
    columns [("[COMMAND]...", "Print help for the subcommand(s)")]

end JavaMigration.CommandLine
