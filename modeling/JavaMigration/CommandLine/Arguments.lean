import JavaMigration.CommandLine.Help
import JavaMigration.Descriptor.Strategy
import JavaMigration.FileTree.Path

/-!
# Arguments

What a run is asked to do. Words are read from left to right; help is given as soon as it is asked
for, and any word that does not fit ends the reading.
-/

namespace JavaMigration.CommandLine

open Descriptor (Strategy)

/-- Why the reading of the words ends early. -/
inductive Stop
  | help | version | misuse
deriving DecidableEq, Repr

structure Given where
  flags : List Parameter := []
  values : List (Parameter × String) := []
  operand : Option String := none
  /-- The parameter whose value has to be the next word. -/
  pending : Option Parameter := none
  /-- From here on, no word is a parameter. -/
  plain : Bool := false
deriving Repr

namespace Given

def value? (g : Given) (p : Parameter) : Option String :=
  g.values.lookup p

def has (g : Given) (p : Parameter) : Bool :=
  p ∈ g.flags

/-- Takes a flag, which may be given once. -/
def setFlag (p : Parameter) (g : Given) : Except Stop Given :=
  if p = .help then .error .help
  else if p = .version then .error .version
  else if g.has p then .error .misuse
  else .ok { g with flags := p :: g.flags }

/-- Whether a text can be the value of a parameter. -/
def isValue (p : Parameter) (text : String) : Bool :=
  if p = .strategy then (Strategy.ofName? text).isSome else !text.isEmpty

/-- Takes the value of a parameter, which may be given once. -/
def setValue (p : Parameter) (text : String) (g : Given) : Except Stop Given :=
  if (g.value? p).isSome || !isValue p text then .error .misuse
  else .ok { g with values := (p, text) :: g.values, pending := none }

/-- Takes the operand, of which there is one. -/
def setOperand (text : String) (g : Given) : Except Stop Given :=
  if g.operand.isSome || text.isEmpty then .error .misuse else .ok { g with operand := some text }

/-- Takes parameters by their letters. What follows the letter of one with a value is its value. -/
def setLetters (allowed : List Parameter) (g : Given) : List Char → Except Stop Given
  | [] => .ok g
  | c :: rest =>
    match allowed.find? (·.short? = some c) with
    | none => .error .misuse
    | some p =>
      if p.takesValue then
        match rest with
        | [] => .ok { g with pending := some p }
        | '=' :: value => g.setValue p (String.ofList value)
        | value => g.setValue p (String.ofList value)
      else do setLetters allowed (← g.setFlag p) rest

/-- Takes a parameter by its name, with its value after an equals sign or in the next word. -/
def setLong (allowed : List Parameter) (g : Given) (word : List Char) : Except Stop Given :=
  let name := String.ofList (word.takeWhile (· ≠ '='))
  match allowed.find? (·.long = name), word.dropWhile (· ≠ '=') with
  | none, _ => .error .misuse
  | some p, [] => if p.takesValue then .ok { g with pending := some p } else g.setFlag p
  | some p, _ :: value =>
    if p.takesValue then g.setValue p (String.ofList value) else .error .misuse

end Given

/--
Reads words as far as they are parameters, or the operand where there is one: what they give, and
the words from the first other one on.
-/
def readWords (allowed : List Parameter) (hasOperand : Bool) (g : Given) :
    List String → Except Stop (Given × List String)
  | [] => if g.pending.isSome then .error .misuse else .ok (g, [])
  | word :: words =>
    match g.plain, g.pending, word.toList with
    | true, _, _ =>
      if hasOperand then do readWords allowed hasOperand (← g.setOperand word) words
      else .error .misuse
    | false, some _, '-' :: _ :: _ => .error .misuse
    | false, some p, _ => do readWords allowed hasOperand (← g.setValue p word) words
    | false, none, ['-', '-'] => readWords allowed hasOperand { g with plain := true } words
    | false, none, '-' :: '-' :: name => do
      readWords allowed hasOperand (← g.setLong allowed name) words
    | false, none, '-' :: c :: letters => do
      readWords allowed hasOperand (← g.setLetters allowed (c :: letters)) words
    | false, none, _ =>
      if hasOperand then do readWords allowed hasOperand (← g.setOperand word) words
      else .ok (g, word :: words)

inductive Action
  | analyze (project : Path) (output report : Option Path)
  | migrateImports (source : Path) (dryRun : Bool)
  | upgradePom (descriptor : Path) (strategy : Strategy) (backsUp : Bool)
deriving DecidableEq, Repr

structure Invocation where
  config : Option Path
  quiet : Bool
  verbose : Bool
  action : Action
deriving DecidableEq, Repr

inductive Request
  | run (i : Invocation)
  | print (text : String)
  | misuse
deriving DecidableEq, Repr

/-- Whether two parameters are given that exclude each other. -/
def Given.hasConflict (g : Given) : Bool :=
  (g.has .quiet && g.has .verbose) || ((g.value? .strategy).isSome && g.has .useParent)

/-- The action of a command with its operand. -/
def Verb.action (v : Verb) (g : Given) (operand : String) : Action :=
  let path (p : Parameter) : Option Path := (g.value? p).map Path.mk
  match v with
  | .analyze => .analyze ⟨operand⟩ (path .output) (path .report)
  | .migrateImports => .migrateImports ⟨operand⟩ (g.has .dryRun)
  | .upgradePom =>
    let strategy :=
      if g.has .useParent then .parentInheritance
      else ((g.value? .strategy).bind Strategy.ofName?).getD .bomImport
    .upgradePom ⟨operand⟩ strategy (!g.has .noBackup)

/-- The run that a command asks for, where `before` was given ahead of it and `after` behind it. -/
def Verb.invocation? (v : Verb) (before after : Given) : Option Invocation := do
  let operand ← after.operand
  if before.hasConflict || after.hasConflict then none
  else
    some {
      config := (after.value? .config <|> before.value? .config).map Path.mk
      quiet := before.has .quiet || after.has .quiet
      verbose := before.has .verbose || after.has .verbose
      action := v.action after operand }

/-- What a stop shows, where `about` is the page in question. -/
def Stop.request (about : String) : Stop → Request
  | help => .print about
  | version => .print versionText
  | misuse => .misuse

/-- What is asked for by the words after a command. -/
def requestOf (v : Verb) (before : Given) (words : List String) : Request :=
  match readWords v.parameters true {} words with
  | .error stop => stop.request v.page
  | .ok (after, _) =>
    match v.invocation? before after with
    | some i => .run i
    | none => .misuse

/-- The page that is asked for by the words after `help`. -/
def helpRequest : List String → Request
  | [] => .print overview
  | [name] =>
    match Verb.ofName? name with
    | some v => .print v.page
    | none => if name = "help" then .print helpPage else .misuse
  | _ => .misuse

/-- What a run is asked to do by its arguments. -/
def Request.read (words : List String) : Request :=
  match readWords Parameter.general false {} words with
  | .error stop => stop.request overview
  | .ok (_, []) => .misuse
  | .ok (before, name :: rest) =>
    if name = "help" then helpRequest rest
    else
      match Verb.ofName? name with
      | some v => requestOf v before rest
      | none => .misuse

end JavaMigration.CommandLine
