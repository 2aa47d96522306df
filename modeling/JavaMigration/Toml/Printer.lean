import JavaMigration.Toml.Value

/-!
# Written TOML

A table is written as its plain entries, followed by its tables and arrays of tables under headers
of their own. An array of more than no items takes one line for each. A string takes the first of
the plain, the literal and the multi-line forms that needs no escapes, and an escaped form where none
is free of them.
-/

namespace JavaMigration.Toml

/-- The length of the longest run of `c` in `s`, where `run` is that of the run before it. -/
def longestRun (c : Char) (run longest : Nat) : List Char → Nat
  | [] => longest
  | d :: rest =>
    if d = c then longestRun c (run + 1) (max longest (run + 1)) rest
    else longestRun c 0 longest rest

/-- A control character other than a tab or a line feed. -/
def isControl (c : Char) : Bool :=
  (c.toNat < 32 && c ≠ '\t' && c ≠ '\n') || c.toNat = 127

inductive Quotation
  | basic | literal | multilineBasic | multilineLiteral
deriving DecidableEq, Repr

/-- The form in which a string is written. -/
def Quotation.choose (s : List Char) : Quotation :=
  let singles := longestRun '\'' 0 0 s
  let doubles := longestRun '"' 0 0 s
  let controls := s.any isControl
  let newline := s.contains '\n'
  let backslash := s.contains '\\'
  if !controls && !backslash && doubles = 0 && !newline then .basic
  else if !controls && singles = 0 && !newline then .literal
  else if !controls && !backslash && doubles ≤ 2 then .multilineBasic
  else if !controls && singles ≤ 2 then .multilineLiteral
  else if newline then .multilineBasic
  else .basic

/-- The four hex digits, in upper case, of a number below `2 ^ 16`. -/
def hexDigits4 (n : Nat) : List Char :=
  [n / 4096, n / 256 % 16, n / 16 % 16, n % 16].map fun d => (Nat.digitChar d).toUpper

/--
The body of a basic string. A double quote is escaped where it would be one more than `allowed` in
a row, of which `run` have been written.
-/
def escapeBody (multiline : Bool) (allowed run : Nat) : List Char → List Char
  | [] => []
  | c :: rest =>
    if c = '"' then
      if allowed ≤ run then '\\' :: '"' :: escapeBody multiline allowed 0 rest
      else '"' :: escapeBody multiline allowed (run + 1) rest
    else
      let written :=
        if c = '\x08' then ['\\', 'b']
        else if c = '\t' then ['\\', 't']
        else if c = '\n' then if multiline then ['\n'] else ['\\', 'n']
        else if c = '\x0c' then ['\\', 'f']
        else if c = '\r' then ['\\', 'r']
        else if c = '\\' then ['\\', '\\']
        else if c.toNat < 32 || c.toNat = 127 then '\\' :: 'u' :: hexDigits4 c.toNat
        else [c]
      written ++ escapeBody multiline allowed 0 rest

/-- A string with its quotes. A multi-line form of more than one line starts on a new line. -/
def quote (s : String) : String :=
  let cs := s.toList
  let start := if cs.contains '\n' then "\n" else ""
  match Quotation.choose cs with
  | .basic => "\"" ++ String.ofList (escapeBody false 0 0 cs) ++ "\""
  | .literal => "'" ++ s ++ "'"
  | .multilineBasic =>
    "\"\"\"" ++ start ++ String.ofList (escapeBody true 2 0 cs) ++ "\"\"\""
  | .multilineLiteral => "'''" ++ start ++ s ++ "'''"

def isBareKeyChar (c : Char) : Bool :=
  c.isAlphanum || c = '-' || c = '_'

def writeKey (key : String) : String :=
  if key ≠ "" && key.toList.all isBareKeyChar then key else quote key

mutual

/-- A value within a line, where an array spreads over several. -/
def writeValue : Value → String
  | .string s => quote s
  | .integer n => toString n
  | .float text => text
  | .boolean b => if b then "true" else "false"
  | .datetime text => text
  | .array [] => "[]"
  | .array (first :: rest) => "[" ++ writeItems (first :: rest) ++ "\n]"
  | .table [] => "\x7b\x7d"
  | .table (first :: rest) => "\x7b " ++ writeInline (first :: rest) ++ " \x7d"

def writeItems : List Value → String
  | [] => ""
  | v :: rest => "\n    " ++ writeValue v ++ "," ++ writeItems rest

def writeInline : List (String × Value) → String
  | [] => ""
  | [(key, v)] => writeKey key ++ " = " ++ writeValue v
  | (key, v) :: rest => writeKey key ++ " = " ++ writeValue v ++ ", " ++ writeInline rest

end

/-- A value that gets headers of its own. -/
def isTable : Value → Bool
  | .table _ => true
  | _ => false

def isSection (v : Value) : Bool :=
  match v with
  | .table _ => true
  | .array items => !items.isEmpty && items.all isTable
  | _ => false

/-- The plain entries of a table, each on a line. -/
def writeEntries (entries : List (String × Value)) : String :=
  String.join ((entries.filter fun e => !isSection e.2).map fun (key, v) =>
    writeKey key ++ " = " ++ writeValue v ++ "\n")

def writePath (path : List String) : String :=
  ".".intercalate (path.map writeKey)

/-- A part of a document: its header, if it is shown, and its plain entries. -/
structure Section where
  header : String
  body : String
deriving Repr

mutual

/-- The sections of the table at `path`. One with nothing but sections in it shows no header. -/
def sectionsOf (path : List String) (inArray : Bool) : Value → List Section
  | .table entries =>
    let body := writeEntries entries
    let header :=
      if path.isEmpty then ""
      else if inArray then "[[" ++ writePath path ++ "]]\n"
      else if body = "" && !entries.isEmpty then ""
      else "[" ++ writePath path ++ "]\n"
    ⟨header, body⟩ :: sectionsOfEntries path entries
  | .array items => sectionsOfItems path items
  | _ => []

def sectionsOfEntries (path : List String) : List (String × Value) → List Section
  | [] => []
  | (key, v) :: rest =>
    (if isSection v then sectionsOf (path ++ [key]) false v else []) ++
      sectionsOfEntries path rest

def sectionsOfItems (path : List String) : List Value → List Section
  | [] => []
  | v :: rest => sectionsOf path true v ++ sectionsOfItems path rest

end

/-- Joins the sections, with an empty line before each header but the first line of all. -/
def joinSections (first : Bool) : List Section → String
  | [] => ""
  | s :: rest =>
    let gap := if s.header = "" || first then "" else "\n"
    gap ++ s.header ++ s.body ++ joinSections (first && s.header = "" && s.body = "") rest

def render (v : Value) : String :=
  joinSections true (sectionsOf [] false v)

end JavaMigration.Toml
