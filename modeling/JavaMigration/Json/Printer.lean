import JavaMigration.Json.Value
import JavaMigration.Number.Decimal

/-!
# Written JSON

Two layouts: one field or item on each line, indented by two spaces a level, and everything on one
line without spaces. Empty arrays and objects take no line of their own.
-/

namespace JavaMigration.Json

open Number

/-- A character within quotes. Control characters without a short form take four hex digits. -/
def quoteChar (c : Char) : List Char :=
  if c = '"' then ['\\', '"']
  else if c = '\\' then ['\\', '\\']
  else if c = '\n' then ['\\', 'n']
  else if c = '\r' then ['\\', 'r']
  else if c = '\t' then ['\\', 't']
  else if c = '\x08' then ['\\', 'b']
  else if c = '\x0c' then ['\\', 'f']
  else if c.toNat < 32 then
    ['\\', 'u', '0', '0', Nat.digitChar (c.toNat / 16), Nat.digitChar (c.toNat % 16)]
  else [c]

def quote (s : String) : String :=
  String.ofList ('"' :: (s.toList.flatMap quoteChar ++ ['"']))

/-- The text of a value without items or fields. -/
def scalar : Value → String
  | .null => "null"
  | .bool true => "true"
  | .bool false => "false"
  | .integer n => toString n
  | .float x => x.recorded?.getD "null"
  | .string s => quote s
  | .array _ => "[]"
  | .object _ => "\x7b\x7d"

/-- A new line at the given level of nesting. -/
def newLine (depth : Nat) : String :=
  String.ofList ('\n' :: List.replicate (2 * depth) ' ')

mutual

def prettyAt (depth : Nat) : Value → String
  | .array (first :: rest) =>
    "[" ++ newLine (depth + 1) ++ prettyAt (depth + 1) first ++
      prettyItems (depth + 1) rest ++ newLine depth ++ "]"
  | .object ((key, first) :: rest) =>
    "\x7b" ++ newLine (depth + 1) ++ quote key ++ ": " ++ prettyAt (depth + 1) first ++
      prettyFields (depth + 1) rest ++ newLine depth ++ "\x7d"
  | v => scalar v

def prettyItems (depth : Nat) : List Value → String
  | [] => ""
  | v :: rest => "," ++ newLine depth ++ prettyAt depth v ++ prettyItems depth rest

def prettyFields (depth : Nat) : List (String × Value) → String
  | [] => ""
  | (key, v) :: rest =>
    "," ++ newLine depth ++ quote key ++ ": " ++ prettyAt depth v ++ prettyFields depth rest

end

/-- The text of a value with one field or item on each line. -/
def Value.pretty (v : Value) : String :=
  prettyAt 0 v

mutual

def Value.compact : Value → String
  | .array (first :: rest) => "[" ++ first.compact ++ compactItems rest ++ "]"
  | .object ((key, first) :: rest) =>
    "\x7b" ++ quote key ++ ":" ++ first.compact ++ compactFields rest ++ "\x7d"
  | v => scalar v

def compactItems : List Value → String
  | [] => ""
  | v :: rest => "," ++ v.compact ++ compactItems rest

def compactFields : List (String × Value) → String
  | [] => ""
  | (key, v) :: rest => "," ++ quote key ++ ":" ++ v.compact ++ compactFields rest

end

end JavaMigration.Json
