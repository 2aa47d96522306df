import JavaMigration.Number.Power

/-!
# TOML values

What a TOML document holds. Numbers with a fraction and points in time keep their text only.
-/

namespace JavaMigration.Toml

inductive Value
  | string (s : String)
  | integer (n : Int)
  | float (text : String)
  | boolean (b : Bool)
  | datetime (text : String)
  | array (items : List Value)
  | table (entries : List (String × Value))
deriving Repr, Inhabited

namespace Value

def strings (items : List String) : Value :=
  .array (items.map .string)

/-- The table of the entries that are present, in order. -/
def ofEntries (entries : List (String × Option Value)) : Value :=
  .table (entries.filterMap fun (key, value) => value.map (key, ·))

def toString? : Value → Option String
  | .string s => some s
  | _ => none

def toBool? : Value → Option Bool
  | .boolean b => some b
  | _ => none

/-- An integer of 64 bits without a sign. -/
def toUnsigned? : Value → Option Nat
  | .integer n => n.toNat?.filter (· < Number.twoTo 64)
  | _ => none

def toListOf? {α : Type} (read : Value → Option α) : Value → Option (List α)
  | .array items => items.mapM read
  | _ => none

/--
The field of a record, absent or present: the entry of a table, or the item of an array that lists
the fields in order. A point in time is a record without any of the fields; other values are none.
-/
def field? (v : Value) (position : Nat) (key : String) : Option (Option Value) :=
  match v with
  | .table entries => some (entries.lookup key)
  | .array items => some items[position]?
  | .datetime _ => some none
  | _ => none

/-- A field that has to be there. -/
def required? {α : Type} (v : Value) (position : Nat) (key : String) (read : Value → Option α) :
    Option α := do
  match ← v.field? position key with
  | some value => read value
  | none => none

/-- A field that stands for `default` where it is absent. -/
def orElse? {α : Type} (v : Value) (position : Nat) (key : String) (default : α)
    (read : Value → Option α) : Option α := do
  match ← v.field? position key with
  | some value => read value
  | none => some default

end Value

end JavaMigration.Toml
