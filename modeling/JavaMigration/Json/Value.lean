import JavaMigration.Number.Binary64

/-!
# JSON values

The values that records are stored as, and the access to the fields of an object.
-/

namespace JavaMigration.Json

open Number

inductive Value
  | null
  | bool (b : Bool)
  | integer (n : Int)
  | float (x : Binary64)
  | string (s : String)
  | array (items : List Value)
  /-- An object with its fields in order. -/
  | object (fields : List (String × Value))
deriving Repr, Inhabited

namespace Value

/-- The object with the fields that are present, in order. -/
def ofFields (fields : List (String × Option Value)) : Value :=
  .object (fields.filterMap fun (key, value) => value.map (key, ·))

def nat (n : Nat) : Value :=
  .integer n

/-- A number, or null for one that is not finite, since there is no text for it. -/
def real (x : Binary64) : Value :=
  if x.isFinite then .float x else .null

def strings (items : List String) : Value :=
  .array (items.map .string)

def optional (s : Option String) : Value :=
  match s with
  | some s => .string s
  | none => .null

/-- The value of a field; of several with the same key, the last. -/
def field? (v : Value) (key : String) : Option Value :=
  match v with
  | .object fields => (fields.reverse.find? fun f => f.1 = key).map (·.2)
  | _ => none

def toString? : Value → Option String
  | .string s => some s
  | _ => none

def toBool? : Value → Option Bool
  | .bool b => some b
  | _ => none

def toNat? : Value → Option Nat
  | .integer n => n.toNat?
  | _ => none

/-- A number as binary64, rounded if it is written as an integer. -/
def toBinary64? : Value → Option Binary64
  | .float x => some x
  | .integer n => some (.nearest (n < 0) (n.natAbs * Binary64.one) 1)
  | _ => none

def toList? : Value → Option (List Value)
  | .array items => some items
  | _ => none

def toFields? : Value → Option (List (String × Value))
  | .object fields => some fields
  | _ => none

def toListOf? {α : Type} (read : Value → Option α) (v : Value) : Option (List α) := do
  (← v.toList?).mapM read

/-- The field `key`, read by `read`. It has to be there. -/
def required? {α : Type} (v : Value) (key : String) (read : Value → Option α) : Option α := do
  read (← v.field? key)

/-- The field `key`, read by `read`, or `default` if it is absent. -/
def orElse? {α : Type} (v : Value) (key : String) (default : α) (read : Value → Option α) :
    Option α :=
  match v.field? key with
  | some value => read value
  | none => some default

/-- The field `key`, which may be absent or null. -/
def optional? {α : Type} (v : Value) (key : String) (read : Value → Option α) :
    Option (Option α) :=
  match v.field? key with
  | none => some none
  | some .null => some none
  | some value => (read value).map some

end Value

end JavaMigration.Json
