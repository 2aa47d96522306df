import JavaMigration.Json.Value
import JavaMigration.Table

/-!
# Records of tables

Tables from names as objects with the names as keys.
-/

namespace JavaMigration.ByName

open Json (Value)

variable {α : Type}

def encode (f : α → Value) (t : ByName α) : Value :=
  .object (t.map fun (name, a) => (name, f a))

/-- The table that an object holds. Of several fields with one name the last counts. -/
def decode? (read : Value → Option α) (v : Value) : Option (ByName α) := do
  (← v.toFields?).foldlM (fun t (name, value) => (read value).map fun a => t.insert name a) []

end JavaMigration.ByName
