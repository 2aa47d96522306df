import JavaMigration.Json.Value

/-!
# Warnings

Problems with single files. Whatever raises one leaves the file out and goes on.
-/

namespace JavaMigration

open Json (Value)

structure Warning where
  path : String
  message : String
deriving DecidableEq, Repr

namespace Warning

def text (w : Warning) : String :=
  s!"{w.path}: {w.message}"

def encode (w : Warning) : Value :=
  .object [("path", .string w.path), ("message", .string w.message)]

def decode? (v : Value) : Option Warning := do
  some {
    path := ← v.required? "path" Value.toString?
    message := ← v.required? "message" Value.toString? }

/-- The field of a record that holds its warnings, left out where there are none. -/
def field (ws : List Warning) : String × Option Value :=
  ("warnings", if ws.isEmpty then none else some (.array (ws.map encode)))

def decodeField? (v : Value) : Option (List Warning) :=
  v.orElse? "warnings" [] (Value.toListOf? decode?)

end Warning

end JavaMigration
