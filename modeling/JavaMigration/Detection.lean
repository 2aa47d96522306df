import JavaMigration.Imports.Statement
import JavaMigration.Settings.Basic

/-!
# Detecting legacy imports

Which entries of the detection tables a source text imports from. Each entry is looked for on its
own and counts at most once for a text.
-/

namespace JavaMigration

/-- The positions, in ascending order, of the table entries that a text imports from. -/
structure Hits where
  namespaces : List Nat
  deprecated : List Nat
deriving DecidableEq, Repr

namespace Detection

open Imports

/-- Whether a text imports a name below a namespace. -/
def usesNamespace (namespaceName : String) (content : List Char) : Bool :=
  imports (namespaceName.toList ++ ['.']) none content

def usesApi (d : DeprecatedApi) (content : List Char) : Bool :=
  imports d.start.toList none content

/-- The positions of the elements that satisfy `p`. -/
def positions {α : Type} (p : α → Bool) (items : List α) : List Nat :=
  (items.zipIdx.filter fun (a, _) => p a).map (·.2)

def detect (d : DetectionSettings) (content : String) : Hits :=
  let s := content.toList
  ⟨positions (usesNamespace · s) d.namespaces, positions (usesApi · s) d.deprecatedApis⟩

end Detection

end JavaMigration
