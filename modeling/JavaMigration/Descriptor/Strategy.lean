import JavaMigration.Text.Blank

/-!
# Upgrade strategies

How the target platform is wired into a build descriptor.
-/

namespace JavaMigration.Descriptor

inductive Strategy
  /-- The descriptor inherits from the configured parent, which brings the compiler plugin. -/
  | parentInheritance
  /-- The descriptor imports the configured bill of materials and gets the compiler plugin. -/
  | bomImport
deriving DecidableEq, Repr

namespace Strategy

def name : Strategy → String
  | parentInheritance => "parent-inheritance"
  | bomImport => "bom-import"

def installsCompilerPlugin : Strategy → Bool
  | parentInheritance => false
  | bomImport => true

/-- The spelling by which strategies are recognised: trimmed, with the letters of ASCII in lower case. -/
def normalize (s : String) : String :=
  String.ofList ((Text.trim s).toList.map Char.toLower)

def ofName? (s : String) : Option Strategy :=
  if normalize s ∈ ["parent-inheritance", "parent"] then some parentInheritance
  else if normalize s ∈ ["bom-import", "bom"] then some bomImport
  else none

/-- What is said about a name that no strategy has. -/
def unknownMessage (s : String) : String :=
  s!"unknown strategy '{normalize s}', expected 'parent-inheritance' or 'bom-import'"

theorem ofName?_name (s : Strategy) : ofName? s.name = some s := by
  cases s <;> decide

end Strategy

end JavaMigration.Descriptor
