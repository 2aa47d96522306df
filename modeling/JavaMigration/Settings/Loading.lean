import JavaMigration.FileTree.Basic
import JavaMigration.Settings.Encoding

/-!
# Loading settings

Settings come from a file that is asked for, from the file of the project, or are the built-in ones.
-/

namespace JavaMigration

inductive LoadError
  | unread (path : Path) (e : FileError)
  | settings (e : SettingsError)
deriving DecidableEq, Repr

namespace LoadError

def message : LoadError → String
  | unread path e => s!"Failed to read config {path.text}: {e.message}"
  | settings e => e.message

def code : LoadError → String
  | unread _ _ => "CONFIG_READ_ERROR"
  | settings e => e.code

/-- The message and that of the cause beneath it. -/
def chain (e : LoadError) : List String :=
  match e with
  | unread _ cause => [e.message, cause.message]
  | settings _ => [e.message]

end LoadError

namespace Settings

def fileName : String := "uplift.toml"

/-- The file with the settings for a root, if there are any but the built-in ones. -/
def file? (t : FileTree) (root : Path) (explicit : Option Path) : Option Path :=
  match explicit with
  | some p => some p
  | none =>
    let own := root.join ⟨fileName⟩
    if t.isFile own then some own else none

/-- The settings for a root. A file that is asked for has to exist. -/
def load (t : FileTree) (root : Path) (explicit : Option Path) : Except LoadError Settings :=
  match file? t root explicit with
  | none => .ok {}
  | some p => do
    let text ← (t.text p).mapError (.unread p)
    (Settings.ofToml text).mapError .settings

end Settings

end JavaMigration
