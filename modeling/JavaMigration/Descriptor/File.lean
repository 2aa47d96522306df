import JavaMigration.Descriptor.Upgrade
import JavaMigration.FileTree.Basic

/-!
# Descriptors in files

Reading a descriptor from a file, and what can go wrong with one.
-/

namespace JavaMigration.Descriptor

open Markup

inductive DescriptorError
  | notFound (path : Path)
  | upgrade (e : UpgradeError)
  | backup (path : Path) (e : FileError)
  | file (e : FileError)
deriving DecidableEq, Repr

namespace DescriptorError

def message : DescriptorError → String
  | notFound path => s!"Descriptor not found: {path.text}"
  | upgrade (.document (.malformed fault)) =>
    s!"Malformed descriptor at byte {fault.position}: {fault.detail}"
  | upgrade (.document .missingRoot) => "Descriptor has no root element"
  | upgrade (.missingVersion key) => s!"Upgrade table has no version for {key}"
  | backup path e => s!"Backup failed for {path.text}: {e.message}"
  | file e => s!"IO error: {e.message}"

def code : DescriptorError → String
  | notFound _ => "DESCRIPTOR_NOT_FOUND"
  | upgrade (.document (.malformed _)) => "DESCRIPTOR_MALFORMED"
  | upgrade (.document .missingRoot) => "DESCRIPTOR_MISSING_ROOT"
  | upgrade (.missingVersion _) => "DESCRIPTOR_MISSING_VERSION"
  | backup _ _ => "DESCRIPTOR_BACKUP_FAILED"
  | file _ => "IO_ERROR"

/-- The message and those of the causes beneath it. -/
def chain (e : DescriptorError) : List String :=
  match e with
  | backup _ cause => [e.message, cause.message]
  | file cause => [e.message, cause.message]
  | _ => [e.message]

end DescriptorError

def readText (t : FileTree) (p : Path) : Except DescriptorError String :=
  if t.isFile p then (t.text p).mapError .file else .error (.notFound p)

def readDocument (t : FileTree) (p : Path) : Except DescriptorError Document := do
  (Document.parse (← readText t p)).mapError (.upgrade ∘ .document)

end JavaMigration.Descriptor
