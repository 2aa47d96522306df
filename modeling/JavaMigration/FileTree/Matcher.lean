import JavaMigration.FileTree.Path

/-!
# Kinds of files

The build descriptors and the sources of a project are told by their names.
-/

namespace JavaMigration

inductive FileMatcher
  /-- The files of exactly this name. -/
  | named (name : String)
  /-- The files with this extension, which is given without its point. -/
  | extension (extension : String)
deriving DecidableEq, Repr

namespace FileMatcher

def descriptorName : String := "pom.xml"

def descriptors : FileMatcher := named descriptorName

def sources : FileMatcher := extension "java"

def accepts (m : FileMatcher) (p : Path) : Bool :=
  match m with
  | named name => p.fileName? = some (Text.bytes name)
  | extension e => p.extension? = some (Text.bytes e)

end FileMatcher

end JavaMigration
