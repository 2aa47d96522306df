import JavaMigration.Descriptor.File
import JavaMigration.Project.Snapshot

/-!
# Declared versions

The versions that a descriptor declares: those of the platform and of the framework's extension in
its properties, that of the framework by its parent.
-/

namespace JavaMigration.Project

open Markup

/-- Whether `part` occurs in a text. -/
def occursIn (part : List Char) : List Char → Bool
  | [] => part.isEmpty
  | c :: rest => part.isPrefixOf (c :: rest) || occursIn part rest

/-- Whether a text mentions the framework. -/
def mentions (marker s : String) : Bool :=
  occursIn marker.toList s.toList

namespace Versions

/-- The version of a framework parent that declares none. -/
def unknown : String := "unknown"

/-- The value of the first property with this name, anywhere in a descriptor. -/
def property? (key : String) (project : Element) : Option String :=
  (project.findDescendant? ["properties", key]).bind (·.trimmedText?)

/-- The version of the first parent in a descriptor, if that is one of the framework. -/
def framework? (marker : String) (project : Element) : Option String := do
  let parent ← project.findDescendant? ["parent"]
  let artifact ← parent.childText? "artifactId"
  if mentions marker artifact then some ((parent.childText? "version").getD unknown) else none

def ofProject (d : DetectionSettings) (project : Element) : Versions where
  java := property? d.platformProperty project
  framework := framework? d.frameworkMarker project
  extension := property? d.extensionProperty project

/-- The versions that the descriptor at a path declares. -/
def read (d : DetectionSettings) (t : FileTree) (p : Path) :
    Except Descriptor.DescriptorError Versions := do
  .ok (ofProject d (← Descriptor.readDocument t p).root)

end Versions

end JavaMigration.Project
