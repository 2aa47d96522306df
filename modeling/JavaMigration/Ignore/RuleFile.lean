import JavaMigration.FileTree.Basic
import JavaMigration.Ignore.Rule

/-!
# Ignore files

Rules that are stored in the directories they apply to. A directory's rules see paths as they lead
from that directory, and nearer directories decide before outer ones. The rules of a repository
apply within it only, and end at the directory that holds the repository.
-/

namespace JavaMigration.Ignore

/-- The lines of a file, without their ends. -/
def linesOf : List UInt8 → List (List UInt8)
  | [] => [[]]
  | 13 :: 10 :: rest => [] :: linesOf rest
  | b :: rest =>
    if b = 10 then [] :: linesOf rest
    else
      match linesOf rest with
      | [] => [[b]]
      | line :: lines => (b :: line) :: lines

/-- The lines up to the first one that is not text. -/
def textLines (content : ByteArray) : List String :=
  let decoded := (linesOf content.toList).map fun line => String.fromUTF8? ⟨line.toArray⟩
  (decoded.takeWhile (·.isSome)).filterMap id

/-- The byte order mark, which does not belong to the first line of a file. -/
def byteOrderMark : Char := '\ufeff'

/-- The rules of a file. Lines that hold no rule or a faulty one are passed over. -/
def rulesOfFile (content : ByteArray) : List Rule :=
  let lines := match (textLines content).map String.toList with
    | [] => []
    | first :: rest => first.dropWhile (· = byteOrderMark) :: rest
  lines.filterMap fun line =>
    match Rule.read .lenient line with
    | .ok rule => rule
    | .error _ => none

def rulesAt (t : FileTree) (l : Location) : List Rule :=
  match t.entry? l with
  | some (.file content) => rulesOfFile content
  | _ => []

/-- The path that leads from a directory to a location below it. -/
def pathFrom (directory l : Location) : List UInt8 :=
  joinSlash (l.drop directory.length)

/-- The directories around a location, the nearest first. -/
def directoriesAround (l : Location) : List Location :=
  (List.range l.length).reverse.map l.take

/-- What the rules in files of one name say about a location; the nearest directory counts. -/
def verdictAround? (t : FileTree) (file : Location) (directories : List Location)
    (isDirectory : Bool) (l : Location) : Option Verdict :=
  directories.findSome? fun d => verdict? (rulesAt t (d ++ file)) isDirectory (pathFrom d l)

def holdsRepository (t : FileTree) (directory : Location) : Bool :=
  (t.entry? (directory ++ [Text.bytes ".git"])).isSome

/-- The directories up to the first one that holds a repository, if one does. -/
def withinRepository (t : FileTree) (directories : List Location) : List Location :=
  let outside := directories.dropWhile (!holdsRepository t ·)
  if outside.isEmpty then []
  else directories.takeWhile (!holdsRepository t ·) ++ outside.take 1

/-- Whether ignore files leave a location out. -/
def isLeftOutByFiles (t : FileTree) (isDirectory : Bool) (l : Location) : Bool :=
  let around := directoriesAround l
  let within := withinRepository t around
  let verdict :=
    verdictAround? t [".ignore"] around isDirectory l <|>
    verdictAround? t [".gitignore"] within isDirectory l <|>
    verdictAround? t [".git", "info", "exclude"] within isDirectory l
  verdict = some .skip

end JavaMigration.Ignore
