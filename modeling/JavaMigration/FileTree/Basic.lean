import JavaMigration.FileTree.Path
import JavaMigration.Table

/-!
# File trees

The directories and files that a migration works on, by their locations. A location lists the names
that lead down from the topmost directory; a path is followed from there or from the current
directory, and has to lead through directories.

Two permissions can be missing: some files cannot be written, as they belong to somebody else, and
the names in some directories cannot be listed. Every file can be read, every directory takes new
files, and a new file belongs to who makes it, a copy as well. A write succeeds or leaves the tree
as it was, and there are no links.
-/

namespace JavaMigration

/-- The names that lead from the topmost directory to an entry. -/
abbrev Location := List Name

inductive Entry
  | directory
  | file (content : ByteArray)
  /-- What is neither, and cannot be opened, such as a socket. -/
  | special

instance : DecidableEq Entry
  | .directory, .directory => .isTrue rfl
  | .directory, .file _ => .isFalse nofun
  | .directory, .special => .isFalse nofun
  | .file _, .directory => .isFalse nofun
  | .file a, .file b =>
    match ByteArray.instDecidableEq a b with
    | .isTrue h => .isTrue (congrArg Entry.file h)
    | .isFalse h => .isFalse fun e => h (Entry.file.inj e)
  | .file _, .special => .isFalse nofun
  | .special, .directory => .isFalse nofun
  | .special, .file _ => .isFalse nofun
  | .special, .special => .isTrue rfl

structure FileTree where
  /-- Every entry but the topmost directory, which always exists. -/
  entries : Table Location Entry := []
  ascending : entries.Ascending := by exact List.Pairwise.nil
  /-- Where paths start that are not absolute. -/
  current : Location := []
  /-- A file at one of these locations can be read but not written. -/
  locked : List Location := []
  /-- The names in a directory at one of these locations cannot be listed. -/
  unlisted : List Location := []

inductive FileError
  | notFound
  | notDirectory
  | isDirectory
  | noDevice
  | denied
  | notText
  | tooLarge (size limit : Nat)
deriving DecidableEq, Repr

def FileError.message : FileError → String
  | notFound => "No such file or directory (os error 2)"
  | notDirectory => "Not a directory (os error 20)"
  | isDirectory => "Is a directory (os error 21)"
  | noDevice => "No such device or address (os error 6)"
  | denied => "Permission denied (os error 13)"
  | notText => "stream did not contain valid UTF-8"
  | tooLarge size limit => s!"file is {size} bytes, above the {limit}-byte limit"

namespace FileTree

def entry? (t : FileTree) (l : Location) : Option Entry :=
  if l = [] then some .directory else t.entries.get? l

/-- Where steps lead from a location. Whatever a step is taken from has to be a directory. -/
def follow (t : FileTree) : Location → List Name → Except FileError Location
  | here, [] => .ok here
  | here, step :: steps =>
    match t.entry? here with
    | none => .error .notFound
    | some .directory =>
      if Path.isIdle step then follow t here steps
      else if step = Path.upward then follow t here.dropLast steps
      else follow t (here ++ [step]) steps
    | some _ => .error .notDirectory

def start (t : FileTree) (p : Path) : Location :=
  if p.isAbsolute then [] else t.current

/-- The location that a path leads to, which may be vacant below its directory. -/
def locate (t : FileTree) (p : Path) : Except FileError Location :=
  if p.bytes.isEmpty then .error .notFound else t.follow (t.start p) p.pieces

/-- The entry that a path leads to, with its location. -/
def find (t : FileTree) (p : Path) : Except FileError (Location × Entry) := do
  let l ← t.locate p
  match t.entry? l with
  | some e => .ok (l, e)
  | none => .error .notFound

def contains (t : FileTree) (p : Path) : Bool :=
  (t.find p).isOk

def isDirectory (t : FileTree) (p : Path) : Bool :=
  match t.find p with
  | .ok (_, .directory) => true
  | _ => false

def isFile (t : FileTree) (p : Path) : Bool :=
  match t.find p with
  | .ok (_, .file _) => true
  | _ => false

def pathOf (l : Location) : Path :=
  ⟨slash :: joinSlash l⟩

/-- The absolute path of the entry that a path leads to, or the path itself if there is none. -/
def resolve (t : FileTree) (p : Path) : Path :=
  match t.find p with
  | .ok (l, _) => pathOf l
  | .error _ => p

/-- The number of bytes that a directory counts as. -/
def directorySize : Nat := 4096

def size (t : FileTree) (p : Path) : Except FileError Nat := do
  match ← t.find p with
  | (_, .file content) => .ok content.size
  | (_, .directory) => .ok directorySize
  | (_, .special) => .ok 0

def content (t : FileTree) (p : Path) : Except FileError ByteArray := do
  match ← t.find p with
  | (_, .file content) => .ok content
  | (_, .directory) => .error .isDirectory
  | (_, .special) => .error .noDevice

def text (t : FileTree) (p : Path) : Except FileError String := do
  match String.fromUTF8? (← t.content p) with
  | some s => .ok s
  | none => .error .notText

/-- The text of a file that is not larger than the limit, if there is one. -/
def textWithin (t : FileTree) (limit : Option Nat) (p : Path) : Except FileError String := do
  match limit with
  | none => t.text p
  | some limit =>
    let size ← t.size p
    if limit < size then .error (.tooLarge size limit) else t.text p

def put (t : FileTree) (l : Location) (e : Entry) : FileTree where
  entries := t.entries.insert l e
  ascending := Table.ascending_update List.lt_trans l _ t.ascending
  current := t.current
  locked := t.locked
  unlisted := t.unlisted

/-- Whether a path ends like that of a directory. -/
def namesDirectory (p : Path) : Bool :=
  p.bytes.getLast? = some slash

/-- The location of the file that is written at a path: an old one, or a new one in its directory. -/
def target (t : FileTree) (p : Path) : Except FileError Location := do
  if namesDirectory p then
    let outer := ((p.pieces.reverse.dropWhile (· = [])).drop 1).reverse
    let _ ← t.follow (t.start p) (outer ++ [[point]])
    .error .isDirectory
  else
    let l ← t.locate p
    match t.entry? l with
    | some .directory => .error .isDirectory
    | some .special => .error .noDevice
    | some (.file _) => if l ∈ t.locked then .error .denied else .ok l
    | none => .ok l

def write (t : FileTree) (p : Path) (content : ByteArray) : Except FileError FileTree := do
  .ok (t.put (← t.target p) (.file content))

def writeText (t : FileTree) (p : Path) (s : String) : Except FileError FileTree :=
  t.write p s.toUTF8

end FileTree

end JavaMigration
