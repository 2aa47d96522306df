import JavaMigration.CommandLine.Run
import Std.Time

/-!
# The program

Loads the part of the disk that a run is about, runs the command on it, and writes back the files
that changed. Of what is on the disk, names that are no texts, links and permissions are passed over.
-/

namespace JavaMigration.CommandLine

/-- The names of the files, beside sources and descriptors, whose content a run may look at. -/
def readNames : List String := [Settings.fileName, ".ignore", ".gitignore", "exclude"]

def isRead (p : Path) : Bool :=
  FileMatcher.sources.accepts p || FileMatcher.descriptors.accepts p ||
    p.fileName?.any ((readNames.map Text.bytes).contains ·)

/-- Puts one entry of the disk into the tree. Links are no entries. -/
def loadEntry (always : Bool) (t : FileTree) (l : Location) : IO FileTree := do
  if l = [] then return t
  let p := FileTree.pathOf l
  match ← ((← IO.currentDir) / p.text).symlinkMetadata.toBaseIO with
  | .error _ => return t
  | .ok data =>
    match data.type with
    | .dir => return t.put l .directory
    | .file =>
      let content ← if always || isRead p then IO.FS.readBinFile p.text else pure .empty
      return t.put l (.file content)
    | .other => return t.put l .special
    | .symlink => return t

/-- Puts the entries of a directory into the tree, with those below them if asked for. -/
partial def loadDirectory (deep : Bool) (t : FileTree) (l : Location) : IO FileTree := do
  let mut t := t
  for e in ← ((← IO.currentDir) / (FileTree.pathOf l).text).readDir do
    let below := l ++ [Text.bytes e.fileName]
    t ← loadEntry false t below
    if deep && t.entry? below = some .directory then t ← loadDirectory deep t below
  return t

/-- Puts the directories down to a location into the tree, with the ignore files in them. -/
def loadAncestors (t : FileTree) (l : Location) : IO FileTree := do
  let mut t := t
  for n in List.range l.length do
    let outer := l.take n
    t ← loadEntry false t outer
    for names in [[".ignore"], [".gitignore"], [".git"], [".git", "info"],
        [".git", "info", "exclude"]] do
      t ← loadEntry true t (outer ++ names.map Text.bytes)
  return t

/-- The location that a path is about, where points lead back over names. -/
def locationOf (current : Location) (p : Path) : Location :=
  p.pieces.foldl
    (fun l piece =>
      if Path.isIdle piece then l else if piece = Path.upward then l.dropLast else l ++ [piece])
    (if p.isAbsolute then [] else current)

/-- Loads what stands at a path: all that is below a directory, or what is beside a file. -/
def loadPath (t : FileTree) (p : Path) : IO FileTree := do
  let l := locationOf t.current p
  let t ← loadAncestors t l
  let t ← loadEntry true t l
  if t.entry? l = some .directory then loadDirectory true t l
  else if t.entry? l.dropLast = some .directory then
    loadEntry true (← loadDirectory false t l.dropLast) l
  else return t

/-- The paths that a run is about. -/
def Invocation.paths (i : Invocation) : List Path :=
  let own := match i.action with
    | .analyze project output report => project :: output.toList ++ report.toList
    | .migrateImports source _ => [source]
    | .upgradePom descriptor _ _ => [descriptor]
  own ++ i.config.toList

def currentMoment : IO Moment := do
  let now ← Std.Time.DateTime.now
  return ⟨now.format "uuuu-MM-dd'T'HH:mm:ss.SSSSSSSSSxxx", now.format "uuuuMMdd_HHmmss"⟩

/-- Writes the files in which two trees differ. -/
def store (before after : FileTree) : IO Unit := do
  for (l, e) in after.entries do
    match e with
    | .file content =>
      if before.entry? l ≠ some e then IO.FS.writeBinFile (FileTree.pathOf l).text content
    | _ => pure ()

def usageHint : String :=
  s!"error: the arguments do not fit\n\nFor more information, try '--help'."

end JavaMigration.CommandLine

open JavaMigration JavaMigration.CommandLine in
def main (arguments : List String) : IO UInt32 := do
  let current : JavaMigration.Path := ⟨(← IO.currentDir).toString⟩
  let mut tree : FileTree := { current := locationOf [] current }
  tree ← loadAncestors tree (tree.current ++ [[point]])
  match Request.read arguments with
  | .run i => for p in i.paths do tree ← loadPath tree p
  | _ => pure ()
  let (after, outcome) := run (← currentMoment) tree arguments
  store tree after
  IO.print outcome.output
  match outcome.error with
  | some message => IO.eprintln message
  | none => if outcome.exitCode = 2 then IO.eprintln usageHint
  return outcome.exitCode.toUInt32
