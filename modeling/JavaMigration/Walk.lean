import JavaMigration.FileTree.Matcher
import JavaMigration.Ignore.RuleFile
import JavaMigration.Settings.Basic

/-!
# Walking a file tree

The files below a root that a pass works on, in the order of their components. A file counts if
neither it nor a directory between it and the root is left out; the root itself always counts, but
for one that stands for standard input.
-/

namespace JavaMigration

open Ignore

inductive WalkError
  | rootNotFound (root : Path)
  | pattern (e : PatternError)
deriving DecidableEq, Repr

namespace WalkError

def message : WalkError → String
  | rootNotFound root => s!"Walk root does not exist: {root.text}"
  | pattern e => e.message

def code : WalkError → String
  | rootNotFound _ => "WALK_ROOT_NOT_FOUND"
  | pattern _ => "WALK_INVALID_IGNORE"

end WalkError

/-- A way to list the files of a kind below a root. -/
abbrev Enumeration := FileTree → Path → FileMatcher → Except WalkError (List Path)

namespace Walk

/-- Whether a root is taken for standard input, where no files are, whatever there is of its name. -/
def isStandardInput (root : Path) : Bool :=
  root.parts = [Text.bytes "-"]

/-- The locations below `base` through which a walk comes to `l`, with `l` itself as the last. -/
def stages (base l : Location) : List Location :=
  (List.range (l.length - base.length)).map fun n => l.take (base.length + n + 1)

/-- Whether the names in a directory can be listed. -/
def canList (t : FileTree) (l : Location) : Bool :=
  t.entry? l = some .directory && !t.unlisted.contains l

/--
Whether a walk from `base` that leaves out what `skips` says comes to `l`. Names that cannot be
listed are passed over without a word.
-/
def reaches (t : FileTree) (skips : Bool → Location → Bool) (base l : Location) : Bool :=
  base.isPrefixOf l && (base = l || canList t base) && (stages base l).all fun stage =>
    if stage = l then !skips false stage
    else canList t stage && !skips true stage

/--
What a walk from `base` leaves out: by the given rules, and by ignore files if they count. The rules
see the names below the root. A root with idle steps in it, such as `././target`, is taken off as the
directory that it leads to and not as text.
-/
def skips (t : FileTree) (honoursFiles : Bool) (rules : List Rule) (base : Location)
    (isDirectory : Bool) (l : Location) : Bool :=
  verdict? rules isDirectory (pathFrom base l) = some .skip ||
    (honoursFiles && isLeftOutByFiles t isDirectory l)

/-- The path of a location below `base`, where `root` is the path of that. -/
def pathBelow (root : Path) (base l : Location) : Path :=
  root.join ⟨pathFrom base l⟩

/-- The files below `base` that a walk comes to, in order. -/
def filesBelow (t : FileTree) (skips : Bool → Location → Bool) (base : Location) :
    List Location :=
  t.entries.filterMap fun (l, e) =>
    match e with
    | .file _ => if reaches t skips base l then some l else none
    | _ => none

end Walk

open Walk

/-- Lists files by walking the tree. -/
def walk (s : ScanSettings) : Enumeration := fun t root kind =>
  match t.find root with
  | .error _ => .error (.rootNotFound root)
  | .ok (base, entry) => do
    let rules ← (rulesOfPatterns (builtInPatterns ++ s.extraIgnore)).mapError .pattern
    if isStandardInput root then .ok []
    else
      match entry with
      | .file _ => .ok (if kind.accepts root then [root] else [])
      | .directory =>
        let files := filesBelow t (skips t s.honoursIgnoreFiles rules base) base
        .ok ((files.map (pathBelow root base)).filter kind.accepts)
      | .special => .ok []

end JavaMigration
