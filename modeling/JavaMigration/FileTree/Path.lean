import JavaMigration.Text.Bytes

/-!
# Paths

Bytes that lead to files, which need not be a text. A path is kept as it is written, so that it is
shown that way; what it leads to is said by its parts, among which empty steps and inner points do
not count.
-/

namespace JavaMigration

/-- What an entry of a directory is called. -/
abbrev Name := List UInt8

/-- Names that are given as texts. -/
instance coeNames : Coe (List String) (List Name) where
  coe names := names.map Text.bytes

def slash : UInt8 := 47

def point : UInt8 := 46

/-- The pieces of some bytes between slashes. There is always at least one. -/
def splitSlash : List UInt8 → List Name
  | [] => [[]]
  | b :: rest =>
    if b = slash then [] :: splitSlash rest
    else
      match splitSlash rest with
      | [] => [[b]]
      | piece :: pieces => (b :: piece) :: pieces

def joinSlash (names : List Name) : List UInt8 :=
  [slash].intercalate names

structure Path where
  bytes : List UInt8
deriving DecidableEq, Repr, Inhabited

namespace Path

/-- The text that a path is shown as. -/
def text (p : Path) : String :=
  Text.lossy p.bytes

def pieces (p : Path) : List Name :=
  splitSlash p.bytes

def isAbsolute (p : Path) : Bool :=
  p.bytes.head? = some slash

/-- Whether a piece after the first leads nowhere. -/
def isIdle (piece : Name) : Bool :=
  piece = [] || piece = [point]

/-- The step to the directory around. -/
def upward : Name := [point, point]

/-- The components of a path. That of the root is a slash; a point counts at the start alone. -/
def parts (p : Path) : List Name :=
  match p.pieces with
  | [] => []
  | [[]] => []
  | first :: rest => (if first = [] then [slash] else first) :: rest.filter (!isIdle ·)

/-- `p` followed by `q`, unless `q` is absolute. -/
def join (p q : Path) : Path :=
  if q.isAbsolute || p.bytes.isEmpty then q
  else if p.bytes.getLast? = some slash then ⟨p.bytes ++ q.bytes⟩
  else ⟨p.bytes ++ slash :: q.bytes⟩

/-- The last component, where it is a name. -/
def fileName? (p : Path) : Option Name :=
  p.parts.getLast?.filter fun name => name ∉ [[slash], [point], upward]

/-- What follows the last point of a name, unless the point begins it. -/
def extensionOf? (name : Name) : Option Name :=
  let backwards := name.reverse
  match backwards.dropWhile (· ≠ point) with
  | [] => none
  | [_] => none
  | _ => some (backwards.takeWhile (· ≠ point)).reverse

def extension? (p : Path) : Option Name := do
  extensionOf? (← p.fileName?)

/-- The pieces of a path, last one first, without those at its end that lead nowhere. -/
def dropIdle : List Name → List Name
  | [] => []
  | [first] => [first]
  | piece :: rest => if isIdle piece then dropIdle rest else piece :: rest

/-- The path without its last component. The root and the empty path have none. -/
def parent? (p : Path) : Option Path :=
  match dropIdle p.pieces.reverse with
  | [] => none
  | [first] => if first = [] then none else some ⟨[]⟩
  | _ :: rest =>
    match dropIdle rest with
    | [[]] => some ⟨[slash]⟩
    | outer => some ⟨joinSlash outer.reverse⟩

/-- The components of `p` below `root`, or all of them if it is not there. -/
def below (root p : Path) : List Name :=
  if root.parts.isPrefixOf p.parts then p.parts.drop root.parts.length else p.parts

/-- How names that lead down from a root are shown. -/
def shownBelow (names : List Name) : String :=
  match names with
  | [] => "."
  | names => "/".intercalate (names.map Text.lossy)

/-- The form in which `p` is shown to a reader who knows `root`. -/
def relativeTo (root p : Path) : String :=
  shownBelow (below root p)

end Path

end JavaMigration
