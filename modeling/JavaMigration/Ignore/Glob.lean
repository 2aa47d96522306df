import JavaMigration.FileTree.Path

/-!
# Globs

Patterns for relative paths and when a path matches. Paths are matched byte by byte, and only a
class or two stars between slashes match a slash. What a pattern can match at the start of a path is
said by the rests that it can leave.
-/

namespace JavaMigration.Ignore

inductive Token
  | literal (c : Char)
  /-- Any byte but a slash: `?`. -/
  | any
  /-- Any bytes but slashes: `*`. -/
  | star
  /-- Two stars at the start: nothing, or everything up to some slash. -/
  | anyDirectory
  /-- Two stars at the end: a slash and everything after it. -/
  | anythingBelow
  /-- Two stars between slashes: one slash, or two with anything between. -/
  | anyBetween
  | charClass (negated : Bool) (ranges : List (Char × Char))
  | alternates (branches : List (List Token))
deriving Repr, Inhabited

abbrev Glob := List Token

/-- The rests of a text after every stretch of bytes that satisfy `p`. -/
def restsWhile (p : UInt8 → Bool) : List UInt8 → List (List UInt8)
  | [] => [[]]
  | b :: rest => (b :: rest) :: if p b then restsWhile p rest else []

/-- The rests of a text after every slash. -/
def restsAfterSlash : List UInt8 → List (List UInt8)
  | [] => []
  | b :: rest => if b = slash then rest :: restsAfterSlash rest else restsAfterSlash rest

/--
Whether a byte is in the range of a class. Of a character of several bytes each stands for itself,
and the range goes from the last byte of its first character to the first one of its last.
-/
def inRange (b : UInt8) (range : Char × Char) : Bool :=
  let low := String.utf8EncodeChar range.1
  let high := String.utf8EncodeChar range.2
  low.contains b || high.contains b ||
    (range.1 ≠ range.2 && (low.getLast?.any (· ≤ b)) && (high.head?.any (b ≤ ·)))

mutual

/-- Whether a pattern stands for nothing: it holds no token but groups of such patterns. -/
def isVoid : Glob → Bool
  | [] => true
  | .alternates branches :: rest => areVoid branches && isVoid rest
  | _ :: _ => false

def areVoid : List Glob → Bool
  | [] => true
  | branch :: branches => isVoid branch && areVoid branches

end

mutual

def Token.rests : Token → List UInt8 → List (List UInt8)
  | .literal c, s =>
    let front := String.utf8EncodeChar c
    if front.isPrefixOf s then [s.drop front.length] else []
  | .any, b :: rest => if b = slash then [] else [rest]
  | .any, [] => []
  | .star, s => restsWhile (· ≠ slash) s
  | .anyDirectory, s => s :: restsAfterSlash s
  | .anythingBelow, b :: rest => if b = slash then restsWhile (fun _ => true) rest else []
  | .anythingBelow, [] => []
  | .anyBetween, b :: rest => if b = slash then rest :: restsAfterSlash rest else []
  | .anyBetween, [] => []
  | .charClass negated ranges, b :: rest =>
    if ranges.any (inRange b) != negated then [rest] else []
  | .charClass _ _, [] => []
  | .alternates branches, s =>
    if areVoid branches then [s] else (restsOfAny branches s).eraseDups

def restsOf : Glob → List UInt8 → List (List UInt8)
  | [], s => [s]
  | token :: glob, s => ((token.rests s).flatMap (restsOf glob)).eraseDups

/-- The rests of a text after one of several patterns, of which void ones do not count. -/
def restsOfAny : List Glob → List UInt8 → List (List UInt8)
  | [], _ => []
  | branch :: branches, s =>
    (if isVoid branch then [] else restsOf branch s) ++ restsOfAny branches s

end

def Token.literal? : Token → Option Char
  | .literal c => some c
  | _ => none

def isLiteral (glob : Glob) : Bool :=
  glob.all (·.literal?.isSome)

/--
A name that ends in a point has no last component to look at, nor an extension. So a pattern with a
point at its end matches such a path only where it is compared as a whole.
-/
def comparesWhole (glob : Glob) : Bool :=
  isLiteral glob ||
    match glob with
    | .anyDirectory :: rest => isLiteral rest && rest.any (·.literal? = some '/')
    | _ => false

def endsInPoint (glob : Glob) : Bool :=
  glob.getLast?.bind Token.literal? = some '.'

/-- Whether a pattern matches a whole path. Two stars alone match every path. -/
def isMatch (glob : Glob) (path : List UInt8) : Bool :=
  match glob with
  | [.anyDirectory] => true
  | _ => (restsOf glob path).contains [] && (!endsInPoint glob || comparesWhole glob)

end JavaMigration.Ignore
