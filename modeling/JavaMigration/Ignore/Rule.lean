import JavaMigration.Ignore.Reader
import JavaMigration.Text.Blank

/-!
# Ignore rules

The lines by which files and directories are left out of a walk. A rule is a pattern, a verdict and
possibly the restriction to directories; of all rules that match a path the last one counts.
-/

namespace JavaMigration.Ignore

inductive Verdict
  | skip | keep
deriving DecidableEq, Repr

structure Rule where
  glob : Glob
  verdict : Verdict
  directoriesOnly : Bool
deriving Repr

/-- A line before its pattern is read. -/
structure Line where
  pattern : List Char
  verdict : Verdict := .skip
  directoriesOnly : Bool := false
  /-- The pattern stands for paths from the directory of the rule alone. -/
  anchored : Bool := false

namespace Line

/-- Removes the sign of a kept path and a leading slash, or the backslash that makes them plain. -/
def ofMarked (s : List Char) : Line :=
  match s with
  | '\\' :: '!' :: _ => { pattern := s.drop 1 }
  | '\\' :: '#' :: _ => { pattern := s.drop 1 }
  | '!' :: '/' :: rest => { pattern := rest, verdict := .keep, anchored := true }
  | '!' :: rest => { pattern := rest, verdict := .keep }
  | '/' :: rest => { pattern := rest, anchored := true }
  | _ => { pattern := s }

/-- Removes a slash at the end, with a backslash before it. -/
def withoutEnd (l : Line) : Line :=
  match l.pattern.reverse with
  | '/' :: '\\' :: rest => { l with pattern := rest.reverse, directoriesOnly := true }
  | '/' :: rest => { l with pattern := rest.reverse, directoriesOnly := true }
  | _ => l

/-- Whether a pattern says by itself that it applies in every directory. -/
def isEverywhere (s : List Char) : Bool :=
  "**/".toList.isPrefixOf s || s = "**".toList

/-- The pattern, to be matched against paths from the directory of the rule. -/
def fullPattern (l : Line) : List Char :=
  let s :=
    if l.anchored || l.pattern.contains '/' || isEverywhere l.pattern then l.pattern
    else "**/".toList ++ l.pattern
  if "/**".toList.isSuffixOf s then s ++ "/*".toList else s

end Line

/-- A line without the blanks at its end, unless a backslash holds on to them. -/
def trimLine (s : List Char) : List Char :=
  if "\\ ".toList.isSuffixOf s then s else Text.trimEndList Text.isBlank s

/-- The rule of a line. Comments and blank lines hold none. -/
def Rule.read (brackets : Brackets) (s : List Char) : Except GlobError (Option Rule) :=
  if s.head? = some '#' || (trimLine s).isEmpty then .ok none
  else do
    let line := (Line.ofMarked (trimLine s)).withoutEnd
    let glob ← Glob.read brackets line.fullPattern
    .ok (some ⟨glob, line.verdict, line.directoriesOnly⟩)

def Rule.applies (r : Rule) (isDirectory : Bool) (path : List UInt8) : Bool :=
  (isDirectory || !r.directoriesOnly) && isMatch r.glob path

/-- What a list of rules says about a path: the verdict of the last one that applies. -/
def verdict? (rules : List Rule) (isDirectory : Bool) (path : List UInt8) : Option Verdict :=
  (rules.reverse.find? (·.applies isDirectory path)).map (·.verdict)

/-- An ignore pattern that cannot be read, with the line it was read from. -/
structure PatternError where
  pattern : String
  line : String
  fault : GlobError
deriving DecidableEq, Repr

def PatternError.message (e : PatternError) : String :=
  s!"Invalid ignore pattern '{e.pattern}': error parsing glob '{e.line}': {e.fault.message}"

/-- The line of a pattern, marked so that no character at its start has a meaning of its own. -/
def markedLine (pattern : String) : List Char :=
  trimLine ('!' :: pattern.toList)

/-- The rules by which a pattern leaves out a path and all that is below it. -/
def rulesOfPattern (pattern : String) : Except PatternError (List Rule) := do
  let rules ← [pattern ++ "/**", pattern].mapM fun line =>
    (Rule.read .strict (markedLine line)).mapError fun fault =>
      ⟨pattern, String.ofList (markedLine line), fault⟩
  .ok ((rules.filterMap id).map fun r => { r with verdict := .skip })

/-- The rules of several patterns. The first one that cannot be read counts as the fault. -/
def rulesOfPatterns (patterns : List String) : Except PatternError (List Rule) := do
  .ok (← patterns.mapM rulesOfPattern).flatten

/-- What every walk leaves out. -/
def builtInPatterns : List String := [".git", "target", "node_modules", ".idea"]

end JavaMigration.Ignore
