import JavaMigration.Imports.Statement
import JavaMigration.Settings.Basic

/-!
# Rewriting imports

Imports of names below a namespace move to the namespace it is mapped to. The mappings of a table
are applied one after another, each to the text that the ones before it left.
-/

namespace JavaMigration.Imports

/-- The import of `name` below the target of a mapping. -/
def importText (target name : List Char) : List Char :=
  keyword ++ ' ' :: (target ++ '.' :: (name ++ [';']))

/--
Moves the imports below `source` in a text, which `previous` precedes, to `target`: the text with
them moved, and how many there are. They are found from left to right and do not overlap.
-/
def move (source target : List Char) (previous : Option Char) (s : List Char) :
    List Char × Nat :=
  match s with
  | [] => ([], 0)
  | c :: rest =>
    match h : importBelow? source (c :: rest) with
    | none =>
      let (t, n) := move source target (some c) rest
      (c :: t, n)
    | some (name, after) =>
      if isBoundary previous then
        have : after.length < rest.length + 1 := length_of_importBelow h
        let (t, n) := move source target (some ';') after
        (importText target name ++ t, n + 1)
      else
        let (t, n) := move source target (some c) rest
        (c :: t, n)
termination_by s.length

/-- How often each mapping that found any import moved one, in the order of the table. -/
abbrev Tally := List (String × Nat)

def Tally.total (t : Tally) : Nat :=
  t.foldr (fun entry n => entry.2 + n) 0

def applyMappings (s : List Char) : List Mapping → List Char × Tally
  | [] => (s, [])
  | m :: rest =>
    let (t, n) := move m.source.toList m.target.toList none s
    if n = 0 then applyMappings s rest
    else
      let (u, tally) := applyMappings t rest
      (u, (m.source, n) :: tally)

structure Rewriting where
  content : String
  tally : Tally
  modified : Bool
deriving DecidableEq, Repr

def rewrite (mappings : List Mapping) (content : String) : Rewriting :=
  let (t, tally) := applyMappings content.toList mappings
  let text := String.ofList t
  ⟨text, tally, decide (text ≠ content)⟩

end JavaMigration.Imports
