import JavaMigration.Ignore.Glob

/-!
# Reading globs

The grammar of globs: stars, question marks, classes in brackets, groups of alternatives in braces,
and characters taken literally after a backslash.
-/

namespace JavaMigration.Ignore

inductive GlobError
  | unclosedClass
  | invalidRange (low high : Char)
  | unopenedAlternates
  | unclosedAlternates
  | danglingEscape
deriving DecidableEq, Repr

def GlobError.message : GlobError → String
  | unclosedClass => "unclosed character class; missing ']'"
  | invalidRange low high => s!"invalid range; '{low}' > '{high}'"
  | unopenedAlternates =>
    "unopened alternate group; missing '\x7b' (maybe escape '\x7d' with '[\x7d]'?)"
  | unclosedAlternates =>
    "unclosed alternate group; missing '\x7d' (maybe escape '\x7b' with '[\x7b]'?)"
  | danglingEscape => "dangling '\\'"

/-- Extends the last range of a class, the first of the list, to a character. -/
def extendRange (c : Char) : List (Char × Char) → Except GlobError (List (Char × Char))
  | [] => .ok [(c, c)]
  | (low, _) :: ranges => if c < low then .error (.invalidRange low c) else .ok ((low, c) :: ranges)

/--
The ranges of a class from a point within it, last one first, and what follows its bracket. At the
first place of a class neither a bracket nor a hyphen has a meaning.
-/
def readRanges (isFirst pending : Bool) (ranges : List (Char × Char)) :
    List Char → Except GlobError (List (Char × Char) × List Char)
  | [] => .error .unclosedClass
  | c :: rest =>
    if c = ']' && !isFirst then .ok (if pending then ('-', '-') :: ranges else ranges, rest)
    else if c = '-' && !isFirst && !pending then readRanges false true ranges rest
    else if pending then do readRanges false false (← extendRange c ranges) rest
    else readRanges false false ((c, c) :: ranges) rest

/-- Whether a class, after its opening bracket, holds the characters that it does not name. -/
def isNegated (s : List Char) : Bool :=
  s.head? = some '!' || s.head? = some '^'

/-- A class after its opening bracket, and what follows it. -/
def readClass (s : List Char) : Except GlobError (Token × List Char) := do
  let (ranges, rest) ← readRanges true false [] (if isNegated s then s.drop 1 else s)
  .ok (.charClass (isNegated s) ranges.reverse, rest)

theorem length_of_readRanges {isFirst pending : Bool} {ranges : List (Char × Char)}
    {s : List Char} {r : List (Char × Char) × List Char}
    (h : readRanges isFirst pending ranges s = .ok r) : r.2.length < s.length := by
  induction s generalizing isFirst pending ranges with
  | nil => simp [readRanges] at h
  | cons c rest ih =>
    rw [List.length_cons]
    simp only [readRanges] at h
    split at h
    · cases h
      exact Nat.lt_succ_self _
    · split at h
      · exact Nat.lt_succ_of_lt (ih h)
      · split at h
        · cases he : extendRange c ranges with
          | error e => rw [he] at h; cases h
          | ok extended => rw [he] at h; exact Nat.lt_succ_of_lt (ih h)
        · exact Nat.lt_succ_of_lt (ih h)

theorem length_of_readClass {s : List Char} {r : Token × List Char} (h : readClass s = .ok r) :
    r.2.length < s.length := by
  have hs : (if isNegated s then s.drop 1 else s).length ≤ s.length := by
    split <;> simp
  simp only [readClass] at h
  cases hr : readRanges true false [] (if isNegated s then s.drop 1 else s) with
  | error e => rw [hr] at h; cases h
  | ok ranges =>
    rw [hr] at h
    cases h
    exact Nat.lt_of_lt_of_le (length_of_readRanges hr) hs

/-- A pattern of which a part has been read. -/
structure Draft where
  /-- The tokens of the innermost open branch, last one first. -/
  branch : List Token := []
  /--
  The open groups, the innermost first: the finished branches of each, last one first, and the
  tokens before it.
  -/
  groups : List (List Glob × List Token) := []

namespace Draft

def push (token : Token) (d : Draft) : Draft :=
  { d with branch := token :: d.branch }

def openGroup (d : Draft) : Draft where
  branch := []
  groups := ([], d.branch) :: d.groups

/-- A comma separates branches within a group and stands for itself elsewhere. -/
def comma (d : Draft) : Draft :=
  match d.groups with
  | [] => d.push (.literal ',')
  | (done, before) :: outer => ⟨[], (d.branch.reverse :: done, before) :: outer⟩

def closeGroup (d : Draft) : Except GlobError Draft :=
  match d.groups with
  | [] => .error .unopenedAlternates
  | (done, before) :: outer =>
    .ok ⟨.alternates (d.branch.reverse :: done).reverse :: before, outer⟩

def finish (d : Draft) : Except GlobError Glob :=
  if d.groups.isEmpty then .ok d.branch.reverse else .error .unclosedAlternates

/-- Two stars after a slash take it over, unless two stars stand before it already. -/
def pushStars (token : Token) (d : Draft) : Draft :=
  match d.branch with
  | .anyDirectory :: _ => d
  | .anythingBelow :: _ => d
  | branch => { d with branch := token :: branch.drop 1 }

end Draft

/-- What two stars stand for after the character `previous`, and whether the next slash is theirs. -/
def stars (previous : Option Char) (next : Option Char) (d : Draft) : Draft × Bool :=
  let plain := (d.push .star |>.push .star, false)
  if d.branch.isEmpty then
    if next = none || next = some '/' then (d.push .anyDirectory, next.isSome) else plain
  else if previous ≠ some '/' &&
      (d.groups.isEmpty || (previous ≠ some ',' && previous ≠ some '\x7b')) then plain
  else if next = some '/' then (d.pushStars .anyBetween, true)
  else if next = none || (!d.groups.isEmpty && (next = some ',' || next = some '\x7d')) then
    (d.pushStars .anythingBelow, false)
  else plain

/-- What a bracket is that opens no class. -/
inductive Brackets
  /-- A fault. -/
  | strict
  /-- A character that stands for itself, as do all brackets after it. -/
  | lenient
  /-- A character that stands for itself, because one before it opened no class. -/
  | literal
deriving DecidableEq, Repr

/-- Reads the rest of a pattern, of which `d` has been read and `previous` was the last character. -/
def readFrom (brackets : Brackets) (previous : Option Char) (d : Draft) (s : List Char) :
    Except GlobError Glob :=
  match s with
  | [] => d.finish
  | '?' :: rest => readFrom brackets (some '?') (d.push .any) rest
  | '*' :: '*' :: rest =>
    let (d, taken) := stars previous rest.head? d
    if taken then readFrom brackets (some '/') d (rest.drop 1)
    else readFrom brackets (some '*') d rest
  | '*' :: rest => readFrom brackets (some '*') (d.push .star) rest
  | '[' :: rest =>
    match h : readClass rest with
    | .ok (token, after) =>
      have : after.length < rest.length := length_of_readClass h
      if brackets = .literal then readFrom .literal (some '[') (d.push (.literal '[')) rest
      else readFrom brackets (some ']') (d.push token) after
    | .error e =>
      if brackets = .strict || (brackets = .lenient && e ≠ .unclosedClass) then .error e
      else readFrom .literal (some '[') (d.push (.literal '[')) rest
  | '\x7b' :: rest => readFrom brackets (some '\x7b') d.openGroup rest
  | '\x7d' :: rest => do readFrom brackets (some '\x7d') (← d.closeGroup) rest
  | ',' :: rest => readFrom brackets (some ',') d.comma rest
  | ['\\'] => .error .danglingEscape
  | '\\' :: c :: rest => readFrom brackets (some c) (d.push (.literal c)) rest
  | c :: rest => readFrom brackets (some c) (d.push (.literal c)) rest
termination_by s.length

def Glob.read (brackets : Brackets) (s : List Char) : Except GlobError Glob :=
  readFrom brackets none {} s

end JavaMigration.Ignore
