import JavaMigration.Toml.Scalar
import JavaMigration.Toml.Table

/-!
# Reading TOML

The table that a document denotes, or nothing where it breaks a rule of the format.
-/

namespace JavaMigration.Toml

/-- How deep arrays and inline tables may nest, and how many parts a key may have. -/
def nestingLimit : Nat := 79

/-- One part of a key: bare, or a string on one line. -/
def readKeyPart (s : List Char) : Option (String × List Char) :=
  match s with
  | '"' :: rest => readBasic (rest.length + 1) [] rest
  | '\'' :: rest => readLiteral rest
  | _ =>
    let isBare (c : Char) := c.isAlphanum || c = '-' || c = '_'
    let name := s.takeWhile isBare
    if name.isEmpty then none else some (String.ofList name, s.dropWhile isBare)

/-- The parts of a key, with points and optional blanks between them. -/
def readKeyParts (fuel : Nat) (s : List Char) : Option ((List String) × List Char) :=
  match fuel with
  | 0 => none
  | fuel + 1 => do
    let (part, rest) ← readKeyPart (s.dropWhile isLineSpace)
    match rest.dropWhile isLineSpace with
    | '.' :: more =>
      let (parts, rest) ← readKeyParts fuel more
      some (part :: parts, rest)
    | rest => some ([part], rest)

/-- A key as the path to its last part, and that part. -/
def readKey (s : List Char) : Option ((List String × String) × List Char) := do
  let (parts, rest) ← readKeyParts nestingLimit s
  some ((parts.dropLast, ← parts.getLast?), rest)

/-- The text after a comment, given the text after its mark. -/
def skipComment (s : List Char) : List Char :=
  s.dropWhile isTextChar

/-- The text after blanks, line breaks and comments. -/
def skipGap (fuel : Nat) (s : List Char) : Option (List Char) :=
  match fuel with
  | 0 => none
  | fuel + 1 =>
    match skipBlankLines s with
    | '#' :: rest =>
      match skipNewline? (skipComment rest) with
      | some rest => skipGap fuel rest
      | none => none
    | rest => some rest

def skipGaps (s : List Char) : Option (List Char) :=
  skipGap (s.length + 1) s

mutual

/-- A value, at most `depth` arrays and tables deep. -/
def readValue (fuel depth : Nat) (s : List Char) : Option (Value × List Char) :=
  match fuel with
  | 0 => none
  | fuel + 1 =>
    match s, depth with
    | '[' :: _, 0 => none
    | '\x7b' :: _, 0 => none
    | '[' :: rest, depth + 1 => readItems fuel depth [] rest
    | '\x7b' :: rest, depth + 1 =>
      match rest.dropWhile isLineSpace with
      | '\x7d' :: rest => some (.table [], rest)
      | rest => readPairs fuel depth [] rest
    | s, _ => readScalar s

/-- The rest of an array, after the items read, the last first. -/
def readItems (fuel depth : Nat) (read : List Value) (s : List Char) : Option (Value × List Char) :=
  match fuel with
  | 0 => none
  | fuel + 1 => do
    match ← skipGaps s with
    | ']' :: rest => some (.array read.reverse, rest)
    | start =>
      let (v, rest) ← readValue fuel depth start
      match ← skipGaps rest with
      | ',' :: rest => readItems fuel depth (v :: read) rest
      | ']' :: rest => some (.array (v :: read).reverse, rest)
      | _ => none

/-- The rest of an inline table with at least one more entry, after those read, the last first. -/
def readPairs (fuel depth : Nat) (read : List (List String × String × Value)) (s : List Char) :
    Option (Value × List Char) :=
  match fuel with
  | 0 => none
  | fuel + 1 => do
    let ((path, key), rest) ← readKey s
    match rest with
    | '=' :: rest =>
      let (v, rest) ← readValue fuel depth (rest.dropWhile isLineSpace)
      let read := (path, key, v) :: read
      match rest.dropWhile isLineSpace with
      | ',' :: rest => readPairs fuel depth read rest
      | '\x7d' :: rest => some ((← Draft.empty.insertAll read.reverse).toValue, rest)
      | _ => none
    | _ => none

end

/-- The rest of a line: blanks and a comment, up to a line break or the end of the text. -/
def skipLineEnd (s : List Char) : Option (List Char) :=
  let rest := s.dropWhile isLineSpace
  let rest := match rest with
    | '#' :: comment => skipComment comment
    | _ => rest
  match rest with
  | [] => some []
  | _ => skipNewline? rest

inductive Statement
  | entry (path : List String) (key : String) (v : Value)
  | header (path : List String) (key : String)
  | arrayHeader (path : List String) (key : String)

/-- The statement at the start of a text that is neither blank nor a comment. -/
def readStatement (s : List Char) : Option (Statement × List Char) :=
  match s with
  | '[' :: '[' :: rest => do
    match ← readKey rest with
    | ((path, key), ']' :: ']' :: rest) => some (.arrayHeader path key, rest)
    | _ => none
  | '[' :: rest => do
    match ← readKey rest with
    | ((path, key), ']' :: rest) => some (.header path key, rest)
    | _ => none
  | _ => do
    match ← readKey s with
    | ((path, key), '=' :: rest) =>
      let rest := rest.dropWhile isLineSpace
      let (v, rest) ← readValue (2 * rest.length + 2) nestingLimit rest
      some (.entry path key v, rest)
    | _ => none

/-- The statements of a document, in order. -/
def readStatements (fuel : Nat) (s : List Char) : Option (List Statement) :=
  match fuel with
  | 0 => none
  | fuel + 1 =>
    match s.dropWhile isLineSpace with
    | [] => some []
    | '#' :: rest => (skipLineEnd ('#' :: rest)).bind (readStatements fuel)
    | start =>
      match skipNewline? start with
      | some rest => readStatements fuel rest
      | none => do
        let (statement, rest) ← readStatement start
        let rest ← skipLineEnd rest
        some (statement :: (← readStatements fuel rest))

/-- The entries up to the next header, and the statements from there on. -/
def splitEntries : List Statement → List (List String × String × Value) × List Statement
  | .entry path key v :: rest =>
    let (pairs, rest) := splitEntries rest
    ((path, key, v) :: pairs, rest)
  | rest => ([], rest)

theorem length_splitEntries (s : List Statement) : (splitEntries s).2.length ≤ s.length := by
  fun_induction splitEntries s with
  | case1 path key v rest pairs rest' h ih => simp [h] at ih ⊢; omega
  | case2 => simp

/-- Takes in the sections that the statements form, each a header with the entries below it. -/
def addSections (d : Draft) (s : List Statement) : Option Draft :=
  match s with
  | [] => some d
  | .header path key :: rest =>
    have := length_splitEntries rest
    match d.define path key (splitEntries rest).1 with
    | some d => addSections d (splitEntries rest).2
    | none => none
  | .arrayHeader path key :: rest =>
    have := length_splitEntries rest
    match d.append path key (splitEntries rest).1 with
    | some d => addSections d (splitEntries rest).2
    | none => none
  | .entry path key v :: rest =>
    match d.insert path key v with
    | some d => addSections d rest
    | none => none
termination_by s.length

/-- The table that a document denotes. A byte order mark in front of it is skipped. -/
def read? (s : String) : Option Value := do
  let body := match s.toList with
    | [] => []
    | c :: rest => if c = '\uFEFF' then rest else c :: rest
  let statements ← readStatements (body.length + 1) body
  some (← addSections .empty statements).toValue

end JavaMigration.Toml
