import JavaMigration.Number.Power
import JavaMigration.Text.Blank

/-!
# Character entities

The five named entities and the numeric character references: how a text is written with them and
how it is read back.
-/

namespace JavaMigration.Markup

open Text

/-- Why a reference in a text cannot be read. Spans count bytes from the start of the text. -/
inductive EntityError
  | unterminated (start stop : Nat)
  | unrecognized (start stop : Nat) (name : String)
  | signed
  | noDigits
  | invalidDigit
  | tooLarge
  | notACodepoint (code : Nat)
  | nul
deriving DecidableEq, Repr

def EntityError.message : EntityError → String
  | .unterminated start stop =>
    s!"Error while escaping character at range {start}..{stop}: Cannot find ';' after '&'"
  | .unrecognized start stop name => s!"at {start}..{stop}: unrecognized entity `{name}`"
  | .signed => "invalid character reference: unexpected number sign"
  | .noDigits => "invalid character reference: cannot parse integer from empty string"
  | .invalidDigit => "invalid character reference: invalid digit found in string"
  | .tooLarge => "invalid character reference: number too large to fit in target type"
  | .notACodepoint code => s!"invalid character reference: `{code}` is not a valid codepoint"
  | .nul => "invalid character reference: 0x0 character is not permitted in XML"

/-- A character as it is written in text and in attribute values. -/
def escapeChar (c : Char) : List Char :=
  if c = '<' then ['&', 'l', 't', ';']
  else if c = '>' then ['&', 'g', 't', ';']
  else if c = '&' then ['&', 'a', 'm', 'p', ';']
  else if c = '\'' then ['&', 'a', 'p', 'o', 's', ';']
  else if c = '"' then ['&', 'q', 'u', 'o', 't', ';']
  else [c]

def escapeList (s : List Char) : List Char :=
  s.flatMap escapeChar

/-- `s` with the five special characters written as named entities. -/
def escape (s : String) : String :=
  String.ofList (escapeList s.toList)

/-- The value of a digit in base `base`, in either case, if it is one. -/
def digit? (base : Nat) (c : Char) : Option Nat :=
  let value :=
    if c.isDigit then some (c.toNat - '0'.toNat)
    else if 'a' ≤ c && c ≤ 'z' then some (c.toNat - 'a'.toNat + 10)
    else if 'A' ≤ c && c ≤ 'Z' then some (c.toNat - 'A'.toNat + 10)
    else none
  value.filter (· < base)

/--
The number below `2 ^ 32` that the digits continue from `value`. At a digit where the number
leaves that range, a character that is no digit is reported first.
-/
def readDigits (base value : Nat) : List Char → Except EntityError Nat
  | [] => .ok value
  | c :: rest =>
    match digit? base c with
    | none => .error .invalidDigit
    | some d =>
      if value * base + d < Number.twoTo 32 then readDigits base (value * base + d) rest
      else .error .tooLarge

/-- The number written in `s`: at least one digit and no sign. -/
def readNumber (base : Nat) (s : List Char) : Except EntityError Nat :=
  match s with
  | [] => .error .noDigits
  | c :: _ => if c = '+' || c = '-' then .error .signed else readDigits base 0 s

/-- The character of a numeric reference, given the text after its number sign. -/
def readCharacter (s : List Char) : Except EntityError Char := do
  let code ← match s with
    | 'x' :: digits => readNumber 16 digits
    | digits => readNumber 10 digits
  if code = 0 then .error .nul
  else if code.isValidChar then .ok (Char.ofNat code)
  else .error (.notACodepoint code)

/-- The character that the named entity stands for. -/
def namedEntity? (name : List Char) : Option Char :=
  if name = ['l', 't'] then some '<'
  else if name = ['g', 't'] then some '>'
  else if name = ['a', 'm', 'p'] then some '&'
  else if name = ['a', 'p', 'o', 's'] then some '\''
  else if name = ['q', 'u', 'o', 't'] then some '"'
  else none

/-- The character that `&name;` stands for, where `start` is the byte at which `name` begins. -/
def resolve (start : Nat) (name : List Char) : Except EntityError Char :=
  match name with
  | '#' :: number => readCharacter number
  | _ =>
    match namedEntity? name with
    | some c => .ok c
    | none => .error (.unrecognized start (start + width name) (String.ofList name))

/--
Splits what follows an ampersand at the semicolon that ends the reference. There is none when
another ampersand comes first.
-/
def splitReference : List Char → Option (List Char × List Char)
  | [] => none
  | c :: rest =>
    if c = ';' then some ([], rest)
    else if c = '&' then none
    else (splitReference rest).map fun (name, after) => (c :: name, after)

theorem length_of_splitReference {s name after : List Char}
    (h : splitReference s = some (name, after)) : s.length = name.length + 1 + after.length := by
  induction s generalizing name with
  | nil => simp [splitReference] at h
  | cons c rest ih =>
    simp only [splitReference] at h
    split at h
    · cases h; simp; omega
    · split at h
      · simp at h
      · obtain ⟨⟨n, a⟩, hr, he⟩ := Option.map_eq_some_iff.1 h
        cases he
        simp [ih hr]; omega

/-- Reads `s`, which begins at byte `start` of a text of `total` bytes. -/
def unescapeFrom (total start : Nat) (s : List Char) : Except EntityError (List Char) :=
  match s with
  | [] => .ok []
  | c :: rest =>
    if c = '&' then
      match h : splitReference rest with
      | none => .error (.unterminated start total)
      | some (name, after) =>
        have := length_of_splitReference h
        match resolve (start + 1) name with
        | .error e => .error e
        | .ok d => (unescapeFrom total (start + 1 + width name + 1) after).map (d :: ·)
    else (unescapeFrom total (start + c.utf8Size) rest).map (c :: ·)
termination_by s.length
decreasing_by all_goals simp; try omega

def unescapeList (s : List Char) : Except EntityError (List Char) :=
  unescapeFrom (width s) 0 s

end JavaMigration.Markup
