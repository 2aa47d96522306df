import JavaMigration.Toml.Value
import JavaMigration.Number.Decimal

/-!
# Reading scalars

Strings, numbers, truth values and points in time. Each reader takes the longest scalar at the start
of a text and gives back what follows it.
-/

namespace JavaMigration.Toml

open Number

/-- A character that may stand in quoted text and comments: a tab, or no control character. -/
def isTextChar (c : Char) : Bool :=
  c = '\t' || (32 ≤ c.toNat && c.toNat ≠ 127)

def hexValue? (c : Char) : Option Nat :=
  if c.isDigit then some (c.toNat - '0'.toNat)
  else if 'a' ≤ c && c ≤ 'f' then some (c.toNat - 'a'.toNat + 10)
  else if 'A' ≤ c && c ≤ 'F' then some (c.toNat - 'A'.toNat + 10)
  else none

/-- The character whose number takes the next `count` hex digits. -/
def readCodepoint (count : Nat) (s : List Char) : Option (Char × List Char) := do
  let digits ← (s.take count).mapM hexValue?
  let code := digits.foldl (fun n d => 16 * n + d) 0
  if digits.length = count && code.isValidChar then some (Char.ofNat code, s.drop count)
  else none

/-- The character after a backslash. -/
def readEscape : List Char → Option (Char × List Char)
  | 'b' :: rest => some ('\x08', rest)
  | 't' :: rest => some ('\t', rest)
  | 'n' :: rest => some ('\n', rest)
  | 'f' :: rest => some ('\x0c', rest)
  | 'r' :: rest => some ('\r', rest)
  | '"' :: rest => some ('"', rest)
  | '\\' :: rest => some ('\\', rest)
  | 'u' :: rest => readCodepoint 4 rest
  | 'U' :: rest => readCodepoint 8 rest
  | _ => none

/-- The rest of a basic string, after the characters `read`, the last first. -/
def readBasic (fuel : Nat) (read : List Char) (s : List Char) : Option (String × List Char) :=
  match fuel, s with
  | fuel + 1, c :: rest =>
    if c = '"' then some (String.ofList read.reverse, rest)
    else if c = '\\' then do
      let (d, rest) ← readEscape rest
      readBasic fuel (d :: read) rest
    else if isTextChar c then readBasic fuel (c :: read) rest
    else none
  | _, _ => none

def readLiteral (s : List Char) : Option (String × List Char) :=
  let body := s.takeWhile fun c => isTextChar c && c ≠ '\''
  match s.dropWhile fun c => isTextChar c && c ≠ '\'' with
  | '\'' :: rest => some (String.ofList body, rest)
  | _ => none

def isLineSpace (c : Char) : Bool :=
  c = ' ' || c = '\t'

/-- The text after a line break at its start, if it has one. -/
def skipNewline? : List Char → Option (List Char)
  | '\n' :: rest => some rest
  | '\r' :: '\n' :: rest => some rest
  | _ => none

/-- The text after the spaces, tabs and line breaks at its start. -/
def skipBlankLines : List Char → List Char
  | ' ' :: rest => skipBlankLines rest
  | '\t' :: rest => skipBlankLines rest
  | '\n' :: rest => skipBlankLines rest
  | '\r' :: '\n' :: rest => skipBlankLines rest
  | s => s

/--
The rest of a multi-line string in quotes of the kind `quote`. A run of three or more quotes ends
it, and up to two in front of the last three belong to it. In basic strings a backslash escapes the
character after it, or drops a line break with the white space around it.
-/
def readMultiline (quote : Char) (fuel : Nat) (read : List Char) (s : List Char) : Option (String × List Char) :=
  match fuel, s with
  | fuel + 1, c :: rest =>
    if c = quote then
      let run := (c :: rest).takeWhile (· = quote)
      let after := (c :: rest).dropWhile (· = quote)
      if run.length < 3 then readMultiline quote fuel (run ++ read) after
      else
        let kept := min (run.length - 3) 2
        some (String.ofList (read.reverse ++ run.take kept), run.drop (kept + 3) ++ after)
    else if c = '\\' && quote = '"' then
      match skipNewline? (rest.dropWhile isLineSpace) with
      | some after => readMultiline quote fuel read (skipBlankLines after)
      | none => do
        let (d, after) ← readEscape rest
        readMultiline quote fuel (d :: read) after
    else
      match skipNewline? (c :: rest) with
      | some after => readMultiline quote fuel ('\n' :: read) after
      | none => if isTextChar c then readMultiline quote fuel (c :: read) rest else none
  | _, _ => none

/-- The body of a multi-line string, where a line break directly after the quotes is dropped. -/
def readMultilineBody (quote : Char) (s : List Char) : Option (String × List Char) :=
  let s := (skipNewline? s).getD s
  readMultiline quote (s.length + 1) [] s

def readString (s : List Char) : Option (String × List Char) :=
  match s with
  | '"' :: '"' :: '"' :: rest => readMultilineBody '"' rest
  | '\'' :: '\'' :: '\'' :: rest => readMultilineBody '\'' rest
  | '"' :: rest => readBasic (rest.length + 1) [] rest
  | '\'' :: rest => readLiteral rest
  | _ => none

/--
The digits at the start of a text that satisfy `isDigit`, with single underscores between them. An
underscore that no digit follows is an error.
-/
def readDigits (isDigit : Char → Bool) (s : List Char) : Option (List Char × List Char) :=
  match s with
  | [] => none
  | c :: rest =>
    if isDigit c then
      match rest with
      | [] => some ([c], [])
      | d :: more =>
        if d = '_' then (readDigits isDigit more).map fun (ds, rest) => (c :: ds, rest)
        else if isDigit d then
          (readDigits isDigit (d :: more)).map fun (ds, rest) => (c :: ds, rest)
        else some ([c], d :: more)
    else none
termination_by s.length

/-- An integer of 64 bits, or nothing. -/
def ofInteger (n : Int) : Option Value :=
  if -(Number.twoTo 63 : Int) ≤ n && n < Number.twoTo 63 then some (.integer n) else none

/-- An integer in another base, after the mark of the base. -/
def readBased (base : Nat) (s : List Char) : Option (Value × List Char) := do
  let inBase (c : Char) : Bool := ((hexValue? c).map fun d => decide (d < base)).getD false
  let (digits, rest) ← readDigits inBase s
  let n := digits.foldl (fun n c => base * n + (hexValue? c).getD 0) 0
  some (← ofInteger n, rest)

/-- The digits of a whole number, of which the first is no zero unless it is alone. -/
def readWhole (s : List Char) : Option ((List Char) × List Char) :=
  match s with
  | '0' :: rest => some (['0'], rest)
  | _ => readDigits Char.isDigit s

/-- The exponent after its mark, as it counts and as what follows. -/
def readPower (s : List Char) : Option (Int × List Char) := do
  let (negative, s) : Bool × List Char := match s with
    | '-' :: rest => (true, rest)
    | '+' :: rest => (false, rest)
    | _ => (false, s)
  let (digits, rest) ← readDigits Char.isDigit s
  let n : Int := readDigitsFrom 0 digits
  some (if negative then -n else n, rest)

/-- A decimal that is no integer, its text left open. One that rounds to positive infinity is an error. -/
def ofDecimal (negative : Bool) (d : Decimal) (rest : List Char) : Option (Value × List Char) :=
  if d.toBinary64 negative = .infinite false then none else some (.float "", rest)

/-- A number in base ten, after its sign. -/
def readNumber (negative : Bool) (s : List Char) : Option (Value × List Char) := do
  let (whole, rest) ← readWhole s
  match rest with
  | '.' :: rest =>
    let (fraction, rest) ← readDigits Char.isDigit rest
    let coefficient := readDigitsFrom 0 (whole ++ fraction)
    match rest with
    | c :: more =>
      if c = 'e' || c = 'E' then
        let (power, rest) ← readPower more
        ofDecimal negative ⟨coefficient, power - fraction.length⟩ rest
      else ofDecimal negative ⟨coefficient, -(fraction.length : Int)⟩ rest
    | [] => ofDecimal negative ⟨coefficient, -(fraction.length : Int)⟩ []
  | c :: more =>
    if c = 'e' || c = 'E' then
      let (power, rest) ← readPower more
      ofDecimal negative ⟨readDigitsFrom 0 whole, power⟩ rest
    else
      let n : Int := readDigitsFrom 0 whole
      some (← ofInteger (if negative then -n else n), rest)
  | [] =>
    let n : Int := readDigitsFrom 0 whole
    some (← ofInteger (if negative then -n else n), [])

/-- A number with a sign, or one of the words for infinity and not-a-number. -/
def readSigned (s : List Char) : Option (Value × List Char) :=
  let (negative, body) : Bool × List Char := match s with
    | '-' :: rest => (true, rest)
    | '+' :: rest => (false, rest)
    | _ => (false, s)
  match body with
  | 'i' :: 'n' :: 'f' :: rest => some (.float "inf", rest)
  | 'n' :: 'a' :: 'n' :: rest => some (.float "nan", rest)
  | _ => readNumber negative body

/-- A number of exactly `count` digits within bounds. -/
def readField (count low high : Nat) (s : List Char) : Option (Nat × List Char) :=
  let digits := s.take count
  let n := readDigitsFrom 0 digits
  if digits.length = count && digits.all Char.isDigit && low ≤ n && n ≤ high then
    some (n, s.drop count)
  else none

def expect (c : Char) : List Char → Option (List Char)
  | d :: rest => if c = d then some rest else none
  | [] => none

def daysInMonth (year month : Nat) : Nat :=
  if month = 2 then
    if year % 4 = 0 && (year % 100 ≠ 0 || year % 400 = 0) then 29 else 28
  else if month ∈ [4, 6, 9, 11] then 30
  else 31

/-- A date, by the text that follows it. -/
def skipDate (s : List Char) : Option (List Char) := do
  let (year, s) ← readField 4 0 9999 s
  let (month, s) ← readField 2 1 12 (← expect '-' s)
  let (_, s) ← readField 2 1 (daysInMonth year month) (← expect '-' s)
  some s

/-- A time of day, by the text that follows it. -/
def skipTime (s : List Char) : Option (List Char) := do
  let (_, s) ← readField 2 0 23 s
  let (_, s) ← readField 2 0 59 (← expect ':' s)
  let (_, s) ← readField 2 0 60 (← expect ':' s)
  match s with
  | '.' :: rest =>
    if (rest.takeWhile Char.isDigit).isEmpty then none else some (rest.dropWhile Char.isDigit)
  | _ => some s

/-- An offset from universal time, by the text that follows it, or the text itself. -/
def skipOffset (s : List Char) : Option (List Char) :=
  match s with
  | c :: rest =>
    if c = 'Z' || c = 'z' then some rest
    else if c = '+' || c = '-' then do
      let (_, rest) ← readField 2 0 23 rest
      let (_, rest) ← readField 2 0 59 (← expect ':' rest)
      some rest
    else some s
  | [] => some []

/-- The time after a date, if there is one, by the text that follows both. -/
def skipTimeOfDate (s : List Char) : Option (List Char) :=
  match s with
  | c :: rest =>
    if c = 'T' || c = 't' then (skipTime rest).bind skipOffset
    else if c = ' ' then
      match skipTime rest with
      | some after => skipOffset after
      | none => some s
    else some s
  | [] => some []

/-- Whether a text starts like a date or a time of day: no number does. -/
def looksTemporal (s : List Char) : Bool :=
  let digits := s.takeWhile Char.isDigit
  let next := (s.dropWhile Char.isDigit).head?
  (digits.length = 4 && next = some '-') || (digits.length = 2 && next = some ':')

/-- The part of `s` in front of its end `rest`. -/
def textBefore (s rest : List Char) : String :=
  String.ofList (s.take (s.length - rest.length))

def readTemporal (s : List Char) : Option (Value × List Char) := do
  let rest ←
    match skipTime s with
    | some rest => some rest
    | none => (skipDate s).bind skipTimeOfDate
  some (.datetime (textBefore s rest), rest)

def readScalar (s : List Char) : Option (Value × List Char) :=
  match s with
  | [] => none
  | c :: _ =>
    if c = '"' || c = '\'' then (readString s).map fun (t, rest) => (.string t, rest)
    else
      match s with
      | 't' :: 'r' :: 'u' :: 'e' :: rest => some (.boolean true, rest)
      | 'f' :: 'a' :: 'l' :: 's' :: 'e' :: rest => some (.boolean false, rest)
      | '0' :: 'x' :: rest => readBased 16 rest
      | '0' :: 'o' :: rest => readBased 8 rest
      | '0' :: 'b' :: rest => readBased 2 rest
      | _ =>
        if looksTemporal s then readTemporal s
        else
          (readSigned s).map fun
            | (.float _, rest) => (.float (textBefore s rest), rest)
            | r => r

end JavaMigration.Toml
