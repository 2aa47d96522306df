import JavaMigration.Json.Value
import JavaMigration.Number.Decimal

/-!
# Reading JSON

The value that a text denotes. Numbers without a fraction or an exponent are integers, except for a
negative zero, which only floating-point numbers have.
-/

namespace JavaMigration.Json

open Number

def isSpace (c : Char) : Bool :=
  c = ' ' || c = '\t' || c = '\n' || c = '\r'

def hexDigit? (c : Char) : Option Nat :=
  if c.isDigit then some (c.toNat - '0'.toNat)
  else if 'a' ≤ c && c ≤ 'f' then some (c.toNat - 'a'.toNat + 10)
  else if 'A' ≤ c && c ≤ 'F' then some (c.toNat - 'A'.toNat + 10)
  else none

/-- The code unit that four hex digits denote, and what follows them. -/
def readUnit? : List Char → Option (Nat × List Char)
  | a :: b :: c :: d :: rest => do
    let unit := (((← hexDigit? a) * 16 + (← hexDigit? b)) * 16 + (← hexDigit? c)) * 16 +
      (← hexDigit? d)
    some (unit, rest)
  | _ => none

/-- The character after `\u`. One beyond the first plane is written as a pair of surrogates. -/
def readEscapedUnit? (s : List Char) : Option (Char × List Char) := do
  let (unit, rest) ← readUnit? s
  if 0xD800 ≤ unit && unit < 0xDC00 then
    match rest with
    | '\\' :: 'u' :: rest =>
      let (low, rest) ← readUnit? rest
      if 0xDC00 ≤ low && low < 0xE000 then
        some (Char.ofNat (0x10000 + (unit - 0xD800) * 0x400 + (low - 0xDC00)), rest)
      else none
    | _ => none
  else if 0xDC00 ≤ unit && unit < 0xE000 then none
  else some (Char.ofNat unit, rest)

/-- The character after a backslash. -/
def readEscape? : List Char → Option (Char × List Char)
  | '"' :: rest => some ('"', rest)
  | '\\' :: rest => some ('\\', rest)
  | '/' :: rest => some ('/', rest)
  | 'b' :: rest => some ('\x08', rest)
  | 'f' :: rest => some ('\x0c', rest)
  | 'n' :: rest => some ('\n', rest)
  | 'r' :: rest => some ('\r', rest)
  | 't' :: rest => some ('\t', rest)
  | 'u' :: rest => readEscapedUnit? rest
  | _ => none

/-- The rest of a string up to its closing quote, after the characters `read`, the last first. -/
def readString? (fuel : Nat) (read : List Char) (s : List Char) : Option (String × List Char) :=
  match fuel, s with
  | 0, _ => none
  | _, [] => none
  | fuel + 1, c :: rest =>
    if c = '"' then some (String.ofList read.reverse, rest)
    else if c = '\\' then
      match readEscape? rest with
      | some (d, rest) => readString? fuel (d :: read) rest
      | none => none
    else if c.toNat < 32 then none
    else readString? fuel (c :: read) rest

/-- The number that a literal denotes. A sign other than minus and leading zeros are refused. -/
def readNumber? (literal : List Char) : Option Value :=
  let (negative, body) : Bool × List Char := match literal with
    | '-' :: rest => (true, rest)
    | _ => (false, literal)
  let plain := body.all Char.isDigit
  let leadingZero := body.head? = some '0' && ((body.drop 1).head?.map Char.isDigit).getD false
  let afterPoint := (body.dropWhile (· ≠ '.')).drop 1
  let barePoint := body.head? = some '.' || body.getLast? = some '.' ||
    (afterPoint.head?.map Char.isDigit) = some false
  if body.isEmpty || leadingZero || barePoint then none
  else if plain && !(negative && body = ['0']) then
    let n : Int := readDigitsFrom 0 body
    some (.integer (if negative then -n else n))
  else (Decimal.read? body).map fun d => .float (d.toBinary64 negative)

def inNumber (c : Char) : Bool :=
  c.isDigit || c = '-' || c = '+' || c = '.' || c = 'e' || c = 'E'

mutual

/-- The value at the start of `s`, and what follows it. -/
def readValue? (fuel : Nat) (s : List Char) : Option (Value × List Char) :=
  match fuel with
  | 0 => none
  | fuel + 1 =>
    match s.dropWhile isSpace with
    | 'n' :: 'u' :: 'l' :: 'l' :: rest => some (.null, rest)
    | 't' :: 'r' :: 'u' :: 'e' :: rest => some (.bool true, rest)
    | 'f' :: 'a' :: 'l' :: 's' :: 'e' :: rest => some (.bool false, rest)
    | '"' :: rest => (readString? (rest.length + 1) [] rest).map fun (t, rest) => (.string t, rest)
    | '[' :: rest =>
      match rest.dropWhile isSpace with
      | ']' :: rest => some (.array [], rest)
      | _ => readItems? fuel [] rest
    | '\x7b' :: rest =>
      match rest.dropWhile isSpace with
      | '\x7d' :: rest => some (.object [], rest)
      | _ => readFields? fuel [] rest
    | rest => (readNumber? (rest.takeWhile inNumber)).map (·, rest.dropWhile inNumber)

/-- The rest of an array with at least one more item, after those read. -/
def readItems? (fuel : Nat) (read : List Value) (s : List Char) : Option (Value × List Char) :=
  match fuel with
  | 0 => none
  | fuel + 1 => do
    let (v, rest) ← readValue? fuel s
    match rest.dropWhile isSpace with
    | ',' :: rest => readItems? fuel (v :: read) rest
    | ']' :: rest => some (.array (v :: read).reverse, rest)
    | _ => none

/-- The rest of an object with at least one more field, after those read. -/
def readFields? (fuel : Nat) (read : List (String × Value)) (s : List Char) :
    Option (Value × List Char) :=
  match fuel with
  | 0 => none
  | fuel + 1 =>
    match s.dropWhile isSpace with
    | '"' :: rest => do
      let (key, rest) ← readString? (rest.length + 1) [] rest
      match rest.dropWhile isSpace with
      | ':' :: rest =>
        let (v, rest) ← readValue? fuel rest
        match rest.dropWhile isSpace with
        | ',' :: rest => readFields? fuel ((key, v) :: read) rest
        | '\x7d' :: rest => some (.object ((key, v) :: read).reverse, rest)
        | _ => none
      | _ => none
    | _ => none

end

def Value.read? (s : String) : Option Value := do
  let (v, rest) ← readValue? (2 * s.length + 2) s.toList
  if rest.all isSpace then some v else none

end JavaMigration.Json
