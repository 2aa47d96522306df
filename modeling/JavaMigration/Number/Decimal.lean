import JavaMigration.Number.Binary64

/-!
# Decimal text of binary64 numbers

The decimal with the fewest digits that reads back as a given number, its written forms, and the
number nearest to a written decimal.
-/

namespace JavaMigration.Number

/-- The decimal `coefficient * 10 ^ exponent`. -/
structure Decimal where
  coefficient : Nat
  exponent : Int
deriving DecidableEq, Repr

/-- The open or closed interval of the reals that round to a magnitude, in quarters of a unit. -/
structure Rounding where
  low : Nat
  value : Nat
  high : Nat
  closed : Bool

/-- The interval of the reals that round to the magnitude of the given index. -/
def Binary64.rounding (index : Nat) : Rounding :=
  let m := significand index
  let gap := twoTo (shift index)
  { low := 4 * units index - (if m = twoTo 52 && 0 < shift index then gap else 2 * gap)
    value := 4 * units index
    high := 4 * units index + 2 * gap
    closed := m % 2 = 0 }

/-- Whether `num / den` quarters of a unit lie in the interval. -/
def Rounding.contains (r : Rounding) (num den : Nat) : Bool :=
  if r.closed then r.low * den ≤ num && num ≤ r.high * den
  else r.low * den < num && num < r.high * den

/-- The number of quarters of a unit in `10 ^ exponent`, as a quotient. -/
def powerOfTen (exponent : Int) : Nat × Nat :=
  (4 * Binary64.one * tenTo exponent.toNat, tenTo (-exponent).toNat)

/-- Which neighbour a decimal halfway between two shortest ones goes to. -/
inductive Tie
  | up | even
deriving DecidableEq, Repr

/--
The multiple of `10 ^ exponent` that lies in the interval, of the two next to its value, and the
nearer one if both do.
-/
def Rounding.multiple? (r : Rounding) (tie : Tie) (exponent : Int) : Option Nat :=
  let (num, den) := powerOfTen exponent
  let below := r.value * den / num
  let inBelow := r.contains (below * num) den
  let inAbove := r.contains ((below + 1) * num) den
  if inBelow && inAbove then
    let twice := 2 * (r.value * den - below * num)
    if twice < num then some below
    else if num < twice then some (below + 1)
    else if tie = .even && below % 2 = 0 then some below
    else some (below + 1)
  else if inBelow then some below
  else if inAbove then some (below + 1)
  else none

def countDigits (n : Nat) : Nat :=
  (Nat.toDigits 10 n).length

/-- The exponent of the greatest power of ten that is at most the positive value. -/
def Rounding.magnitude (r : Rounding) : Int :=
  let whole := r.value / (4 * Binary64.one)
  if whole = 0 then
    let scaled := r.value * tenTo 400 / (4 * Binary64.one)
    (countDigits scaled : Int) - 401
  else (countDigits whole : Int) - 1

/-- Removes the zeros at the end of the coefficient, at most `fuel` of them. -/
def Decimal.strip : Nat → Decimal → Decimal
  | 0, d => d
  | fuel + 1, d =>
    if d.coefficient ≠ 0 && d.coefficient % 10 = 0 then
      strip fuel ⟨d.coefficient / 10, d.exponent + 1⟩
    else d

/-- The decimal with the fewest digits that rounds to the magnitude of the given index. -/
def Binary64.shortest (tie : Tie) (index : Nat) : Decimal :=
  if index = 0 then ⟨0, 0⟩
  else
    let r := rounding index
    let found := (List.range 17).findSome? fun (n : Nat) =>
      let exponent := r.magnitude - n
      (r.multiple? tie exponent).map fun k => (⟨k, exponent⟩ : Decimal)
    (found.getD ⟨0, 0⟩).strip 17

/-- A decimal without exponent. -/
def Decimal.positional (d : Decimal) : String :=
  let digits := Nat.toDigits 10 d.coefficient
  if 0 ≤ d.exponent then String.ofList (digits ++ List.replicate d.exponent.toNat '0')
  else
    let places := (-d.exponent).toNat
    let padded := List.replicate (places + 1 - digits.length) '0' ++ digits
    let whole := padded.take (padded.length - places)
    String.ofList (whole ++ '.' :: padded.drop (padded.length - places))

/-- A decimal with one digit before the point and a signed exponent. -/
def Decimal.scientific (d : Decimal) : String :=
  let digits := Nat.toDigits 10 d.coefficient
  let exponent := d.exponent + digits.length - 1
  let fraction := match digits.drop 1 with
    | [] => []
    | rest => '.' :: rest
  let sign := if 0 ≤ exponent then "e+" else "e-"
  String.ofList (digits.take 1 ++ fraction) ++ sign ++ toString exponent.natAbs

/-- The plain form of a number: its shortest decimal, ties up, never with an exponent. -/
def Binary64.plain : Binary64 → String
  | finite negative index => (if negative then "-" else "") ++ (shortest .up index).positional
  | infinite negative => if negative then "-inf" else "inf"
  | nan => "NaN"

/--
The form of a number in records: its shortest decimal, ties to even, with at least one place, and an
exponent for magnitudes from `10 ^ 16` and below `10 ^ -5`. There is none for numbers that are not
finite.
-/
def Binary64.recorded? : Binary64 → Option String
  | finite negative index =>
    let d := shortest .even index
    let point := d.exponent + countDigits d.coefficient
    let text :=
      if d.coefficient = 0 then "0.0"
      else if -5 < point && point ≤ 16 then
        if 0 ≤ d.exponent then d.positional ++ ".0" else d.positional
      else d.scientific
    some ((if negative then "-" else "") ++ text)
  | infinite _ => none
  | nan => none

/--
The number nearest to a decimal. Exponents out of reach of every finite number are settled
beforehand, so that no power of ten grows with them.
-/
def Decimal.toBinary64 (negative : Bool) (d : Decimal) : Binary64 :=
  let point := d.exponent + countDigits d.coefficient
  if d.coefficient = 0 || point < -400 then .nearest negative 0 1
  else if 400 < point then .infinite negative
  else
    .nearest negative (d.coefficient * tenTo d.exponent.toNat * Binary64.one)
      (tenTo (-d.exponent).toNat)

/-- The natural number that the digits continue from `n`. -/
def readDigitsFrom (n : Nat) (s : List Char) : Nat :=
  s.foldl (fun n c => 10 * n + (c.toNat - '0'.toNat)) n

/-- The exponent after its mark: an optional sign and at least one digit. -/
def readExponent? (s : List Char) : Option Int :=
  let signed : Int × List Char := match s with
    | '-' :: rest => (-1, rest)
    | '+' :: rest => (1, rest)
    | _ => (1, s)
  if signed.2.isEmpty || !signed.2.all Char.isDigit then none
  else some (signed.1 * readDigitsFrom 0 signed.2)

/--
An unsigned decimal: digits with at most one point, at least one digit, and an optional exponent.
-/
def Decimal.read? (s : List Char) : Option Decimal :=
  let whole := s.takeWhile Char.isDigit
  let afterWhole := s.dropWhile Char.isDigit
  let (fraction, rest) := match afterWhole with
    | '.' :: t => (t.takeWhile Char.isDigit, t.dropWhile Char.isDigit)
    | _ => ([], afterWhole)
  if whole.isEmpty && fraction.isEmpty then none
  else
    let exponent := match rest with
      | [] => some 0
      | c :: t => if c = 'e' || c = 'E' then readExponent? t else none
    exponent.map fun e => ⟨readDigitsFrom 0 (whole ++ fraction), e - fraction.length⟩

/-- An optional sign, then a decimal or one of the words for infinity and not-a-number. -/
def Binary64.read? (s : String) : Option Binary64 :=
  let (negative, body) := match s.toList with
    | '-' :: rest => (true, rest)
    | '+' :: rest => (false, rest)
    | cs => (false, cs)
  let word := String.ofList (body.map Char.toLower)
  if word = "inf" || word = "infinity" then some (.infinite negative)
  else if word = "nan" then some .nan
  else (Decimal.read? body).map (Decimal.toBinary64 negative)

end JavaMigration.Number
