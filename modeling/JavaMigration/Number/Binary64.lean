import JavaMigration.Number.Power
import JavaMigration.Number.Rounding

/-!
# Binary64 numbers

Floating-point numbers of 64 bits with exact arithmetic behind them. A finite magnitude is given by
its index among all finite magnitudes in ascending order, and counts a whole number of units of
`2 ^ -1074`; every operation computes in units and rounds once, to nearest and ties to even.
-/

namespace JavaMigration.Number

/-- The number of finite magnitudes: the index of the first one that is out of range. -/
abbrev Binary64.limit : Nat := 2047 * twoTo 52

inductive Binary64
  | finite (negative : Bool) (index : Fin Binary64.limit)
  | infinite (negative : Bool)
  | nan
deriving DecidableEq, Repr

namespace Binary64

/-- The exponent of a magnitude, counted from the smallest. -/
def shift (index : Nat) : Nat :=
  index / twoTo 52 - 1

/-- The significand of a magnitude: its units are `significand * 2 ^ shift`. -/
def significand (index : Nat) : Nat :=
  index - shift index * twoTo 52

/-- A magnitude in units of `2 ^ -1074`. -/
def units (index : Nat) : Nat :=
  significand index * twoTo (shift index)

/-- The units that make one. -/
abbrev one : Nat := twoTo 1074

/-- The index of the magnitude nearest to `num / den` units, as if there were no largest one. -/
def nearestIndex (num den : Nat) : Nat :=
  let shift := Nat.log2 (num / den) - 52
  shift * twoTo 52 + roundHalfEven num (den * twoTo shift)

/-- The number with the given sign nearest to `num / den` units. -/
def nearest (negative : Bool) (num den : Nat) : Binary64 :=
  let index := nearestIndex num den
  if h : index < limit then .finite negative ⟨index, h⟩ else .infinite negative

def ofNat (n : Nat) : Binary64 :=
  nearest false (n * one) 1

/-- The number nearest to `num / den`. -/
def ofQuotient (num den : Nat) : Binary64 :=
  nearest false (num * one) den

def isFinite : Binary64 → Bool
  | finite _ _ => true
  | infinite _ => false
  | nan => false

/-- The sum of two numbers. An exact zero is positive unless both are negative zeros. -/
def add : Binary64 → Binary64 → Binary64
  | nan, _ => nan
  | _, nan => nan
  | infinite s, infinite t => if s = t then infinite s else nan
  | infinite s, finite _ _ => infinite s
  | finite _ _, infinite t => infinite t
  | finite s i, finite t j =>
    if s = t then nearest s (units i + units j) 1
    else if units j < units i then nearest s (units i - units j) 1
    else if units i < units j then nearest t (units j - units i) 1
    else nearest false 0 1

def mul : Binary64 → Binary64 → Binary64
  | nan, _ => nan
  | _, nan => nan
  | infinite s, infinite t => infinite (s ^^ t)
  | infinite s, finite t j => if j.val = 0 then nan else infinite (s ^^ t)
  | finite s i, infinite t => if i.val = 0 then nan else infinite (s ^^ t)
  | finite s i, finite t j => nearest (s ^^ t) (units i * units j) one

/-- The number divided by a positive natural number. -/
def divNat (x : Binary64) (n : Nat) : Binary64 :=
  match x with
  | finite s i => nearest s (units i) n
  | infinite s => infinite s
  | nan => nan

instance : Add Binary64 := ⟨add⟩
instance : Mul Binary64 := ⟨mul⟩

/--
The number nearest to the multiple of a tenth that is nearest to `x`; ties go to the even multiple.
-/
def roundTenth : Binary64 → Binary64
  | finite s i => nearest s (roundHalfEven (10 * units i) one * one) 10
  | infinite s => infinite s
  | nan => nan

end Binary64

end JavaMigration.Number
