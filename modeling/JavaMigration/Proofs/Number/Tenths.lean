import JavaMigration.Proofs.Number.Closest
import JavaMigration.Proofs.Number.DecimalText

/-!
# Rounding to tenths

A number is rounded to the closest multiple of a tenth and from there to the closest number. The
second step moves it no farther from the multiple than it was before, so nothing is left to round.
-/

namespace JavaMigration.Number.Binary64

variable {i j : Fin limit} {x y : Binary64}

def neg : Binary64 → Binary64
  | finite s i => finite (!s) i
  | infinite s => infinite (!s)
  | nan => nan

instance : Neg Binary64 := ⟨neg⟩

theorem neg_finite (s : Bool) (i : Fin limit) : -finite s i = finite (!s) i := rfl

def tenths (index : Nat) : Nat :=
  roundHalfEven (10 * units index) one

theorem isClosestWhole_tenths (i : Fin limit) :
    IsClosestWhole (10 * value (false, i)) (tenths i) := by
  have closest := isClosestWhole_roundHalfEven (10 * units i) one_positive
  have exactly : 10 * value (false, i) = (10 * units i : Nat) / (one : Nat) := by
    rw [value_false]
    push_cast
    ring
  rw [exactly]
  exact closest

def greatest : Nat :=
  (twoTo 53 - 1) * twoTo 971

theorem units_greatest : units (limit - 1) = greatest * one := by decide +kernel

theorem tenths_le (i : Fin limit) : tenths i ≤ 10 * greatest := by
  apply roundHalfEven_le one_positive
  rw [Nat.mul_assoc, ← units_greatest]
  exact Nat.mul_le_mul_left 10 (units_le_units.2 (Nat.le_pred_of_lt i.isLt))

theorem nearestIndex_tenths_lt (i : Fin limit) : nearestIndex (tenths i * one) 10 < limit := by
  have bound : tenths i * one * 1 ≤ units (limit - 1) * 10 := by
    calc tenths i * one * 1 = tenths i * one := Nat.mul_one _
      _ ≤ 10 * greatest * one := Nat.mul_le_mul_right one (tenths_le i)
      _ = units (limit - 1) * 10 := by rw [units_greatest]; ring
  have index := nearestIndex_le_nearestIndex (by decide) Nat.one_pos bound
  rw [nearestIndex_units] at index
  have range : 0 < limit := by decide
  omega

def tenthIndex (i : Fin limit) : Fin limit :=
  ⟨nearestIndex (tenths i * one) 10, nearestIndex_tenths_lt i⟩

theorem roundTenth_eq (s : Bool) (i : Fin limit) :
    (finite s i).roundTenth = finite s (tenthIndex i) := by
  rw [roundTenth]
  exact nearest_of_lt (nearestIndex_tenths_lt i)

theorem isClosestFinite_tenthIndex (i : Fin limit) :
    IsClosestFinite (tenths i / 10) (false, tenthIndex i) := by
  have closest := isClosestFinite_nearestIndex (tenths i * one) (by decide : 0 < 10)
    (nearestIndex_tenths_lt i)
  rw [mul_one_div_div_one] at closest
  exact_mod_cast closest

/--
A number that is at least as close to a multiple of a tenth as one that is rounded to it is rounded
to it as well.
-/
theorem isClosestWhole_of_closer {v r : ℚ} {k : ℤ} (closest : IsClosestWhole (10 * v) k)
    (closer : |k / 10 - r| ≤ |k / 10 - v|) : IsClosestWhole (10 * r) k := by
  have scaled (q : ℚ) : |10 * q - k| = 10 * |k / 10 - q| := by
    rw [abs_sub_comm, ← abs_of_pos (by norm_num : (0 : ℚ) < 10), ← abs_mul,
      abs_of_pos (by norm_num : (0 : ℚ) < 10)]
    congr 1
    ring
  obtain ⟨near, tied⟩ := isClosestWhole_iff.1 closest
  have least : |10 * r - k| ≤ |10 * v - k| := by
    rw [scaled, scaled]
    linarith
  exact isClosestWhole_iff.2
    ⟨least.trans near, fun tie => tied (le_antisymm near (tie.symm.trans_le least))⟩

theorem tenths_tenthIndex (i : Fin limit) : tenths (tenthIndex i) = tenths i := by
  have closest : IsClosestWhole (10 * value (false, tenthIndex i)) (tenths i) :=
    isClosestWhole_of_closer (isClosestWhole_tenths i) ((isClosestFinite_tenthIndex i).least _)
  exact Int.ofNat_inj.1 (closest.unique (isClosestWhole_tenths (tenthIndex i)))

def signedTenths (s : Bool) (i : Fin limit) : ℤ :=
  if s then -(tenths i : ℤ) else tenths i

theorem isClosestWhole_signedTenths (s : Bool) (i : Fin limit) :
    IsClosestWhole (10 * value (s, i)) (signedTenths s i) := by
  have closest := isClosestWhole_tenths i
  cases s with
  | false => simpa only [signedTenths, Bool.false_eq_true, ↓reduceIte] using closest
  | true =>
    have opposite : 10 * value (true, i) = -(10 * value (false, i)) := by
      rw [← Bool.not_false, value_not, mul_neg]
    rw [opposite]
    simp only [signedTenths, ↓reduceIte]
    exact IsClosest.neg (fun k => -k) (fun k => Int.cast_neg k) (fun even => even.neg) closest

theorem isClosestFinite_signedTenths (s : Bool) (i : Fin limit) :
    IsClosestFinite (signedTenths s i / 10) (s, tenthIndex i) := by
  have closest := isClosestFinite_tenthIndex i
  cases s with
  | false =>
    simpa only [signedTenths, Bool.false_eq_true, ↓reduceIte, Int.cast_natCast] using closest
  | true =>
    have opposite : (signedTenths true i : ℚ) / 10 = -(tenths i / 10) := by
      simp only [signedTenths, ↓reduceIte]
      push_cast
      ring
    rw [opposite]
    exact IsClosest.neg (fun x => (!x.1, x.2)) (fun x => value_not x.1 x.2) id closest

theorem tenthIndex_le (h : i.val ≤ j.val) : (tenthIndex i).val ≤ (tenthIndex j).val := by
  have order := roundTenth_le_roundTenth (.magnitude i) (.magnitude j) (finite_le_finite.2 h)
  rwa [roundTenth_eq, roundTenth_eq, finite_le_finite] at order

theorem units_tenthIndex_of_zero (zero : units i = 0) : units (tenthIndex i) = 0 := by
  have none : units 0 = 0 := by decide
  have index : i.val = 0 := by
    rw [← Nat.le_zero, ← units_le_units, none]
    exact zero.le
  obtain rfl : i = ⟨0, by decide⟩ := Fin.ext index
  decide +kernel

theorem roundTenth_ne_nan (number : x ≠ nan) : x.roundTenth ≠ nan := by
  cases x with
  | finite s i =>
    rw [roundTenth_eq]
    exact nofun
  | infinite s => exact nofun
  | nan => exact absurd rfl number

theorem roundTenth_mono (h : x ≤ y) : x.roundTenth ≤ y.roundTenth := by
  cases h with
  | bottom number => exact .bottom (roundTenth_ne_nan number)
  | top number => exact .top (roundTenth_ne_nan number)
  | @finite s t i j le =>
    rw [roundTenth_eq, roundTenth_eq]
    refine .finite ?_
    match s, t with
    | false, false =>
      rw [signedUnits_false, signedUnits_false, Nat.cast_le, units_le_units] at le ⊢
      exact tenthIndex_le le
    | true, true =>
      rw [signedUnits_true, signedUnits_true, neg_le_neg_iff, Nat.cast_le, units_le_units] at le ⊢
      exact tenthIndex_le le
    | true, false =>
      rw [signedUnits_true, signedUnits_false]
      omega
    | false, true =>
      -- Only zeros are in this order, and they stay zeros.
      rw [signedUnits_false, signedUnits_true] at le ⊢
      rw [units_tenthIndex_of_zero (i := i) (by omega),
        units_tenthIndex_of_zero (i := j) (by omega)]
      rfl

theorem roundTenth_neg (x : Binary64) : (-x).roundTenth = -x.roundTenth := by
  cases x with
  | finite s i => rw [neg_finite, roundTenth_eq, roundTenth_eq, neg_finite]
  | infinite s => rfl
  | nan => rfl

theorem roundTenth_roundTenth (x : Binary64) : x.roundTenth.roundTenth = x.roundTenth := by
  cases x with
  | finite s i =>
    have index : tenthIndex (tenthIndex i) = tenthIndex i :=
      Fin.ext (congrArg (fun n => nearestIndex (n * one) 10) (tenths_tenthIndex i))
    rw [roundTenth_eq, roundTenth_eq, index]
  | infinite s => rfl
  | nan => rfl

/-- The text of a number with one decimal place, from its exact value and with ties to even. -/
def oneDecimal : Binary64 → String
  | finite s i => (if s then "-" else "") ++ Decimal.positional ⟨tenths i, -1⟩
  | infinite s => if s then "-inf" else "inf"
  | nan => "NaN"

/-- A number is rounded to what its text with one decimal place is read as. -/
theorem read?_oneDecimal (x : Binary64) : read? x.oneDecimal = some x.roundTenth := by
  cases x with
  | finite s i =>
    have body := toList_positional (tenths i)
    obtain ⟨c, tail, starts⟩ :=
      List.exists_cons_of_ne_nil (Nat.toDigits_ne_nil (n := tenths i / 10) (b := 10))
    have digit : c.isDigit = true := isDigit_of_toDigits c (by rw [starts]; exact .head _)
    have decimal := read?_positional (tenths i)
    rw [← body] at decimal
    rw [starts, List.cons_append] at body
    have pointed : '.' ∈ (Decimal.positional ⟨tenths i, -1⟩).toList := by simp [body]
    have small : tenths i < tenTo 401 := (tenths_le i).trans_lt (by decide +kernel)
    rw [oneDecimal, read?_signed body digit pointed decimal s, toBinary64_tenths s small,
      roundTenth]
    rfl
  | infinite s => cases s <;> decide
  | nan => decide

/--
A finite number is rounded to the one closest number to `k / 10`, for the one whole number `k` that
is closest to ten times its value, with ties to even in both steps; its sign stays. Infinities stay
as they are. Rounding keeps the order and goes with the sign, and a second one changes nothing. It
is what a text with one decimal place is read as.
-/
theorem roundTenth_closest :
    (∀ (s : Bool) (i : Fin limit), ∃ (k : ℤ) (j : Fin limit),
      (finite s i).roundTenth = finite s j ∧
      (∀ m, IsClosestWhole (10 * value (s, i)) m ↔ m = k) ∧
      IsClosestFinite (k / 10) (s, j) ∧ ∀ y, IsClosestFinite (k / 10) y → value y = value (s, j)) ∧
    (∀ s, (infinite s).roundTenth = infinite s) ∧
    (∀ x y : Binary64, x ≤ y → x.roundTenth ≤ y.roundTenth) ∧
    (∀ x : Binary64, (-x).roundTenth = -x.roundTenth) ∧
    (∀ x : Binary64, x.roundTenth.roundTenth = x.roundTenth) ∧
    ∀ x : Binary64, read? x.oneDecimal = some x.roundTenth := by
  refine ⟨?_, fun _ => rfl, fun _ _ => roundTenth_mono, roundTenth_neg, roundTenth_roundTenth,
    read?_oneDecimal⟩
  intro s i
  have whole := isClosestWhole_signedTenths s i
  have closest := isClosestFinite_signedTenths s i
  refine ⟨signedTenths s i, tenthIndex i, roundTenth_eq s i, fun m => ⟨whole.unique, ?_⟩, closest,
    fun y other => other.value_eq closest⟩
  rintro rfl
  exact whole

/-- A quarter is halfway between tenths, and `2.05` is stored below the half. -/
theorem roundTenth_closest_quarter :
    let quarter : Fin limit := ⟨1021 * twoTo 52, by decide⟩
    let fifth : Fin limit := ⟨nearestIndex (2 * one) 10, by decide +kernel⟩
    IsClosestWhole (10 * value (false, quarter)) 2 ∧ IsClosestFinite (2 / 10) (false, fifth) ∧
      (∃ j, (finite false quarter).roundTenth = finite false j ∧
        value (false, fifth) = value (false, j)) ∧
      finite false quarter ≤ ofQuotient 205 100 ∧ (ofQuotient 205 100).roundTenth = ofNat 2 ∧
      (finite false quarter).roundTenth ≤ (ofQuotient 205 100).roundTenth := by
  intro quarter fifth
  have units_quarter : units quarter * 4 = one := by decide +kernel
  have value_quarter : value (false, quarter) = 1 / 4 := by
    have fraction : (units quarter : ℚ) * 4 = one := by exact_mod_cast units_quarter
    rw [value_false, div_eq_iff one_positive_rat.ne']
    linarith
  have tie : IsClosestWhole (10 * value (false, quarter)) 2 := by
    rw [value_quarter, isClosestWhole_iff]
    exact ⟨by norm_num, fun _ => even_two⟩
  have two_tenths : IsClosestFinite (2 / 10) (false, fifth) := by
    have closest := isClosestFinite_nearestIndex (2 * one) (by decide : 0 < 10) fifth.isLt
    rw [mul_one_div_div_one] at closest
    exact_mod_cast closest
  have order : finite false quarter ≤ ofQuotient 205 100 :=
    finite_le_nearest (by decide) (by decide +kernel)
  obtain ⟨rounded, -, mono, -⟩ := roundTenth_closest
  obtain ⟨k, j, result, whole, -, unique⟩ := rounded false quarter
  obtain rfl : 2 = k := (whole 2).1 tie
  exact ⟨tie, two_tenths, ⟨j, result, unique _ two_tenths⟩, order, by decide +kernel,
    mono _ _ order⟩

end JavaMigration.Number.Binary64
