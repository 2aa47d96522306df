import JavaMigration.Proofs.Number.Order
import Mathlib.Algebra.Group.Int.Even
import Mathlib.Algebra.Order.Field.Rat
import Mathlib.Algebra.Order.Group.Abs
import Mathlib.Algebra.Order.Round
import Mathlib.Data.Rat.Floor
import Mathlib.Tactic.FieldSimp
import Mathlib.Tactic.NormNum
import Mathlib.Tactic.Positivity

/-!
# Closest numbers

What it means that a rounding takes the closest number and an even one of two that are as close, for
any family of numbers to round to. Rounding a quotient does so for the whole numbers, and for the
finite floating-point numbers with their exact values.
-/

namespace JavaMigration.Number

/--
No value of a family is closer to `q` than the one at `i`, and where another one is as close, that
at `i` is even.
-/
structure IsClosest {ι : Type} (value : ι → ℚ) (even : ι → Prop) (q : ℚ) (i : ι) : Prop where
  least (j : ι) : |q - value i| ≤ |q - value j|
  even_of_tie (j : ι) : value j ≠ value i → |q - value j| = |q - value i| → even i

def IsClosestWhole (q : ℚ) (k : ℤ) : Prop :=
  IsClosest (fun k : ℤ => (k : ℚ)) Even q k

section Families

variable {ι : Type} {value : ι → ℚ} {even : ι → Prop} {q g : ℚ} {i i' : ι} {k m : ℤ}

theorem IsClosest.distance_eq (h : IsClosest value even q i) (h' : IsClosest value even q i') :
    |q - value i| = |q - value i'| :=
  le_antisymm (h.least i') (h'.least i)

/-- Two different values that are closest have `q` halfway between them. -/
theorem IsClosest.halfway (h : IsClosest value even q i) (h' : IsClosest value even q i')
    (other : value i ≠ value i') : 2 * q = value i + value i' := by
  rcases abs_eq_abs.1 (h.distance_eq h') with same | opposite
  · exact absurd (by linarith) other
  · linarith

theorem IsClosest.neg (flip : ι → ι) (opposite : ∀ j, value (flip j) = -value j)
    (kept : even i → even (flip i)) (h : IsClosest value even q i) :
    IsClosest value even (-q) (flip i) := by
  have mirrored (v : ℚ) : |-q - v| = |q - -v| := by
    rw [← abs_neg]
    congr 1
    ring
  have distance (j : ι) : |-q - value j| = |q - value (flip j)| := by rw [opposite, mirrored]
  have here : |-q - value (flip i)| = |q - value i| := by rw [opposite, mirrored, neg_neg]
  constructor
  · intro j
    rw [here, distance]
    exact h.least (flip j)
  · intro j other tie
    rw [here, distance] at tie
    refine kept (h.even_of_tie (flip j) ?_ tie)
    intro same
    rw [opposite] at same other
    exact other (by linarith)

theorem one_sub_le_distance (other : m ≠ k) : 1 - |q - k| ≤ |q - m| := by
  have apart : (1 : ℚ) ≤ |(k : ℚ) - m| := by
    exact_mod_cast Int.one_le_abs (sub_ne_zero.2 other.symm)
  have way : |(k : ℚ) - m| ≤ |(k : ℚ) - q| + |q - m| := abs_sub_le _ _ _
  rw [abs_sub_comm (k : ℚ) q] at way
  linarith

theorem isClosestWhole_iff :
    IsClosestWhole q k ↔ |q - k| ≤ 1 / 2 ∧ (|q - k| = 1 / 2 → Even k) := by
  constructor
  · intro closest
    refine ⟨(closest.least (round q)).trans (abs_sub_round q), fun tie => ?_⟩
    -- At a half, the neighbour on the other side of `q` is as close.
    rcases (abs_eq (by norm_num)).1 tie with above | below
    · refine closest.even_of_tie (k + 1) (by simp) ?_
      have next : q - ((k + 1 : ℤ) : ℚ) = -(1 / 2) := by
        push_cast
        linarith
      rw [next, tie]
      norm_num
    · refine closest.even_of_tie (k - 1) (by simp) ?_
      have next : q - ((k - 1 : ℤ) : ℚ) = 1 / 2 := by
        push_cast
        linarith
      rw [next, tie]
      norm_num
  · rintro ⟨near, tied⟩
    constructor
    · intro m
      rcases eq_or_ne m k with rfl | other
      · exact le_rfl
      · linarith [one_sub_le_distance (q := q) other]
    · intro m other tie
      have apart : m ≠ k := fun same => other (congrArg _ same)
      exact tied (le_antisymm near (by linarith [one_sub_le_distance (q := q) apart]))

/-- There is one closest whole number only: two of them would be even, with one halfway between. -/
theorem IsClosestWhole.unique (h : IsClosestWhole q k) (h' : IsClosestWhole q m) : m = k := by
  by_contra other
  have apart := one_sub_le_distance (q := q) other
  have near := (isClosestWhole_iff.1 h).1
  have near' := (isClosestWhole_iff.1 h').1
  have even := (isClosestWhole_iff.1 h).2 (by linarith)
  have even' := (isClosestWhole_iff.1 h').2 (by linarith)
  have halfway : 2 * q = k + m :=
    IsClosest.halfway h h' fun same => other (Int.cast_injective same).symm
  obtain ⟨a, rfl⟩ := even
  obtain ⟨b, rfl⟩ := even'
  have exactly : q = ((a + b : ℤ) : ℚ) := by
    push_cast at halfway ⊢
    linarith
  have least := h.least (a + b)
  rw [← exactly, sub_self, abs_zero] at least
  have first : q - ((a + a : ℤ) : ℚ) = 0 := abs_nonpos_iff.1 least
  have same : a + b = a + a := by
    have cast : ((a + b : ℤ) : ℚ) = ((a + a : ℤ) : ℚ) := by linarith
    exact_mod_cast cast
  exact other (by omega)

/--
Of some values, the multiples of `g` are compared as whole numbers. So the one that is closest among
the multiples is closest among all if each other value is beaten by some multiple.
-/
theorem IsClosest.of_multiples (pos : 0 < g) (closest : IsClosestWhole (q / g) k)
    (here : value i = k * g) (parity : Even k → even i)
    (others : ∀ j, (∃ m : ℤ, value j = m * g) ∨ ∃ m : ℤ, |q - m * g| < |q - value j|) :
    IsClosest value even q i := by
  have distance (m : ℤ) : |q - m * g| = |q / g - m| * g := by
    rw [← abs_of_pos pos, ← abs_mul, abs_of_pos pos, sub_mul, div_mul_cancel₀ q pos.ne']
  have least (m : ℤ) : |q - k * g| ≤ |q - m * g| := by
    rw [distance, distance]
    exact mul_le_mul_of_nonneg_right (closest.least m) pos.le
  rw [← here] at least
  constructor
  · intro j
    rcases others j with ⟨m, multiple⟩ | ⟨m, beaten⟩
    · rw [multiple]
      exact least m
    · exact (least m).trans beaten.le
  · intro j other tie
    rcases others j with ⟨m, multiple⟩ | ⟨m, beaten⟩
    · rw [multiple, here, distance, distance] at tie
      apply parity
      refine closest.even_of_tie m ?_ (mul_right_cancel₀ pos.ne' tie)
      intro same
      exact other (by rw [multiple, here, same])
    · exact absurd (least m) (not_le.2 (beaten.trans_eq tie))

end Families

/-- A rounded quotient is at most a half away, and even where it is a half away. -/
theorem roundHalfEven_bounds (num : Nat) {den : Nat} (pos : 0 < den) :
    2 * (roundHalfEven num den * den) ≤ 2 * num + den ∧
      2 * num ≤ 2 * (roundHalfEven num den * den) + den ∧
      (2 * (roundHalfEven num den * den) = 2 * num + den ∨
        2 * num = 2 * (roundHalfEven num den * den) + den →
        roundHalfEven num den % 2 = 0) := by
  have parts := Nat.div_add_mod' num den
  have rest := Nat.mod_lt num pos
  have next : (num / den + 1) * den = num / den * den + den := Nat.succ_mul _ _
  unfold roundHalfEven
  dsimp only
  split_ifs <;> omega

/-- Quotients are rounded to the closest whole number. -/
theorem isClosestWhole_roundHalfEven (num : Nat) {den : Nat} (pos : 0 < den) :
    IsClosestWhole (num / den) (roundHalfEven num den) := by
  obtain ⟨most, least, tied⟩ := roundHalfEven_bounds num pos
  generalize roundHalfEven num den = k at most least tied ⊢
  have unit : (0 : ℚ) < den := by exact_mod_cast pos
  have distance : (num : ℚ) / den - (k : ℤ) = (num - k * den) / den := by
    rw [sub_div, mul_div_cancel_right₀ _ unit.ne']
    rfl
  have most' : 2 * (k * den : ℚ) ≤ 2 * num + den := by exact_mod_cast most
  have least' : 2 * (num : ℚ) ≤ 2 * (k * den) + den := by exact_mod_cast least
  rw [isClosestWhole_iff, distance, abs_div, abs_of_pos unit, div_le_iff₀ unit,
    div_eq_iff unit.ne', abs_le]
  refine ⟨⟨by linarith, by linarith⟩, fun tie => ?_⟩
  have even : k % 2 = 0 := by
    refine tied ?_
    rcases (abs_eq (by linarith)).1 tie with above | below
    · right
      have double : 2 * (num : ℚ) = 2 * (k * den) + den := by linarith
      exact_mod_cast double
    · left
      have double : 2 * (k * den : ℚ) = 2 * num + den := by linarith
      exact_mod_cast double
  exact_mod_cast Nat.even_iff.2 even

namespace Binary64

/-- The exact value of a finite number, given by its sign and its index. -/
def value (x : Bool × Fin limit) : ℚ :=
  signedUnits x.1 x.2 / one

def IsEven (x : Bool × Fin limit) : Prop :=
  significand x.2 % 2 = 0

def IsClosestFinite (q : ℚ) (x : Bool × Fin limit) : Prop :=
  IsClosest value IsEven q x

variable {num den : Nat} {i j : Fin limit} {q : ℚ}

theorem one_positive_rat : (0 : ℚ) < one := by exact_mod_cast one_positive

theorem mul_one_div_div_one (n den : Nat) : ((n * one : Nat) : ℚ) / den / one = n / den := by
  rw [Nat.cast_mul, div_right_comm, mul_div_cancel_right₀ _ one_positive_rat.ne']

theorem signedUnits_false (index : Nat) : signedUnits false index = units index := by
  simp [signedUnits]

theorem signedUnits_true (index : Nat) : signedUnits true index = -(units index : ℤ) := by
  simp [signedUnits]

theorem value_false (i : Fin limit) : value (false, i) = units i / one := by
  rw [value, signedUnits_false]
  rfl

theorem value_true (i : Fin limit) : value (true, i) = -(units i / one) := by
  rw [value, signedUnits_true, Int.cast_neg, neg_div]
  rfl

theorem value_not (s : Bool) (i : Fin limit) : value (!s, i) = -value (s, i) := by
  cases s with
  | false => rw [Bool.not_false, value_true, value_false]
  | true => rw [Bool.not_true, value_true, value_false, neg_neg]

theorem units_div_one_nonneg (i : Fin limit) : 0 ≤ (units i : ℚ) / one :=
  div_nonneg (Nat.cast_nonneg _) one_positive_rat.le

theorem value_le (s : Bool) (i : Fin limit) : value (s, i) ≤ units i / one := by
  have nonneg := units_div_one_nonneg i
  cases s with
  | false => exact (value_false i).le
  | true =>
    rw [value_true]
    linarith

theorem significand_mod_two (index : Nat) : significand index % 2 = index % 2 := by
  have parts := shift_add_significand index
  have unit : twoTo 52 = 2 * 2 ^ 51 := rfl
  rw [unit] at parts
  omega

/-- A significand with its exponent counts its units, also where it is one too long. -/
theorem units_of_significand {exponent m : Nat} (normal : 0 < exponent → twoTo 52 ≤ m)
    (most : m ≤ twoTo 53) : units (exponent * twoTo 52 + m) = m * twoTo exponent := by
  have unit : twoTo 52 = 2 ^ 52 := rfl
  have double : twoTo 53 = 2 ^ 53 := rfl
  rw [unit] at normal ⊢
  rw [double] at most
  rcases most.lt_or_eq with short | rfl
  · have exponent_eq : shift (exponent * 2 ^ 52 + m) = exponent := by
      unfold shift
      rw [unit]
      omega
    rw [units, significand, exponent_eq, unit, Nat.add_sub_cancel_left]
  · have exponent_eq : shift (exponent * 2 ^ 52 + 2 ^ 53) = exponent + 1 := by
      unfold shift
      rw [unit]
      omega
    have first : exponent * 2 ^ 52 + 2 ^ 53 - (exponent + 1) * 2 ^ 52 = 2 ^ 52 := by omega
    rw [units, significand, exponent_eq, unit, first, twoTo_add, twoTo_eq 1]
    ring

theorem units_nearestIndex (pos : 0 < den) :
    units (nearestIndex num den) =
      roundHalfEven num (den * twoTo (scale num den)) * twoTo (scale num den) := by
  have unit : 0 < den * twoTo (scale num den) := Nat.mul_pos pos (twoTo_pos _)
  rw [nearestIndex_eq]
  exact units_of_significand (fun positive => le_roundHalfEven unit (le_of_scale positive))
    (roundHalfEven_le unit (lt_of_scale pos).le)

/-- A magnitude of no smaller exponent is a multiple of the unit of that exponent. -/
theorem units_eq_of_le_shift {exponent index : Nat} (le : exponent ≤ shift index) :
    units index = significand index * twoTo (shift index - exponent) * twoTo exponent := by
  rw [units, Nat.mul_assoc, ← twoTo_add, Nat.sub_add_cancel le]

theorem units_lt_of_shift_lt {index : Nat} (less : shift index < scale num den) :
    units index < twoTo 52 * twoTo (scale num den) := by
  calc units index < twoTo 53 * twoTo (shift index) :=
        Nat.mul_lt_mul_of_pos_right (significand_lt index) (twoTo_pos _)
    _ = twoTo 52 * twoTo (shift index + 1) := by
        rw [← twoTo_add, ← twoTo_add]
        congr 1
        omega
    _ ≤ twoTo 52 * twoTo (scale num den) := Nat.mul_le_mul_left _ (twoTo_le_twoTo less)

theorem exists_multiple {exponent : Nat} (s : Bool) (le : exponent ≤ shift j) :
    ∃ m : ℤ, value (s, j) = m * (twoTo exponent / one) := by
  have magnitude : (units j : ℚ) / one =
      ((significand j * twoTo (shift j - exponent) : Nat) : ℤ) * (twoTo exponent / one) := by
    rw [units_eq_of_le_shift le]
    push_cast
    ring
  cases s with
  | false => exact ⟨_, (value_false j).trans magnitude⟩
  | true =>
    refine ⟨-((significand j * twoTo (shift j - exponent) : Nat) : ℤ), ?_⟩
    rw [value_true, magnitude, Int.cast_neg, neg_mul]

/-- Rounding to a magnitude that is in range takes the closest of all finite numbers. -/
theorem isClosestFinite_nearestIndex (num : Nat) {den : Nat} (pos : 0 < den)
    (small : nearestIndex num den < limit) :
    IsClosestFinite (num / den / one) (false, ⟨nearestIndex num den, small⟩) := by
  have unit_pos : (0 : ℚ) < twoTo (scale num den) := by exact_mod_cast twoTo_pos _
  have den_pos : (0 : ℚ) < den := by exact_mod_cast pos
  have one_pos := one_positive_rat
  apply IsClosest.of_multiples (g := twoTo (scale num den) / one) (div_pos unit_pos one_pos)
    (k := roundHalfEven num (den * twoTo (scale num den)))
  · have scaled : (num : ℚ) / den / one / (twoTo (scale num den) / one) =
        num / (den * twoTo (scale num den) : Nat) := by
      push_cast
      field_simp
    rw [scaled]
    exact isClosestWhole_roundHalfEven num (Nat.mul_pos pos (twoTo_pos _))
  · rw [value_false, units_nearestIndex pos]
    push_cast
    ring
  · intro even
    have bit : roundHalfEven num (den * twoTo (scale num den)) % 2 = 0 :=
      Nat.even_iff.1 (by exact_mod_cast even)
    have steps : twoTo 52 = 2 * 2 ^ 51 := rfl
    change significand (nearestIndex num den) % 2 = 0
    rw [significand_mod_two, nearestIndex_eq, steps]
    omega
  · rintro ⟨s, j⟩
    rcases Nat.lt_or_ge (shift j) (scale num den) with less | le
    · -- The least significand of the exponent stands between the quotient and the number.
      right
      refine ⟨(twoTo 52 : Nat), ?_⟩
      have first : ((twoTo 52 : Nat) : ℤ) * ((twoTo (scale num den) : ℚ) / one) =
          (twoTo 52 * twoTo (scale num den) : Nat) / one := by
        push_cast
        ring
      have least : ((twoTo 52 * twoTo (scale num den) : Nat) : ℚ) / one ≤ num / den / one := by
        refine div_le_div_of_nonneg_right ((le_div_iff₀ den_pos).2 ?_) one_pos.le
        have quotient := le_of_scale (Nat.zero_lt_of_lt less)
        rw [Nat.mul_comm den, ← Nat.mul_assoc] at quotient
        exact_mod_cast quotient
      have beyond : value (s, j) < (twoTo 52 * twoTo (scale num den) : Nat) / one := by
        refine (value_le s j).trans_lt (div_lt_div_of_pos_right ?_ one_pos)
        exact_mod_cast units_lt_of_shift_lt less
      rw [first, abs_of_nonneg (by linarith), abs_of_nonneg (by linarith)]
      linarith
    · exact .inl (exists_multiple s le)

theorem value_lt_value {x y : Bool × Fin limit} :
    value x < value y ↔ signedUnits x.1 x.2 < signedUnits y.1 y.2 := by
  rw [value, value, div_lt_div_iff_of_pos_right one_positive_rat]
  exact Int.cast_lt

theorem units_lt_units {i j : Nat} : units i < units j ↔ i < j :=
  lt_iff_lt_of_le_iff_le units_le_units

theorem value_false_lt_false : value (false, i) < value (false, j) ↔ i.val < j.val := by
  rw [value_lt_value, signedUnits_false, signedUnits_false, Nat.cast_lt, units_lt_units]

theorem value_true_lt_true : value (true, i) < value (true, j) ↔ j.val < i.val := by
  rw [value_lt_value, signedUnits_true, signedUnits_true, neg_lt_neg_iff, Nat.cast_lt,
    units_lt_units]

theorem value_true_lt_false :
    value (true, i) < value (false, j) ↔ 0 < i.val ∨ 0 < j.val := by
  have none : units 0 = 0 := by decide
  rw [value_lt_value, signedUnits_true, signedUnits_false, ← units_lt_units (i := 0),
    ← units_lt_units (i := 0), none]
  dsimp only
  omega

theorem not_value_false_lt_true : ¬ value (false, i) < value (true, j) := by
  rw [value_lt_value, signedUnits_false, signedUnits_true]
  omega

/-- Two numbers with even significands are no neighbours. -/
theorem exists_between {x y : Bool × Fin limit} (even : IsEven x) (even' : IsEven y)
    (less : value x < value y) : ∃ z, value x < value z ∧ value z < value y := by
  obtain ⟨s, i⟩ := x
  obtain ⟨t, j⟩ := y
  rw [IsEven, significand_mod_two] at even even'
  have one_lt : 1 < limit := by decide
  simp only at even even'
  match s, t with
  | false, false =>
    rw [value_false_lt_false] at less
    have next : i.val + 1 < j.val := by omega
    exact ⟨(false, ⟨i + 1, next.trans j.isLt⟩), value_false_lt_false.2 (Nat.lt_succ_self i),
      value_false_lt_false.2 next⟩
  | true, true =>
    rw [value_true_lt_true] at less
    have next : j.val + 1 < i.val := by omega
    exact ⟨(true, ⟨j + 1, next.trans i.isLt⟩), value_true_lt_true.2 next,
      value_true_lt_true.2 (Nat.lt_succ_self j)⟩
  | false, true => exact absurd less not_value_false_lt_true
  | true, false =>
    -- One of the numbers next to zero stands between those of different signs.
    rw [value_true_lt_false] at less
    rcases Nat.eq_zero_or_pos i.val with zero | positive
    · have above : 1 < j.val := by omega
      exact ⟨(false, ⟨1, one_lt⟩), value_true_lt_false.2 (.inr Nat.one_pos),
        value_false_lt_false.2 above⟩
    · have below : 1 < i.val := by omega
      exact ⟨(true, ⟨1, one_lt⟩), value_true_lt_true.2 below,
        value_true_lt_false.2 (.inl Nat.one_pos)⟩

/-- All numbers that are closest have the same value: of two neighbours, one only is even. -/
theorem IsClosestFinite.value_eq {x y : Bool × Fin limit} (h : IsClosestFinite q x)
    (h' : IsClosestFinite q y) : value x = value y := by
  by_contra other
  wlog less : value x < value y generalizing x y
  · exact this h' h (Ne.symm other) (lt_of_le_of_ne (not_lt.1 less) (Ne.symm other))
  have halfway := IsClosest.halfway h h' other
  have even := h.even_of_tie y (Ne.symm other) (h'.distance_eq h)
  have even' := h'.even_of_tie x other (h.distance_eq h')
  obtain ⟨z, after, before⟩ := exists_between even even' less
  have least := h.least z
  rw [abs_of_nonneg (by linarith : 0 ≤ q - value x)] at least
  rcases le_abs'.1 least with left | right <;> linarith

end Binary64

end JavaMigration.Number
