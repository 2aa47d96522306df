import JavaMigration.Proofs.Number.Nearest

/-!
# The order of floating-point numbers

Numbers are compared by their exact values. The two zeros are equal, the infinities stand at the
ends, and not-a-number compares with nothing. On numbers without a sign all operations follow the
order, with every rounding in them.
-/

namespace JavaMigration.Number.Binary64

def signedUnits (negative : Bool) (index : Nat) : Int :=
  if negative then -(units index : Int) else units index

inductive Le : Binary64 → Binary64 → Prop
  | bottom {y : Binary64} : y ≠ nan → Le (infinite true) y
  | top {x : Binary64} : x ≠ nan → Le x (infinite false)
  | finite {s t : Bool} {i j : Fin limit} :
      signedUnits s i ≤ signedUnits t j → Le (finite s i) (finite t j)

instance : LE Binary64 := ⟨Le⟩

/-- The numbers without a sign, from zero to infinity. -/
inductive IsUnsigned : Binary64 → Prop
  | magnitude (index : Fin limit) : IsUnsigned (finite false index)
  | infinity : IsUnsigned (infinite false)

inductive IsFactor : Binary64 → Prop
  | magnitude (index : Fin limit) : 0 < index.val → IsFactor (finite false index)

instance : DecidablePred IsFactor
  | finite false index =>
    if positive : 0 < index.val then .isTrue (.magnitude index positive)
    else .isFalse fun | .magnitude _ above => positive above
  | finite true _ => .isFalse nofun
  | infinite _ => .isFalse nofun
  | nan => .isFalse nofun

variable {x x' y y' z q : Binary64} {i j : Fin limit} {num den num' den' n : Nat}

theorem Le.right_ne_nan (h : x ≤ y) : y ≠ nan := by
  cases h with
  | bottom number => exact number
  | top => exact nofun
  | finite => exact nofun

theorem le_trans (h : x ≤ y) (h' : y ≤ z) : x ≤ z := by
  cases h with
  | bottom => exact .bottom h'.right_ne_nan
  | top number =>
    cases h' with
    | top => exact .top number
  | finite first =>
    cases h' with
    | top => exact .top nofun
    | finite second => exact .finite (first.trans second)

theorem one_positive : 0 < one := twoTo_pos 1074

theorem finite_le_finite : finite false i ≤ finite false j ↔ i.val ≤ j.val := by
  have values : signedUnits false i ≤ signedUnits false j ↔ i.val ≤ j.val := by
    simp [signedUnits, units_le_units]
  rw [← values]
  exact ⟨fun | .finite le => le, .finite⟩

theorem IsUnsigned.le_infinite (h : IsUnsigned x) : x ≤ infinite false := by
  cases h <;> exact .top nofun

theorem not_infinite_le_finite : ¬ infinite false ≤ finite false i := by
  intro le
  cases le

theorem IsUnsigned.le_refl (h : IsUnsigned x) : x ≤ x := by
  cases h with
  | magnitude i => exact finite_le_finite.2 (Nat.le_refl _)
  | infinity => exact IsUnsigned.infinity.le_infinite

theorem nearest_of_lt {negative : Bool} (h : nearestIndex num den < limit) :
    nearest negative num den = finite negative ⟨nearestIndex num den, h⟩ := by
  rw [nearest, dif_pos h]

theorem nearest_of_le {negative : Bool} (h : limit ≤ nearestIndex num den) :
    nearest negative num den = infinite negative := by
  rw [nearest, dif_neg (Nat.not_lt.2 h)]

theorem isUnsigned_nearest (num den : Nat) : IsUnsigned (nearest false num den) := by
  rcases Nat.lt_or_ge (nearestIndex num den) limit with small | large
  · rw [nearest_of_lt small]
    exact .magnitude _
  · rw [nearest_of_le large]
    exact .infinity

theorem nearest_units (negative : Bool) (i : Fin limit) :
    nearest negative (units i) 1 = finite negative i := by
  have small : nearestIndex (units i) 1 < limit := by
    rw [nearestIndex_units]
    exact i.isLt
  rw [nearest_of_lt small]
  exact congrArg (finite negative) (Fin.ext (nearestIndex_units i))

theorem nearest_le_nearest (pos : 0 < den) (pos' : 0 < den') (h : num * den' ≤ num' * den) :
    nearest false num den ≤ nearest false num' den' := by
  have indices := nearestIndex_le_nearestIndex pos pos' h
  rcases Nat.lt_or_ge (nearestIndex num' den') limit with small | large
  · rw [nearest_of_lt small, nearest_of_lt (indices.trans_lt small), finite_le_finite]
    exact indices
  · rw [nearest_of_le large]
    exact (isUnsigned_nearest num den).le_infinite

theorem finite_le_nearest (pos : 0 < den) (h : units i * den ≤ num) :
    finite false i ≤ nearest false num den := by
  rw [← nearest_units]
  exact nearest_le_nearest Nat.one_pos pos (h.trans (Nat.mul_one num).ge)

theorem nearest_le_finite (pos : 0 < den) (h : num ≤ units i * den) :
    nearest false num den ≤ finite false i := by
  rw [← nearest_units]
  exact nearest_le_nearest pos Nat.one_pos ((Nat.mul_one num).le.trans h)

theorem ofNat_le_ofNat {m n : Nat} (h : m ≤ n) : ofNat m ≤ ofNat n :=
  nearest_le_nearest Nat.one_pos Nat.one_pos
    (Nat.mul_le_mul_right 1 (Nat.mul_le_mul_right one h))

theorem ofQuotient_le_ofNat (pos : 0 < den) (h : num ≤ n * den) : ofQuotient num den ≤ ofNat n := by
  have scaled : num * one * 1 ≤ n * one * den := by
    rw [Nat.mul_one, Nat.mul_right_comm]
    exact Nat.mul_le_mul_right one h
  exact nearest_le_nearest pos Nat.one_pos scaled

theorem isUnsigned_ofNat (n : Nat) : IsUnsigned (ofNat n) :=
  isUnsigned_nearest _ _

theorem ofNat_zero : ofNat 0 = nearest false (units 0) 1 := by
  have none : units 0 = 0 := by decide
  rw [ofNat, Nat.zero_mul, none]

theorem finite_add_finite (i j : Fin limit) :
    finite false i + finite false j = nearest false (units i + units j) 1 := by
  change add (finite false i) (finite false j) = _
  rw [add, if_pos rfl]

theorem finite_mul_finite (i j : Fin limit) :
    finite false i * finite false j = nearest false (units i * units j) one := by
  change mul (finite false i) (finite false j) = _
  rw [mul, Bool.xor_self]

theorem divNat_finite (i : Fin limit) (n : Nat) :
    (finite false i).divNat n = nearest false (units i) n := by
  rw [divNat]

theorem roundTenth_finite (i : Fin limit) :
    (finite false i).roundTenth = nearest false (roundHalfEven (10 * units i) one * one) 10 := by
  rw [roundTenth]

theorem infinite_mul_factor (factor : IsFactor q) : infinite false * q = infinite false := by
  obtain ⟨j, positive⟩ := factor
  change mul (infinite false) (finite false j) = _
  rw [mul, if_neg positive.ne', Bool.xor_self]

theorem IsUnsigned.infinite_add (hy : IsUnsigned y) : infinite false + y = infinite false := by
  cases hy <;> rfl

theorem IsUnsigned.add (hx : IsUnsigned x) (hy : IsUnsigned y) : IsUnsigned (x + y) := by
  cases hx with
  | infinity => cases hy <;> exact .infinity
  | magnitude i =>
    cases hy with
    | magnitude j =>
      rw [finite_add_finite]
      exact isUnsigned_nearest _ _
    | infinity => exact .infinity

theorem add_le_add (hx : IsUnsigned x) (hx' : IsUnsigned x') (hy : IsUnsigned y)
    (hy' : IsUnsigned y') (first : x ≤ x') (second : y ≤ y') : x + y ≤ x' + y' := by
  have sum := hx.add hy
  cases hx' with
  | infinity =>
    rw [hy'.infinite_add]
    exact sum.le_infinite
  | magnitude i' =>
    cases hy' with
    | infinity => exact sum.le_infinite
    | magnitude j' =>
      cases hx with
      | infinity => exact absurd first not_infinite_le_finite
      | magnitude i =>
        cases hy with
        | infinity => exact absurd second not_infinite_le_finite
        | magnitude j =>
          have exact_le := Nat.add_le_add (units_le_units.2 (finite_le_finite.1 first))
            (units_le_units.2 (finite_le_finite.1 second))
          rw [finite_add_finite, finite_add_finite]
          exact nearest_le_nearest Nat.one_pos Nat.one_pos (Nat.mul_le_mul_right 1 exact_le)

theorem le_add_right (hx : IsUnsigned x) (hy : IsUnsigned y) : x ≤ x + y := by
  cases hx with
  | infinity =>
    rw [hy.infinite_add]
    exact IsUnsigned.infinity.le_infinite
  | magnitude i =>
    cases hy with
    | infinity => exact (IsUnsigned.magnitude i).le_infinite
    | magnitude j =>
      rw [finite_add_finite]
      refine finite_le_nearest Nat.one_pos ?_
      rw [Nat.mul_one]
      exact Nat.le_add_right _ _

theorem IsUnsigned.add_zero (hx : IsUnsigned x) : x + ofNat 0 = x := by
  have zero : ofNat 0 = finite false ⟨0, by decide⟩ := by
    rw [ofNat_zero]
    exact nearest_units false ⟨0, by decide⟩
  have none : units 0 = 0 := by decide
  rw [zero]
  cases hx with
  | infinity => rfl
  | magnitude i => rw [finite_add_finite, none, Nat.add_zero, nearest_units]

theorem IsUnsigned.mul (hx : IsUnsigned x) (factor : IsFactor q) : IsUnsigned (x * q) := by
  cases hx with
  | magnitude i =>
    obtain ⟨j, -⟩ := factor
    rw [finite_mul_finite]
    exact isUnsigned_nearest _ _
  | infinity =>
    rw [infinite_mul_factor factor]
    exact .infinity

theorem mul_le_mul_right (hx : IsUnsigned x) (hx' : IsUnsigned x') (factor : IsFactor q)
    (h : x ≤ x') : x * q ≤ x' * q := by
  cases hx' with
  | infinity =>
    rw [infinite_mul_factor factor]
    exact (hx.mul factor).le_infinite
  | magnitude i' =>
    cases hx with
    | infinity => exact absurd h not_infinite_le_finite
    | magnitude i =>
      obtain ⟨j, -⟩ := factor
      have product := Nat.mul_le_mul_right (units j) (units_le_units.2 (finite_le_finite.1 h))
      rw [finite_mul_finite, finite_mul_finite]
      refine nearest_le_nearest one_positive one_positive ?_
      exact Nat.mul_le_mul_right one product

theorem mul_le_self (hx : IsUnsigned x) (factor : IsFactor q) (most : q ≤ ofNat 1) : x * q ≤ x := by
  cases hx with
  | infinity => exact (IsUnsigned.infinity.mul factor).le_infinite
  | magnitude i =>
    obtain ⟨j, -⟩ := factor
    have unit : ofNat 1 = finite false ⟨1023 * twoTo 52, by decide⟩ := by decide +kernel
    have units_one : units (1023 * twoTo 52) = one := by decide +kernel
    rw [unit, finite_le_finite, ← units_le_units, units_one] at most
    rw [finite_mul_finite]
    refine nearest_le_finite one_positive ?_
    exact Nat.mul_le_mul_left (units i) most

theorem IsUnsigned.divNat (hx : IsUnsigned x) (n : Nat) : IsUnsigned (x.divNat n) := by
  cases hx with
  | magnitude i =>
    rw [divNat_finite]
    exact isUnsigned_nearest _ _
  | infinity => exact .infinity

theorem divNat_le_divNat (hx : IsUnsigned x) (hx' : IsUnsigned x') (pos : 0 < n) (h : x ≤ x') :
    x.divNat n ≤ x'.divNat n := by
  cases hx' with
  | infinity => exact (hx.divNat n).le_infinite
  | magnitude i' =>
    cases hx with
    | infinity => exact absurd h not_infinite_le_finite
    | magnitude i =>
      have units_le := units_le_units.2 (finite_le_finite.1 h)
      rw [divNat_finite, divNat_finite]
      exact nearest_le_nearest pos pos (Nat.mul_le_mul_right n units_le)

theorem divNat_le_self (hx : IsUnsigned x) (pos : 0 < n) : x.divNat n ≤ x := by
  cases hx with
  | infinity => exact IsUnsigned.infinity.le_infinite
  | magnitude i =>
    rw [divNat_finite]
    exact nearest_le_finite pos (Nat.le_mul_of_pos_right _ pos)

theorem roundTenth_le_roundTenth (hx : IsUnsigned x) (hx' : IsUnsigned x') (h : x ≤ x') :
    x.roundTenth ≤ x'.roundTenth := by
  cases hx' with
  | infinity =>
    cases hx with
    | infinity => exact IsUnsigned.infinity.le_infinite
    | magnitude i =>
      rw [roundTenth_finite]
      exact (isUnsigned_nearest _ _).le_infinite
  | magnitude i' =>
    cases hx with
    | infinity => exact absurd h not_infinite_le_finite
    | magnitude i =>
      have units_le := units_le_units.2 (finite_le_finite.1 h)
      have tenths := roundHalfEven_le_roundHalfEven one_positive one_positive
        (Nat.mul_le_mul_right one (Nat.mul_le_mul_left 10 units_le))
      rw [roundTenth_finite, roundTenth_finite]
      exact nearest_le_nearest (by decide) (by decide)
        (Nat.mul_le_mul_right 10 (Nat.mul_le_mul_right one tenths))

end JavaMigration.Number.Binary64
