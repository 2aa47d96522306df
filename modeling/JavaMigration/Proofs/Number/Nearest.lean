import JavaMigration.Number.Binary64
import Mathlib.Data.Nat.Log
import Mathlib.Tactic.Linarith
import Mathlib.Tactic.Ring

/-!
# Nearest magnitudes

Rounding follows the order of quotients, first to whole numbers and then to the magnitudes of
floating-point numbers, and it leaves a magnitude as it is. So magnitudes are in the order of their
indices.
-/

namespace JavaMigration.Number

variable {num den num' den' : Nat}

theorem twoTo_eq (n : Nat) : twoTo n = 2 ^ n := rfl

theorem twoTo_pos (n : Nat) : 0 < twoTo n := Nat.two_pow_pos n

theorem twoTo_add (m n : Nat) : twoTo (m + n) = twoTo m * twoTo n := Nat.pow_add 2 m n

theorem twoTo_le_twoTo {m n : Nat} (h : m ≤ n) : twoTo m ≤ twoTo n :=
  Nat.pow_le_pow_right (by decide) h

theorem div_le_div_of_mul_le (pos : 0 < den) (pos' : 0 < den') (h : num * den' ≤ num' * den) :
    num / den ≤ num' / den' := by
  rw [Nat.le_div_iff_mul_le pos']
  refine Nat.le_of_mul_le_mul_right ?_ pos
  calc num / den * den' * den
      = num / den * den * den' := Nat.mul_right_comm _ _ _
    _ ≤ num * den' := Nat.mul_le_mul_right den' (Nat.div_mul_le_self num den)
    _ ≤ num' * den := h

theorem roundHalfEven_le_roundHalfEven (pos : 0 < den) (pos' : 0 < den')
    (h : num * den' ≤ num' * den) : roundHalfEven num den ≤ roundHalfEven num' den' := by
  rcases (div_le_div_of_mul_le pos pos' h).lt_or_eq with less | same
  · calc roundHalfEven num den
        ≤ num / den + 1 := roundHalfEven_le_div_succ num den
      _ ≤ num' / den' := less
      _ ≤ roundHalfEven num' den' := div_le_roundHalfEven num' den'
  · -- With the same whole part, the remainders are in the order of the quotients.
    have rest : num % den * den' ≤ num' % den' * den := by
      have split := congrArg (· * den') (Nat.div_add_mod num den)
      have split' := congrArg (· * den) (Nat.div_add_mod num' den')
      simp only [Nat.add_mul, same] at split split'
      have whole : den * (num' / den') * den' = den' * (num' / den') * den := by ring
      omega
    have below : 2 * (num' % den') < den' → 2 * (num % den) < den := by
      intro less
      by_contra more
      have first : den * den' ≤ 2 * (num % den) * den' :=
        Nat.mul_le_mul_right den' (not_lt.1 more)
      have second : 2 * (num' % den') * den < den' * den := Nat.mul_lt_mul_of_pos_right less pos
      nlinarith
    have upTo : 2 * (num' % den') ≤ den' → 2 * (num % den) ≤ den := by
      intro less
      by_contra more
      have first : den * den' < 2 * (num % den) * den' :=
        Nat.mul_lt_mul_of_pos_right (not_le.1 more) pos'
      have second : 2 * (num' % den') * den ≤ den' * den := Nat.mul_le_mul_right den less
      nlinarith
    unfold roundHalfEven
    rw [same]
    grind

theorem roundHalfEven_le {k : Nat} (pos : 0 < den) (h : num ≤ k * den) :
    roundHalfEven num den ≤ k := by
  rw [← roundHalfEven_mul_left pos k]
  exact roundHalfEven_le_roundHalfEven pos pos (Nat.mul_le_mul_right den h)

theorem le_roundHalfEven {k : Nat} (pos : 0 < den) (h : k * den ≤ num) :
    k ≤ roundHalfEven num den := by
  rw [← roundHalfEven_mul_left pos k]
  exact roundHalfEven_le_roundHalfEven pos pos (Nat.mul_le_mul_right den h)

namespace Binary64

/-- The exponent of the magnitudes among which a quotient is rounded. -/
def scale (num den : Nat) : Nat :=
  Nat.log2 (num / den) - 52

theorem nearestIndex_eq (num den : Nat) :
    nearestIndex num den =
      scale num den * twoTo 52 + roundHalfEven num (den * twoTo (scale num den)) := rfl

theorem scale_le_scale (pos : 0 < den) (pos' : 0 < den') (h : num * den' ≤ num' * den) :
    scale num den ≤ scale num' den' := by
  have whole := div_le_div_of_mul_le pos pos' h
  unfold scale
  rw [Nat.log2_eq_log_two, Nat.log2_eq_log_two]
  exact Nat.sub_le_sub_right (Nat.log_mono_right whole) 52

theorem lt_of_scale (pos : 0 < den) : num < twoTo 53 * (den * twoTo (scale num den)) := by
  have whole : num / den < twoTo (scale num den + 53) := by
    calc num / den < 2 ^ (Nat.log2 (num / den) + 1) := Nat.lt_log2_self
      _ ≤ twoTo (scale num den + 53) := twoTo_le_twoTo (by unfold scale; omega)
  calc num < twoTo (scale num den + 53) * den := (Nat.div_lt_iff_lt_mul pos).1 whole
    _ = twoTo 53 * (den * twoTo (scale num den)) := by rw [twoTo_add]; ring

theorem le_of_scale (positive : 0 < scale num den) :
    twoTo 52 * (den * twoTo (scale num den)) ≤ num := by
  have large : 52 < Nat.log2 (num / den) := by unfold scale at positive; omega
  have nonzero : num / den ≠ 0 := by
    intro zero
    rw [zero] at large
    exact absurd large (by decide)
  calc twoTo 52 * (den * twoTo (scale num den))
      = twoTo (scale num den + 52) * den := by rw [twoTo_add]; ring
    _ ≤ num / den * den := by
        refine Nat.mul_le_mul_right den ?_
        have exponent : scale num den + 52 = Nat.log2 (num / den) := by unfold scale; omega
        rw [exponent]
        exact Nat.log2_self_le nonzero
    _ ≤ num := Nat.div_mul_le_self num den

/-- Rounding to a magnitude follows the order of quotients. -/
theorem nearestIndex_le_nearestIndex (pos : 0 < den) (pos' : 0 < den')
    (h : num * den' ≤ num' * den) : nearestIndex num den ≤ nearestIndex num' den' := by
  rw [nearestIndex_eq, nearestIndex_eq]
  have unit : 0 < den * twoTo (scale num den) := Nat.mul_pos pos (twoTo_pos _)
  have unit' : 0 < den' * twoTo (scale num' den') := Nat.mul_pos pos' (twoTo_pos _)
  rcases (scale_le_scale pos pos' h).lt_or_eq with less | same
  · -- The last magnitude of an exponent is the first one of the next.
    have most : roundHalfEven num (den * twoTo (scale num den)) ≤ twoTo 53 :=
      roundHalfEven_le unit (lt_of_scale pos).le
    have least : twoTo 52 ≤ roundHalfEven num' (den' * twoTo (scale num' den')) :=
      le_roundHalfEven unit' (le_of_scale (Nat.zero_lt_of_lt less))
    have steps : (scale num den + 1) * twoTo 52 ≤ scale num' den' * twoTo 52 :=
      Nat.mul_le_mul_right _ less
    have double : twoTo 53 = twoTo 52 + twoTo 52 := by decide
    rw [Nat.succ_mul] at steps
    omega
  · rw [← same] at unit' ⊢
    refine Nat.add_le_add_left (roundHalfEven_le_roundHalfEven unit unit' ?_) _
    calc num * (den' * twoTo (scale num den))
        = num * den' * twoTo (scale num den) := (Nat.mul_assoc _ _ _).symm
      _ ≤ num' * den * twoTo (scale num den) := Nat.mul_le_mul_right _ h
      _ = num' * (den * twoTo (scale num den)) := Nat.mul_assoc _ _ _

theorem shift_add_significand (index : Nat) :
    shift index * twoTo 52 + significand index = index := by
  have within : shift index * twoTo 52 ≤ index :=
    (Nat.mul_le_mul_right _ (Nat.sub_le _ 1)).trans (Nat.div_mul_le_self index _)
  unfold significand
  omega

theorem significand_lt (index : Nat) : significand index < twoTo 53 := by
  have parts := shift_add_significand index
  have quotient := Nat.div_add_mod index (twoTo 52)
  have remainder := Nat.mod_lt index (twoTo_pos 52)
  have unit : twoTo 52 = 2 ^ 52 := rfl
  have double : twoTo 53 = 2 ^ 53 := rfl
  unfold shift at parts
  rw [unit] at parts quotient remainder
  omega

theorem le_significand {index : Nat} (positive : 0 < shift index) :
    twoTo 52 ≤ significand index := by
  have parts := shift_add_significand index
  have quotient := Nat.div_add_mod index (twoTo 52)
  have unit : twoTo 52 = 2 ^ 52 := rfl
  unfold shift at parts positive
  rw [unit] at parts positive quotient ⊢
  omega

theorem scale_units (index : Nat) : scale (units index) 1 = shift index := by
  have high := significand_lt index
  unfold scale
  rw [Nat.div_one, units]
  rcases Nat.eq_zero_or_pos (shift index) with smallest | positive
  · have small : significand index * twoTo (shift index) < 2 ^ 53 := by
      rw [smallest]
      exact (Nat.mul_one _).trans_lt high
    have short : Nat.log2 (significand index * twoTo (shift index)) < 53 := by
      by_contra long
      have nonzero : significand index * twoTo (shift index) ≠ 0 := by
        intro zero
        rw [zero] at long
        exact long (by decide)
      exact long ((Nat.log2_lt nonzero).2 small)
    omega
  · have low := le_significand positive
    have nonzero : significand index * twoTo (shift index) ≠ 0 :=
      (Nat.mul_pos ((twoTo_pos 52).trans_le low) (twoTo_pos _)).ne'
    have exponent : Nat.log2 (significand index * twoTo (shift index)) = 52 + shift index := by
      rw [Nat.log2_eq_iff nonzero]
      constructor
      · calc 2 ^ (52 + shift index) = twoTo 52 * twoTo (shift index) := Nat.pow_add 2 _ _
          _ ≤ significand index * twoTo (shift index) := Nat.mul_le_mul_right _ low
      · calc significand index * twoTo (shift index)
            < twoTo 53 * twoTo (shift index) := Nat.mul_lt_mul_of_pos_right high (twoTo_pos _)
          _ = 2 ^ (52 + shift index + 1) := by
            rw [← twoTo_add, twoTo_eq]
            congr 1
            omega
    omega

/-- A magnitude is the nearest one to its own units. -/
theorem nearestIndex_units (index : Nat) : nearestIndex (units index) 1 = index := by
  rw [nearestIndex_eq, scale_units, Nat.one_mul, units, roundHalfEven_mul_left (twoTo_pos _),
    shift_add_significand]

theorem units_le_units {i j : Nat} : units i ≤ units j ↔ i ≤ j := by
  have follows : ∀ {i j : Nat}, units i ≤ units j → i ≤ j := by
    intro i j le
    rw [← nearestIndex_units i, ← nearestIndex_units j]
    exact nearestIndex_le_nearestIndex Nat.one_pos Nat.one_pos (Nat.mul_le_mul_right 1 le)
  refine ⟨follows, fun le => ?_⟩
  by_contra less
  obtain rfl := le_antisymm le (follows (not_le.1 less).le)
  exact less le_rfl

end Binary64

end JavaMigration.Number
