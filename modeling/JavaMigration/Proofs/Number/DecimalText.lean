import JavaMigration.Number.Decimal

/-!
# Decimal text

The digits of a whole number read back as the number. So a decimal with one place, whose last digit
stands behind a point, reads back as the decimal and becomes the nearest number.
-/

namespace JavaMigration.Number

theorem isDigit_of_toDigits {n : Nat} : ∀ c ∈ Nat.toDigits 10 n, c.isDigit = true :=
  fun _ mem => Nat.isDigit_of_mem_toDigits (by decide) (by decide) mem

theorem readDigitsFrom_toDigits (n : Nat) : readDigitsFrom 0 (Nat.toDigits 10 n) = n := by
  have sum := Nat.ofDigitChars_ten_toDigits (n := n)
  rw [Nat.ofDigitChars_eq_foldl] at sum
  exact sum

theorem toDigits_padded (n : Nat) :
    List.replicate (1 + 1 - (Nat.toDigits 10 n).length) '0' ++ Nat.toDigits 10 n =
      Nat.toDigits 10 (n / 10) ++ [(n % 10).digitChar] := by
  rcases Nat.lt_or_ge n 10 with small | large
  · rw [Nat.toDigits_of_lt_base small, Nat.div_eq_of_lt small, Nat.mod_eq_of_lt small]
    rfl
  · have some_digits := Nat.length_toDigits_pos (b := 10) (n := n / 10)
    rw [Nat.toDigits_of_base_le (by decide) large, List.length_append, List.length_singleton,
      Nat.sub_eq_zero_of_le (by omega)]
    rfl

theorem toList_positional (n : Nat) :
    (Decimal.positional ⟨n, -1⟩).toList =
      Nat.toDigits 10 (n / 10) ++ ['.', (n % 10).digitChar] := by
  have padded := toDigits_padded n
  have places : (-(-1 : Int)).toNat = 1 := rfl
  unfold Decimal.positional
  dsimp only
  rw [if_neg (by decide), places, padded, String.toList_ofList, List.length_append,
    List.length_singleton, Nat.add_sub_cancel, List.take_left' rfl, List.drop_left' rfl]

theorem readDigitsFrom_concat (n : Nat) :
    readDigitsFrom 0 (Nat.toDigits 10 (n / 10) ++ [(n % 10).digitChar]) = n := by
  have digit := readDigitsFrom_toDigits (n % 10)
  have whole := readDigitsFrom_toDigits (n / 10)
  rw [Nat.toDigits_of_lt_base (Nat.mod_lt n (by decide))] at digit
  unfold readDigitsFrom at digit whole ⊢
  rw [List.foldl_append, whole]
  simp only [List.foldl_cons, List.foldl_nil] at digit ⊢
  omega

theorem read?_positional (n : Nat) :
    Decimal.read? (Nat.toDigits 10 (n / 10) ++ ['.', (n % 10).digitChar]) = some ⟨n, -1⟩ := by
  have digits := isDigit_of_toDigits (n := n / 10)
  have last : (n % 10).digitChar.isDigit = true :=
    isDigit_of_toDigits _ (by
      rw [Nat.toDigits_of_lt_base (Nat.mod_lt n (by decide))]
      exact List.mem_singleton_self _)
  have point : Char.isDigit '.' = false := by decide
  have sum := readDigitsFrom_concat n
  unfold Decimal.read?
  rw [List.takeWhile_append_of_pos digits, List.dropWhile_append_of_pos digits]
  simp [point, last, sum]

theorem word_ne {body : List Char} (pointed : '.' ∈ body) (word : String)
    (other : '.' ∉ word.toList) : String.ofList (body.map Char.toLower) ≠ word := by
  rintro rfl
  apply other
  rw [String.toList_ofList]
  exact List.mem_map.2 ⟨'.', pointed, by decide⟩

/-- A text that starts with a digit and has a point is read as a decimal, with a sign or without. -/
theorem read?_signed {text : String} {c : Char} {tail : List Char} {d : Decimal}
    (starts : text.toList = c :: tail) (digit : c.isDigit = true) (pointed : '.' ∈ text.toList)
    (decimal : Decimal.read? text.toList = some d) (s : Bool) :
    Binary64.read? ((if s then "-" else "") ++ text) = some (d.toBinary64 s) := by
  have inf := word_ne pointed "inf" (by decide)
  have infinity := word_ne pointed "infinity" (by decide)
  have nan := word_ne pointed "nan" (by decide)
  unfold Binary64.read?
  cases s with
  | true =>
    have written : ((if true then "-" else "") ++ text).toList = '-' :: text.toList := by simp
    rw [written]
    simp [inf, infinity, nan, decimal]
  | false =>
    have written : ((if false then "-" else "") ++ text).toList = text.toList := by simp
    rw [written]
    split
    · rename_i sign body unsigned
      -- What starts with a digit starts with no sign.
      split at unsigned
      · rename_i minus
        obtain ⟨rfl, -⟩ := List.cons.inj (starts.symm.trans minus)
        exact absurd digit (by decide)
      · rename_i plus
        obtain ⟨rfl, -⟩ := List.cons.inj (starts.symm.trans plus)
        exact absurd digit (by decide)
      · cases unsigned
        simp [inf, infinity, nan, decimal]

theorem countDigits_le {n k : Nat} (pos : 0 < k) (h : n < tenTo k) : countDigits n ≤ k :=
  (Nat.length_toDigits_le_iff (by decide) pos).2 h

theorem nearest_zero (s : Bool) {den den' : Nat} :
    Binary64.nearest s 0 den = Binary64.nearest s 0 den' := by
  have zero (den : Nat) : Binary64.nearestIndex 0 den = 0 := by
    simp [Binary64.nearestIndex, roundHalfEven]
  simp only [Binary64.nearest, zero]

theorem toBinary64_tenths (s : Bool) {n : Nat} (small : n < tenTo 401) :
    Decimal.toBinary64 s ⟨n, -1⟩ = .nearest s (n * Binary64.one) 10 := by
  have most := countDigits_le (by decide) small
  have some_digits : 0 < countDigits n := Nat.length_toDigits_pos
  unfold Decimal.toBinary64
  dsimp only
  rcases Nat.eq_zero_or_pos n with rfl | positive
  · rw [if_pos (by simp), Nat.zero_mul]
    exact nearest_zero s
  · have below : ¬ (-1 + (countDigits n : Int) < -400) := by omega
    have above : ¬ (400 < -1 + (countDigits n : Int)) := by omega
    have factors : tenTo (-1 : Int).toNat = 1 ∧ tenTo (-(-1 : Int)).toNat = 10 := by decide
    rw [if_neg (by simp [Nat.ne_of_gt positive, below]), if_neg above, factors.1, factors.2,
      Nat.mul_one]

end JavaMigration.Number
