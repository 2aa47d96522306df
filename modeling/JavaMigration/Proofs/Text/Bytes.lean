import JavaMigration.Text.Bytes
import Mathlib.Data.String.Basic

/-!
# Texts and the bytes they are shown from

Bytes that are a text are shown as it. Of other bytes at least those of ASCII characters stay what
they are, since a character of several bytes is never an ASCII one, whatever it breaks off with.
-/

namespace JavaMigration.Text

theorem toList_loop (b : ByteArray) (i : Nat) (done : List UInt8) :
    ByteArray.toList.loop b i done = done.reverse ++ b.data.toList.drop i := by
  fun_induction ByteArray.toList.loop b i done with
  | case1 i done inside ih =>
    have size : i < b.data.toList.length := inside
    have byte : b.get! i = b.data.toList[i] := by
      simp [ByteArray.get!, getElem!_pos, inside]
    rw [ih, List.drop_eq_getElem_cons size, byte]
    simp
  | case2 i done outside =>
    have size : b.data.toList.length ≤ i := Nat.le_of_not_lt outside
    rw [List.drop_eq_nil_of_le size, List.append_nil]

theorem bytes_eq (s : String) : bytes s = s.toList.flatMap String.utf8EncodeChar :=
  rfl

/-- Names are stored in the same bytes as contents. -/
theorem toList_toUTF8 (s : String) : s.toUTF8.toList = bytes s := by
  have written : s.toUTF8 = (s.toList.flatMap String.utf8EncodeChar).toByteArray := by
    rw [← List.utf8Encode, String.utf8Encode_toList]
    rfl
  rw [bytes, ByteArray.toList, toList_loop, written]
  simp

@[simp]
theorem bytes_append (s s' : String) : bytes (s ++ s') = bytes s ++ bytes s' := by
  simp [bytes_eq]

theorem length_le_length_bytes (s : String) : s.toList.length ≤ (bytes s).length := by
  rw [bytes_eq]
  induction s.toList with
  | nil => exact Nat.le_refl 0
  | cons c cs ih =>
    have := c.utf8Size_pos
    rw [List.flatMap_cons, List.length_append, String.length_utf8EncodeChar, List.length_cons]
    omega

/-- A byte of ASCII stands for its own character alone. Those of others have their highest bit set. -/
theorem eq_of_mem_utf8EncodeChar {c : Char} {b : UInt8} (ascii : b.toNat < 128)
    (mem : b ∈ String.utf8EncodeChar c) : c = Char.ofNat b.toNat := by
  have value : ∀ n : Nat, b = UInt8.ofNat n → n % 256 = b.toNat := by
    rintro n rfl
    simp
  revert mem
  fun_cases String.utf8EncodeChar c with
  | case1 v short =>
    intro mem
    have same := value _ (List.mem_singleton.1 mem)
    rw [Nat.mod_eq_of_lt (by omega)] at same
    rw [← same]
    exact (Char.ofNat_toNat c).symm
  | case2 v long short =>
    intro mem
    simp only [List.mem_cons, List.not_mem_nil, or_false] at mem
    rcases mem with mem | mem
    all_goals have := value _ mem; omega
  | case3 v long longer short =>
    intro mem
    simp only [List.mem_cons, List.not_mem_nil, or_false] at mem
    rcases mem with mem | mem | mem
    all_goals have := value _ mem; omega
  | case4 v long longer longest =>
    intro mem
    simp only [List.mem_cons, List.not_mem_nil, or_false] at mem
    rcases mem with mem | mem | mem | mem
    all_goals have := value _ mem; omega

theorem mem_of_mem_bytes {s : String} {b : UInt8} (ascii : b.toNat < 128) (mem : b ∈ bytes s) :
    Char.ofNat b.toNat ∈ s.toList := by
  obtain ⟨c, inside, byte⟩ := List.mem_flatMap.1 mem
  exact eq_of_mem_utf8EncodeChar ascii byte ▸ inside

theorem lossyFrom_first {b : UInt8} {c : Begun} (above : 0x80 ≤ b) (begins : Begun.ofByte? b = some c)
    (rest : List UInt8) : lossyFrom none (b :: rest) = lossyFrom (some c) rest := by
  have notAscii : ¬ b < 0x80 := UInt8.not_lt.2 above
  simp only [lossyFrom, showNext, showFirst, if_neg notAscii, begins, List.nil_append]

theorem lossyFrom_within {c : Begun} {b : UInt8} (low : c.low ≤ b) (high : b ≤ c.high)
    (rest : List UInt8) :
    lossyFrom (some c) (b :: rest) =
      if c.missing = 1 then Char.ofNat (c.add b).value :: lossyFrom none rest
      else lossyFrom (some (c.add b)) rest := by
  rw [lossyFrom, showNext, if_pos (by simp [low, high])]
  split <;> rfl

theorem lossyFrom_tail {value missing : Nat} {low high : UInt8} {n : Nat}
    (above : low.toNat ≤ n % 64 + 128) (below : n % 64 + 128 ≤ high.toNat) (rest : List UInt8) :
    lossyFrom (some ⟨value, missing, low, high⟩) (UInt8.ofNat (n % 64 + 128) :: rest) =
      if missing = 1 then Char.ofNat (value * 64 + n % 64) :: lossyFrom none rest
      else lossyFrom (some { value := value * 64 + n % 64, missing := missing - 1 }) rest := by
  have byte : (UInt8.ofNat (n % 64 + 128)).toNat = n % 64 + 128 :=
    UInt8.toNat_ofNat_of_lt' (by simp only [UInt8.size]; omega)
  have bits : (n % 64 + 128) % 64 = n % 64 := by omega
  have low_le : low ≤ UInt8.ofNat (n % 64 + 128) := by rwa [UInt8.le_iff_toNat_le, byte]
  have le_high : UInt8.ofNat (n % 64 + 128) ≤ high := by rwa [UInt8.le_iff_toNat_le, byte]
  rw [lossyFrom_within low_le le_high]
  simp only [Begun.add, byte, bits]

theorem begins_two : ∀ n < 32, 2 ≤ n → 0x80 ≤ UInt8.ofNat (n % 32 + 192) ∧
    Begun.ofByte? (UInt8.ofNat (n % 32 + 192)) = some { value := n, missing := 1 } := by
  decide

theorem begins_three : ∀ n < 16, 0x80 ≤ UInt8.ofNat (n % 16 + 224) ∧
    Begun.ofByte? (UInt8.ofNat (n % 16 + 224)) =
      some ⟨n, 2, if n = 0 then 0xa0 else 0x80, if n = 13 then 0x9f else 0xbf⟩ := by
  decide

theorem begins_four : ∀ n < 5, 0x80 ≤ UInt8.ofNat (n % 8 + 240) ∧
    Begun.ofByte? (UInt8.ofNat (n % 8 + 240)) =
      some ⟨n, 3, if n = 0 then 0x90 else 0x80, if n = 4 then 0x8f else 0xbf⟩ := by
  decide

theorem lossyFrom_utf8EncodeChar (c : Char) (rest : List UInt8) :
    lossyFrom none (String.utf8EncodeChar c ++ rest) = c :: lossyFrom none rest := by
  have valid : c.toNat < 0xd800 ∨ 0xdfff < c.toNat ∧ c.toNat < 0x110000 := c.valid
  have value : c.val.toNat = c.toNat := rfl
  have same : Char.ofNat c.toNat = c := Char.ofNat_toNat c
  fun_cases String.utf8EncodeChar c with
  | case1 v short =>
    have small : v < 256 := by omega
    have ascii : UInt8.ofNat v < 0x80 := by
      rw [UInt8.lt_iff_toNat_lt, UInt8.toNat_ofNat_of_lt' small]
      exact Nat.lt_succ_of_le short
    simp only [List.singleton_append, lossyFrom, showNext, showFirst, if_pos ascii,
      UInt8.toNat_ofNat_of_lt' small]
    exact congrArg (· :: lossyFrom none rest) same
  | case2 v long short =>
    obtain ⟨above, begins⟩ := begins_two (v / 64) (by omega) (by omega)
    have whole : v / 64 * 64 + v % 64 = c.toNat := by omega
    rw [List.cons_append, lossyFrom_first above begins, List.singleton_append,
      lossyFrom_tail (by simp) (by simp; omega), if_pos rfl, whole, same]
  | case3 v long longer short =>
    obtain ⟨above, begins⟩ := begins_three (v / 4096) (by omega)
    have whole : (v / 4096 * 64 + v / 64 % 64) * 64 + v % 64 = c.toNat := by omega
    simp only [List.cons_append, List.nil_append]
    have mod : v / 4096 % 16 = v / 4096 := by omega
    rw [lossyFrom_first above begins, lossyFrom_tail _ _, if_neg (by decide), lossyFrom_tail,
      if_pos rfl, whole, same]
    · simp
    · simp; omega
    · split
      · simp; omega
      · simp
    · split
      · simp; omega
      · simp; omega
  | case4 v long longer longest =>
    obtain ⟨above, begins⟩ := begins_four (v / 262144) (by omega)
    have whole : ((v / 262144 * 64 + v / 4096 % 64) * 64 + v / 64 % 64) * 64 + v % 64 = c.toNat := by
      omega
    simp only [List.cons_append, List.nil_append]
    rw [lossyFrom_first above begins, lossyFrom_tail _ _, if_neg (by decide), lossyFrom_tail,
      if_neg (by decide), lossyFrom_tail, if_pos rfl, whole, same]
    · simp
    · simp; omega
    · simp
    · simp; omega
    · split
      · simp; omega
      · simp
    · split
      · simp; omega
      · simp; omega

/-- A text is shown as it is. -/
@[simp]
theorem lossy_bytes (s : String) : lossy (bytes s) = s := by
  have chars : ∀ cs : List Char, lossyFrom none (cs.flatMap String.utf8EncodeChar) = cs := by
    intro cs
    induction cs with
    | nil => rfl
    | cons c cs ih => rw [List.flatMap_cons, lossyFrom_utf8EncodeChar, ih]
  rw [lossy, bytes_eq, chars, String.ofList_toList]

theorem bytes_injective {s s' : String} (same : bytes s = bytes s') : s = s' := by
  rw [← lossy_bytes s, same, lossy_bytes]

/-- The bytes are those of a text. -/
def IsText (stored : List UInt8) : Prop :=
  bytes (lossy stored) = stored

instance : DecidablePred IsText :=
  fun stored => inferInstanceAs (Decidable (bytes (lossy stored) = stored))

def IsSmall (c : Char) : Prop :=
  0 < c.toNat ∧ c.toNat < 128

theorem toNat_ofNat (n : Nat) : (Char.ofNat n).toNat = if n.isValidChar then n else 0 := by
  by_cases valid : n.isValidChar
  · rw [if_pos valid, Char.ofNat, dif_pos valid]
    rfl
  · rw [if_neg valid, Char.ofNat, dif_neg valid]
    rfl

theorem not_isSmall_ofNat {n : Nat} (large : 128 ≤ n) : ¬ IsSmall (Char.ofNat n) := by
  rintro ⟨positive, small⟩
  rw [toNat_ofNat] at positive small
  split at small
  · omega
  · rename_i invalid
    rw [if_neg invalid] at positive
    omega

theorem toNat_ofNat_of_ascii {n : Nat} (ascii : n < 128) : (Char.ofNat n).toNat = n := by
  rw [toNat_ofNat, if_pos (.inl (by omega))]

theorem not_isSmall_replacement : ¬ IsSmall replacement := by
  unfold IsSmall
  decide

/-- However a character goes on that has begun so, it is none of ASCII. -/
structure Begun.IsLarge (c : Begun) : Prop where
  missing : 0 < c.missing
  low : 128 ≤ c.low.toNat
  high : c.high.toNat < 192
  value : 128 ≤ (c.value * 64 + c.low.toNat % 64) * 64 ^ (c.missing - 1)

variable {begun : Option Begun} {c : Begun} {b : UInt8} {ch : Char} {stored : List UInt8}
  {shown : List Char}

namespace Begun

theorem isLarge_of_ofByte? (begins : ofByte? b = some c) : c.IsLarge := by
  have all : ∀ n < 256, ∀ c ∈ ofByte? (UInt8.ofNat n), 0 < c.missing ∧ 128 ≤ c.low.toNat ∧
      c.high.toNat < 192 ∧ 128 ≤ (c.value * 64 + c.low.toNat % 64) * 64 ^ (c.missing - 1) := by
    decide +kernel
  obtain ⟨missing, low, high, value⟩ := all b.toNat b.toNat_lt c (by simpa using begins)
  exact ⟨missing, low, high, value⟩

variable (large : c.IsLarge) (low : c.low ≤ b) (high : b ≤ c.high)

include large low high

theorem IsLarge.le_add : c.value * 64 + c.low.toNat % 64 ≤ (c.add b).value := by
  have := large.low
  have := large.high
  rw [UInt8.le_iff_toNat_le] at low high
  simp only [add]
  omega

theorem IsLarge.of_last (last : c.missing = 1) : 128 ≤ (c.add b).value := by
  have value := large.value
  have more := large.le_add low high
  rw [last, Nat.sub_self, Nat.pow_zero, Nat.mul_one] at value
  omega

theorem IsLarge.add (others : c.missing ≠ 1) : (c.add b).IsLarge where
  missing := by
    have := large.missing
    simp only [Begun.add]
    omega
  low := by simp [Begun.add]
  high := by simp [Begun.add]
  value := by
    obtain ⟨n, more⟩ : ∃ n, c.missing = n + 2 := ⟨c.missing - 2, by have := large.missing; omega⟩
    have value := large.value
    have rest : (c.add b).missing - 1 = n := by simp [Begun.add, more]
    have first : c.missing - 1 = n + 1 := by omega
    have bits : (c.add b).low.toNat % 64 = 0 := by simp [Begun.add]
    rw [first, Nat.pow_succ'] at value
    rw [rest, bits, Nat.add_zero, Nat.mul_assoc]
    exact Nat.le_trans value (Nat.mul_le_mul_right _ (large.le_add low high))

end Begun

theorem showFirst_cases (b : UInt8) :
    (b.toNat < 128 ∧ showFirst b = ([Char.ofNat b.toNat], none)) ∨
      (∃ c : Begun, c.IsLarge ∧ showFirst b = ([], some c)) ∨ showFirst b = ([replacement], none) := by
  unfold showFirst
  split
  · rename_i ascii
    exact .inl ⟨ascii, rfl⟩
  · split
    · rename_i c begins
      exact .inr (.inl ⟨c, Begun.isLarge_of_ofByte? begins, rfl⟩)
    · exact .inr (.inr rfl)

theorem showNext_cases (large : c.IsLarge) (b : UInt8) :
    (∃ n, 128 ≤ n ∧ showNext (some c) b = ([Char.ofNat n], none)) ∨
      (∃ c' : Begun, c'.IsLarge ∧ showNext (some c) b = ([], some c')) ∨
      showNext (some c) b = (replacement :: (showFirst b).1, (showFirst b).2) := by
  unfold showNext
  dsimp only
  split
  · rename_i within
    obtain ⟨low, high⟩ : c.low ≤ b ∧ b ≤ c.high := by simpa using within
    split
    · rename_i last
      exact .inl ⟨_, large.of_last low high last, rfl⟩
    · rename_i others
      exact .inr (.inl ⟨_, large.add low high others, rfl⟩)
  · exact .inr (.inr rfl)

/-- Where a character has begun, something is shown that is not ASCII. -/
theorem exists_lossyFrom_some (large : c.IsLarge) (stored : List UInt8) :
    ∃ ch shown, lossyFrom (some c) stored = ch :: shown ∧ ¬ IsSmall ch := by
  induction stored generalizing c with
  | nil => exact ⟨_, _, rfl, not_isSmall_replacement⟩
  | cons b rest ih =>
    rw [lossyFrom]
    rcases showNext_cases large b with ⟨n, value, next⟩ | ⟨c', large', next⟩ | next
    · rw [next]
      exact ⟨_, _, rfl, not_isSmall_ofNat value⟩
    · rw [next]
      exact ih large'
    · rw [next]
      exact ⟨_, _, rfl, not_isSmall_replacement⟩

theorem eq_nil_of_lossyFrom (none_shown : lossyFrom none stored = []) : stored = [] := by
  cases stored with
  | nil => rfl
  | cons b rest =>
    rw [lossyFrom, showNext] at none_shown
    rcases showFirst_cases b with ⟨-, next⟩ | ⟨c, large, next⟩ | next
    · simp [next] at none_shown
    · obtain ⟨ch, shown, first, -⟩ := exists_lossyFrom_some large rest
      simp [next, first] at none_shown
    · simp [next] at none_shown

/-- An ASCII character is shown first for a byte of its own. -/
theorem exists_of_lossyFrom_cons (first : lossyFrom none stored = ch :: shown) (small : IsSmall ch) :
    ∃ rest, stored = UInt8.ofNat ch.toNat :: rest ∧ lossyFrom none rest = shown := by
  cases stored with
  | nil => cases first
  | cons b rest =>
    rw [lossyFrom, showNext] at first
    rcases showFirst_cases b with ⟨ascii, next⟩ | ⟨c, large, next⟩ | next
    · rw [next] at first
      obtain ⟨rfl, rest_shown⟩ := List.cons.inj first
      exact ⟨rest, by rw [toNat_ofNat_of_ascii ascii, UInt8.ofNat_toNat], rest_shown⟩
    · obtain ⟨ch', shown', first', large'⟩ := exists_lossyFrom_some large rest
      rw [next, List.nil_append, first'] at first
      exact absurd ((List.cons.inj first).1 ▸ small) large'
    · rw [next] at first
      exact absurd ((List.cons.inj first).1 ▸ small) not_isSmall_replacement

/-- What is shown as an ASCII text is stored as one. -/
theorem eq_bytes_of_lossy {s : String} (shown : lossy stored = s)
    (small : ∀ ch ∈ s.toList, IsSmall ch) : stored = bytes s := by
  have chars : lossyFrom none stored = s.toList := by rw [← shown, lossy, String.toList_ofList]
  rw [bytes_eq]
  clear shown
  generalize s.toList = cs at chars small
  induction cs generalizing stored with
  | nil => exact eq_nil_of_lossyFrom chars
  | cons ch cs ih =>
    obtain ⟨own, others⟩ := List.forall_mem_cons.1 small
    obtain ⟨rest, rfl, rest_shown⟩ := exists_of_lossyFrom_cons chars own
    have encoded : String.utf8EncodeChar ch = [UInt8.ofNat ch.toNat] :=
      if_pos (Nat.le_of_lt_succ own.2)
    rw [List.flatMap_cons, encoded, List.singleton_append, ih rest_shown others]

/-- A byte is shown as an ASCII character only if it is that one, and what is open is no ASCII. -/
theorem showNext_spec (large : ∀ c ∈ begun, c.IsLarge) (b : UInt8) :
    (∀ ch ∈ (showNext begun b).1, IsSmall ch → b = UInt8.ofNat ch.toNat) ∧
      ∀ c ∈ (showNext begun b).2, c.IsLarge := by
  have first : (∀ ch ∈ (showFirst b).1, IsSmall ch → b = UInt8.ofNat ch.toNat) ∧
      ∀ c ∈ (showFirst b).2, c.IsLarge := by
    rcases showFirst_cases b with ⟨ascii, next⟩ | ⟨c, large, next⟩ | next
    · simp [next, toNat_ofNat_of_ascii ascii]
    · simp [next, large]
    · simp [next, not_isSmall_replacement]
  cases begun with
  | none => exact first
  | some c =>
    rcases showNext_cases (large c rfl) b with ⟨n, value, next⟩ | ⟨c', large', next⟩ | next
    · simp [next, not_isSmall_ofNat value]
    · simp [next, large']
    · rw [next]
      exact ⟨List.forall_mem_cons.2 ⟨fun small => absurd small not_isSmall_replacement, first.1⟩,
        first.2⟩

theorem mem_of_mem_lossyFrom (large : ∀ c ∈ begun, c.IsLarge)
    (mem : ch ∈ lossyFrom begun stored) (small : IsSmall ch) : UInt8.ofNat ch.toNat ∈ stored := by
  induction stored generalizing begun with
  | nil =>
    cases begun with
    | none => cases mem
    | some c =>
      rw [lossyFrom, List.mem_singleton] at mem
      exact absurd (mem ▸ small) not_isSmall_replacement
  | cons b rest ih =>
    obtain ⟨own, large'⟩ := showNext_spec large b
    rw [lossyFrom] at mem
    rcases List.mem_append.1 mem with mem | mem
    · exact own ch mem small ▸ List.mem_cons_self
    · exact List.mem_cons_of_mem _ (ih large' mem)

theorem mem_of_mem_lossy (mem : ch ∈ (lossy stored).toList) (small : IsSmall ch) :
    UInt8.ofNat ch.toNat ∈ stored := by
  rw [lossy, String.toList_ofList] at mem
  exact mem_of_mem_lossyFrom (by simp) mem small

end JavaMigration.Text
