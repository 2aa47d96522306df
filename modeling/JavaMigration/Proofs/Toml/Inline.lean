import JavaMigration.Proofs.Number.DecimalText
import JavaMigration.Proofs.Toml.Quotation
import JavaMigration.Toml.Reader

/-!
# Values within a line

A value without tables is read back from its text. It never starts like a blank or a comment, so
that an array finds its items, and a comma or a line break behind it is left for what follows.
-/

namespace JavaMigration.Toml

open Number

variable {c d : Char} {rest : List Char}

def EndsValue (d : Char) : Prop :=
  d = ',' ∨ d = '\n'

theorem readDigits_append {digits : List Char} (rest : List Char) (nonempty : digits ≠ [])
    (all : ∀ c ∈ digits, c.isDigit = true) (noDigit : d.isDigit = false) (noMark : d ≠ '_') :
    readDigits Char.isDigit (digits ++ d :: rest) = some (digits, d :: rest) := by
  induction digits with
  | nil => exact absurd rfl nonempty
  | cons c digits ih =>
    have first : c.isDigit = true := all c (.head _)
    cases digits with
    | nil => simp [readDigits, first, noDigit, noMark]
    | cons e digits =>
      have second : e.isDigit = true := all e (by simp)
      have noMark : e ≠ '_' := by rintro rfl; exact absurd second (by decide)
      have read := ih (by simp) fun c mem => all c (.tail _ mem)
      rw [List.cons_append] at read
      rw [List.cons_append, List.cons_append, readDigits]
      simp [first, second, noMark, read]

theorem toDigits_starts {n : Nat} (positive : 0 < n) :
    ∃ c tail, Nat.toDigits 10 n = c :: tail ∧ c ≠ '0' := by
  induction n using Nat.strongRecOn with
  | _ n ih =>
    by_cases small : n < 10
    · refine ⟨n.digitChar, [], Nat.toDigits_of_lt_base small, ?_⟩
      exact fun zero => absurd (Nat.digitChar_eq_zero.1 zero) (by omega)
    · obtain ⟨c, tail, starts, other⟩ := ih (n / 10) (by omega) (by omega)
      refine ⟨c, tail ++ [(n % 10).digitChar], ?_, other⟩
      rw [Nat.toDigits_of_base_le (by decide) (by omega), starts, List.cons_append]

theorem readWhole_toDigits (n : Nat) (rest : List Char) (noDigit : d.isDigit = false)
    (noMark : d ≠ '_') :
    readWhole (Nat.toDigits 10 n ++ d :: rest) = some (Nat.toDigits 10 n, d :: rest) := by
  obtain rfl | positive := Nat.eq_zero_or_pos n
  · rfl
  · obtain ⟨c, tail, starts, other⟩ := toDigits_starts positive
    have digits := readDigits_append rest Nat.toDigits_ne_nil (isDigit_of_toDigits (n := n)) noDigit
      noMark
    rw [starts, List.cons_append] at digits ⊢
    unfold readWhole
    split
    · next zero => exact absurd (List.cons.inj zero).1 other
    · exact digits

theorem ofInteger_of_mem {n : Int} (low : -(twoTo 63 : Int) ≤ n) (high : n < twoTo 63) :
    ofInteger n = some (.integer n) := by
  simp [ofInteger, low, high]

theorem readNumber_toDigits (negative : Bool) {n : Nat} {m : Int}
    (signed : (if negative then -(n : Int) else n) = m) (low : -(twoTo 63 : Int) ≤ m)
    (high : m < twoTo 63) (stop : EndsValue d) (rest : List Char) :
    readNumber negative (Nat.toDigits 10 n ++ d :: rest) = some (.integer m, d :: rest) := by
  have whole : readWhole (Nat.toDigits 10 n ++ d :: rest) =
      some (Nat.toDigits 10 n, d :: rest) := by
    obtain rfl | rfl := stop
    · exact readWhole_toDigits n rest (by decide) (by decide)
    · exact readWhole_toDigits n rest (by decide) (by decide)
  have value := ofInteger_of_mem low high
  unfold readNumber
  rw [whole]
  obtain rfl | rfl := stop <;> simp [readDigitsFrom_toDigits, signed, value]

theorem toList_toString (n : Int) : (toString n).toList =
    if n < 0 then '-' :: Nat.toDigits 10 n.natAbs else Nat.toDigits 10 n.natAbs := by
  cases n with
  | ofNat n => simp [Int.toString_eq_repr, Int.repr_eq_if]
  | negSucc n => simp [Int.toString_eq_repr, Int.repr_eq_if]

theorem toDigits_cons (n : Nat) :
    ∃ c tail, Nat.toDigits 10 n = c :: tail ∧ c.isDigit = true := by
  obtain ⟨c, tail, starts⟩ := List.exists_cons_of_ne_nil (Nat.toDigits_ne_nil (n := n) (b := 10))
  exact ⟨c, tail, starts, isDigit_of_toDigits c (by rw [starts]; exact .head _)⟩

theorem mem_toString {n : Int} (mem : c ∈ (toString n).toList) : c = '-' ∨ c.isDigit = true := by
  rw [toList_toString] at mem
  split at mem
  · obtain rfl | mem := List.mem_cons.1 mem
    · exact .inl rfl
    · exact .inr (isDigit_of_toDigits c mem)
  · exact .inr (isDigit_of_toDigits c mem)

theorem toString_cons (n : Int) :
    ∃ c tail, (toString n).toList = c :: tail ∧ (c = '-' ∨ c.isDigit = true) := by
  obtain ⟨c, tail, starts, digit⟩ := toDigits_cons n.natAbs
  rw [toList_toString, starts]
  split
  · exact ⟨_, _, rfl, .inl rfl⟩
  · exact ⟨_, _, rfl, .inr digit⟩

theorem readSigned_toString {n : Int} (low : -(twoTo 63 : Int) ≤ n) (high : n < twoTo 63)
    (stop : EndsValue d) (rest : List Char) :
    readSigned ((toString n).toList ++ d :: rest) = some (.integer n, d :: rest) := by
  obtain ⟨c, tail, starts, digit⟩ := toDigits_cons n.natAbs
  have noSign : c ≠ '-' ∧ c ≠ '+' ∧ c ≠ 'i' ∧ c ≠ 'n' := by
    refine ⟨?_, ?_, ?_, ?_⟩ <;> (rintro rfl; exact absurd digit (by decide))
  rw [toList_toString]
  split
  · next negative =>
    have signed : -(n.natAbs : Int) = n := by omega
    have read := readNumber_toDigits true signed low high stop rest
    rw [starts] at read ⊢
    simpa [readSigned, noSign] using read
  · next positive =>
    have signed : (n.natAbs : Int) = n := by omega
    have read := readNumber_toDigits false signed low high stop rest
    rw [starts] at read ⊢
    simpa [readSigned, noSign] using read

theorem looksTemporal_toString (n : Int) (stop : EndsValue d) (rest : List Char) :
    looksTemporal ((toString n).toList ++ d :: rest) = false := by
  have noDigit : d.isDigit = false := by obtain rfl | rfl := stop <;> decide
  rw [toList_toString]
  split
  · simp [looksTemporal]
  · have all := isDigit_of_toDigits (n := n.natAbs)
    rw [looksTemporal, List.dropWhile_append_of_pos all]
    obtain rfl | rfl := stop <;> simp

theorem readScalar_toString {n : Int} (low : -(twoTo 63 : Int) ≤ n) (high : n < twoTo 63)
    (stop : EndsValue d) (rest : List Char) :
    readScalar ((toString n).toList ++ d :: rest) = some (.integer n, d :: rest) := by
  have signed := readSigned_toString low high stop rest
  have noTime := looksTemporal_toString n stop rest
  obtain ⟨c, tail, starts, first⟩ := toString_cons n
  have noWord : c ≠ '"' ∧ c ≠ '\'' ∧ c ≠ 't' ∧ c ≠ 'f' := by
    refine ⟨?_, ?_, ?_, ?_⟩ <;> (rintro rfl; exact absurd first (by decide))
  have noBase : ∀ e more, tail ++ d :: rest = e :: more → e ≠ 'x' ∧ e ≠ 'o' ∧ e ≠ 'b' := by
    intro e more second
    have kind : (e = '-' ∨ e.isDigit = true) ∨ EndsValue e := by
      cases tail with
      | nil => exact .inr ((List.cons.inj second).1 ▸ stop)
      | cons f tail =>
        have mem : f ∈ (toString n).toList := by rw [starts]; simp
        exact .inl ((List.cons.inj second).1 ▸ mem_toString mem)
    unfold EndsValue at kind
    refine ⟨?_, ?_, ?_⟩ <;> (rintro rfl; exact absurd kind (by decide))
  rw [starts, List.cons_append] at signed noTime ⊢
  unfold readScalar
  simp only [noWord, decide_false, Bool.or_self, Bool.false_eq_true, if_false]
  split
  · next word => exact absurd (List.cons.inj word).1 noWord.2.2.1
  · next word => exact absurd (List.cons.inj word).1 noWord.2.2.2
  · next base => exact absurd rfl (noBase _ _ (List.cons.inj base).2).1
  · next base => exact absurd rfl (noBase _ _ (List.cons.inj base).2).2.1
  · next base => exact absurd rfl (noBase _ _ (List.cons.inj base).2).2.2
  · rw [noTime, signed]
    rfl

theorem quote_cons (s : String) :
    ∃ c tail, (quote s).toList = c :: tail ∧ (c = '"' ∨ c = '\'') := by
  simp only [quote]
  cases Quotation.choose s.toList with
  | basic => exact ⟨'"', _, by simp; rfl, .inl rfl⟩
  | literal => exact ⟨'\'', _, by simp; rfl, .inr rfl⟩
  | multilineBasic => exact ⟨'"', _, by simp; rfl, .inl rfl⟩
  | multilineLiteral => exact ⟨'\'', _, by simp; rfl, .inr rfl⟩

theorem readScalar_quote (s : String) (stop : EndsValue d) :
    readScalar ((quote s).toList ++ d :: rest) = some (.string s, d :: rest) := by
  have read : readString ((quote s).toList ++ d :: rest) = some (s, d :: rest) := by
    obtain rfl | rfl := stop
    · exact readString_quote s rest (by decide) (by decide)
    · exact readString_quote s rest (by decide) (by decide)
  obtain ⟨c, tail, starts, quote⟩ := quote_cons s
  rw [starts, List.cons_append] at read ⊢
  simp [readScalar, quote, read]

theorem readScalar_boolean (b : Bool) :
    readScalar ((if b then "true" else "false").toList ++ d :: rest) =
      some (.boolean b, d :: rest) := by
  cases b <;> simp [readScalar]

/-- A value that holds no table, with integers of 64 bits and at most `depth` arrays deep. -/
inductive Value.IsPlain : Nat → Value → Prop
  | string {depth : Nat} (s : String) : IsPlain depth (.string s)
  | integer {depth : Nat} {n : Int} (low : -(twoTo 63 : Int) ≤ n) (high : n < twoTo 63) :
      IsPlain depth (.integer n)
  | boolean {depth : Nat} (b : Bool) : IsPlain depth (.boolean b)
  | array {depth : Nat} {items : List Value} (plain : ∀ v ∈ items, IsPlain depth v) :
      IsPlain (depth + 1) (.array items)

def OpensValue (c : Char) : Prop :=
  c ∉ [' ', '\t', '\n', '\r', '#', ']']

theorem writeValue_cons {depth : Nat} {v : Value} (plain : v.IsPlain depth) :
    ∃ c tail, (writeValue v).toList = c :: tail ∧ OpensValue c := by
  unfold OpensValue
  cases plain with
  | string s =>
    obtain ⟨c, tail, starts, rfl | rfl⟩ := quote_cons s
    · exact ⟨_, _, starts, by decide⟩
    · exact ⟨_, _, starts, by decide⟩
  | @integer _ n =>
    obtain ⟨c, tail, starts, first⟩ := toString_cons n
    refine ⟨c, tail, starts, fun mem => ?_⟩
    simp only [List.mem_cons, List.not_mem_nil, or_false] at mem
    rcases mem with rfl | rfl | rfl | rfl | rfl | rfl <;> exact absurd first (by decide)
  | boolean b => cases b <;> exact ⟨_, _, rfl, by decide⟩
  | @array _ items _ =>
    cases items with
    | nil => exact ⟨'[', _, rfl, by decide⟩
    | cons => exact ⟨'[', _, by simp [writeValue]; rfl, by decide⟩

theorem skipGaps_append (blanks : List Char) (blank : ∀ b ∈ blanks, b = ' ' ∨ b = '\n')
    (noBlank : c ∉ [' ', '\t', '\n', '\r', '#']) :
    skipGaps (blanks ++ c :: rest) = some (c :: rest) := by
  have skipped : skipBlankLines (blanks ++ c :: rest) = c :: rest := by
    induction blanks with
    | nil =>
      simp only [List.mem_cons, List.not_mem_nil, or_false, not_or] at noBlank
      simp [skipBlankLines, noBlank]
    | cons b blanks ih =>
      obtain rfl | rfl := blank b (.head _)
      · exact ih fun b mem => blank b (.tail _ mem)
      · exact ih fun b mem => blank b (.tail _ mem)
  have noMark : c ≠ '#' := by rintro rfl; exact absurd noBlank (by decide)
  rw [skipGaps, skipGap, skipped]
  split
  · next mark => exact absurd (List.cons.inj mark).1 noMark
  · rfl

theorem toList_writeItems_cons (v : Value) (items : List Value) :
    (writeItems (v :: items)).toList = ['\n', ' ', ' ', ' ', ' '] ++
      ((writeValue v).toList ++ ',' :: (writeItems items).toList) := by
  simp [writeItems]

/-- What the reader of values does with the text of `v`, wherever it stands. -/
def IsReadAs (depth : Nat) (v : Value) : Prop :=
  ∀ (fuel : Nat) (d : Char) (rest : List Char), (writeValue v).toList.length < fuel →
    EndsValue d → readValue fuel depth ((writeValue v).toList ++ d :: rest) = some (v, d :: rest)

theorem readItems_writeItems {depth : Nat} {items : List Value}
    (opens : ∀ v ∈ items, ∃ c tail, (writeValue v).toList = c :: tail ∧ OpensValue c)
    (each : ∀ v ∈ items, IsReadAs depth v) (fuel : Nat) (read : List Value) (rest : List Char)
    (enough : (writeItems items).toList.length < fuel) :
    readItems fuel depth read ((writeItems items).toList ++ '\n' :: ']' :: rest) =
      some (.array (read.reverse ++ items), rest) := by
  induction items generalizing fuel read with
  | nil =>
    obtain ⟨fuel, rfl⟩ : ∃ n, fuel = n + 1 := ⟨fuel - 1, by omega⟩
    have gap : skipGaps ('\n' :: ']' :: rest) = some (']' :: rest) :=
      skipGaps_append ['\n'] (by simp) (by decide)
    simp [writeItems, readItems, gap]
  | cons v items ih =>
    obtain ⟨c, tail, starts, opening⟩ := opens v (.head _)
    have next := ih (fun v mem => opens v (.tail _ mem)) fun v mem => each v (.tail _ mem)
    rw [toList_writeItems_cons] at enough ⊢
    simp only [List.length_append, List.length_cons, List.length_nil] at enough
    obtain ⟨fuel, rfl⟩ : ∃ n, fuel = n + 1 := ⟨fuel - 1, by omega⟩
    let after := (writeItems items).toList ++ '\n' :: ']' :: rest
    have noBlank : c ∉ [' ', '\t', '\n', '\r', '#'] := fun mem =>
      opening (List.mem_append_left [']'] mem)
    have noEnd : c ≠ ']' := fun last => opening (by simp [last])
    have before : skipGaps (['\n', ' ', ' ', ' ', ' '] ++
        ((writeValue v).toList ++ ',' :: after)) =
        some ((writeValue v).toList ++ ',' :: after) := by
      rw [starts]
      exact skipGaps_append _ (by simp) noBlank
    have value : readValue fuel depth ((writeValue v).toList ++ ',' :: after) =
        some (v, ',' :: after) := each v (.head _) fuel ',' after (by omega) (.inl rfl)
    have comma : skipGaps (',' :: after) = some (',' :: after) :=
      skipGaps_append [] (by simp) (by decide)
    have shape : ['\n', ' ', ' ', ' ', ' '] ++ ((writeValue v).toList ++ ',' ::
        (writeItems items).toList) ++ '\n' :: ']' :: rest =
          ['\n', ' ', ' ', ' ', ' '] ++ ((writeValue v).toList ++ ',' :: after) := by
      simp [after]
    rw [shape, readItems, before]
    rw [starts] at value ⊢
    simp only [List.cons_append, Option.bind_eq_bind, Option.bind_some]
    split
    · next last => exact absurd (List.cons.inj last).1 noEnd
    · rw [List.cons_append] at value
      rw [value, Option.bind_some, comma, Option.bind_some]
      simp only
      rw [next fuel (v :: read) (by omega)]
      simp

theorem readValue_eq_readScalar (fuel depth : Nat) {tail : List Char} (noArray : c ≠ '[')
    (noTable : c ≠ '\x7b') :
    readValue (fuel + 1) depth (c :: tail) = readScalar (c :: tail) := by
  cases depth <;> simp [readValue, noArray, noTable]

theorem isReadAs_of_scalar {depth : Nat} {v : Value} {tail : List Char}
    (starts : (writeValue v).toList = c :: tail) (noArray : c ≠ '[') (noTable : c ≠ '\x7b')
    (scalar : ∀ d rest, EndsValue d →
      readScalar ((writeValue v).toList ++ d :: rest) = some (v, d :: rest)) :
    IsReadAs depth v := by
  intro fuel d rest enough stop
  obtain ⟨fuel, rfl⟩ : ∃ n, fuel = n + 1 := ⟨fuel - 1, by omega⟩
  have read := scalar d rest stop
  rw [starts, List.cons_append] at read ⊢
  rw [readValue_eq_readScalar fuel depth noArray noTable, read]

/-- A plain value is read back, whatever stands behind it. -/
theorem isReadAs_of_isPlain {depth : Nat} {v : Value} (plain : v.IsPlain depth) :
    IsReadAs depth v := by
  induction plain with
  | string s =>
    obtain ⟨c, tail, starts, quote⟩ := quote_cons s
    refine isReadAs_of_scalar starts ?_ ?_ fun d rest stop => readScalar_quote s stop
    · rintro rfl; exact absurd quote (by decide)
    · rintro rfl; exact absurd quote (by decide)
  | @integer depth n low high =>
    obtain ⟨c, tail, starts, first⟩ := toString_cons n
    refine isReadAs_of_scalar starts ?_ ?_ fun d rest stop =>
      readScalar_toString low high stop rest
    · rintro rfl; exact absurd first (by decide)
    · rintro rfl; exact absurd first (by decide)
  | boolean b =>
    cases b
    · exact isReadAs_of_scalar (c := 'f') rfl (by decide) (by decide) fun d rest _ =>
        readScalar_boolean false
    · exact isReadAs_of_scalar (c := 't') rfl (by decide) (by decide) fun d rest _ =>
        readScalar_boolean true
  | @array depth items plain ih =>
    intro fuel d rest enough stop
    obtain ⟨fuel, rfl⟩ : ∃ n, fuel = n + 1 := ⟨fuel - 1, by omega⟩
    cases items with
    | nil =>
      have text : (writeValue (.array [])).toList = ['[', ']'] := rfl
      rw [text] at enough ⊢
      obtain ⟨fuel, rfl⟩ : ∃ n, fuel = n + 1 := ⟨fuel - 1, by simp at enough; omega⟩
      have closing : skipGaps (']' :: d :: rest) = some (']' :: d :: rest) :=
        skipGaps_append [] (by simp) (by decide)
      simp [readValue, readItems, closing]
    | cons v items =>
      have text : (writeValue (.array (v :: items))).toList =
          '[' :: ((writeItems (v :: items)).toList ++ ['\n', ']']) := by
        simp [writeValue]
      have read := readItems_writeItems (fun v mem => writeValue_cons (plain v mem)) ih fuel []
        (d :: rest) (by rw [text] at enough; simp at enough; omega)
      rw [text, List.cons_append, List.append_assoc, readValue]
      exact read

end JavaMigration.Toml
