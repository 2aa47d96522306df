import JavaMigration.Markup.Attribute
import JavaMigration.Proofs.Text.Trimming

/-!
# Escaped texts

What is written with entities is read back unchanged, and holds none of the characters that end a
run of character data or a quoted value. A reference is read in the same way wherever it stands.
-/

namespace JavaMigration.Markup

open Text

theorem isBlank_of_isSpace {c : Char} (h : isSpace c = true) : isBlank c = true := by
  simp only [isSpace, Bool.or_eq_true, decide_eq_true_eq] at h
  rcases h with ((h | h) | h) | h <;> subst h <;> decide

/-- The written form of a character: its entity, or the character where it needs none. -/
theorem escapeChar_cases (c : Char) :
    (∃ name, escapeChar c = '&' :: (name ++ [';']) ∧ ';' ∉ name ∧ '&' ∉ name ∧
      '<' ∉ name ∧ '"' ∉ name ∧ (∀ n, resolve n name = .ok c)) ∨
      (escapeChar c = [c] ∧ c ≠ '<' ∧ c ≠ '&' ∧ c ≠ '"') := by
  by_cases lt : c = '<'
  · exact .inl ⟨['l', 't'], by simp [escapeChar, lt], by decide, by decide, by decide, by decide,
      fun _ => by rw [lt]; rfl⟩
  by_cases gt : c = '>'
  · exact .inl ⟨['g', 't'], by simp [escapeChar, gt], by decide, by decide, by decide, by decide,
      fun _ => by rw [gt]; rfl⟩
  by_cases amp : c = '&'
  · exact .inl ⟨['a', 'm', 'p'], by simp [escapeChar, amp], by decide, by decide, by decide,
      by decide, fun _ => by rw [amp]; rfl⟩
  by_cases apos : c = '\''
  · exact .inl ⟨['a', 'p', 'o', 's'], by simp [escapeChar, apos], by decide, by decide, by decide,
      by decide, fun _ => by rw [apos]; rfl⟩
  by_cases quot : c = '"'
  · exact .inl ⟨['q', 'u', 'o', 't'], by simp [escapeChar, quot], by decide, by decide, by decide,
      by decide, fun _ => by rw [quot]; rfl⟩
  exact .inr ⟨by simp [escapeChar, lt, gt, amp, apos, quot], lt, amp, quot⟩

theorem splitReference_append {name : List Char} (noEnd : ';' ∉ name) (noStart : '&' ∉ name)
    (after : List Char) : splitReference (name ++ ';' :: after) = some (name, after) := by
  induction name with
  | nil => simp [splitReference]
  | cons c rest ih =>
    simp only [List.mem_cons, not_or] at noEnd noStart
    simp [splitReference, Ne.symm noEnd.1, Ne.symm noStart.1, ih noEnd.2 noStart.2]

theorem unescapeFrom_escapeChar (total start : Nat) (c : Char) (s : List Char) :
    ∃ next, unescapeFrom total start (escapeChar c ++ s) =
      (unescapeFrom total next s).map (c :: ·) := by
  obtain ⟨name, written, noEnd, noStart, -, -, known⟩ | ⟨written, -, plain, -⟩ := escapeChar_cases c
  · refine ⟨start + 1 + width name + 1, ?_⟩
    rw [written, List.cons_append, List.append_assoc, List.singleton_append, unescapeFrom]
    simp only [↓reduceIte]
    split
    · rename_i none
      rw [splitReference_append noEnd noStart] at none
      simp at none
    · rename_i name' after some
      rw [splitReference_append noEnd noStart] at some
      cases some
      rw [known]
  · refine ⟨start + c.utf8Size, ?_⟩
    rw [written, List.singleton_append, unescapeFrom]
    simp [plain]

theorem unescapeFrom_escapeList (total start : Nat) (s : List Char) :
    unescapeFrom total start (escapeList s) = .ok s := by
  induction s generalizing start with
  | nil => rw [escapeList, List.flatMap_nil, unescapeFrom]
  | cons c rest ih =>
    obtain ⟨next, step⟩ := unescapeFrom_escapeChar total start c (escapeList rest)
    rw [escapeList, List.flatMap_cons, ← escapeList, step, ih]
    rfl

@[simp] theorem unescapeList_escapeList (s : List Char) : unescapeList (escapeList s) = .ok s :=
  unescapeFrom_escapeList _ _ s

@[simp] theorem toList_escape (s : String) : (escape s).toList = escapeList s.toList := by
  rw [escape, String.toList_ofList]

@[simp] theorem escapeList_eq_nil {s : List Char} : escapeList s = [] ↔ s = [] := by
  cases s with
  | nil => simp [escapeList]
  | cons c rest =>
    obtain ⟨name, written, -⟩ | ⟨written, -⟩ := escapeChar_cases c <;> simp [escapeList, written]

theorem lt_notMem_escapeList (s : List Char) : '<' ∉ escapeList s := by
  intro h
  obtain ⟨c, -, hc⟩ := List.mem_flatMap.1 h
  obtain ⟨name, written, -, -, noLt, -⟩ | ⟨written, noLt, -⟩ := escapeChar_cases c
  · simp [written, noLt] at hc
  · rw [written, List.mem_singleton] at hc
    exact noLt hc.symm

theorem quote_notMem_escapeList (s : List Char) : '"' ∉ escapeList s := by
  intro h
  obtain ⟨c, -, hc⟩ := List.mem_flatMap.1 h
  obtain ⟨name, written, -, -, -, noQuote, -⟩ | ⟨written, -, -, noQuote⟩ := escapeChar_cases c
  · simp [written, noQuote] at hc
  · rw [written, List.mem_singleton] at hc
    exact noQuote hc.symm

theorem isTrimmed_escapeList {s : List Char} (h : IsTrimmed isSpace s) :
    IsTrimmed isSpace (escapeList s) := by
  refine ⟨fun x hx => ?_, fun x hx => ?_⟩
  · cases s with
    | nil => simp [escapeList] at hx
    | cons c rest =>
      have solid := h.1 c rfl
      obtain ⟨name, written, -⟩ | ⟨written, -⟩ := escapeChar_cases c
      · simp [escapeList, written] at hx
        subst hx
        decide
      · simp [escapeList, written] at hx
        rwa [← hx]
  · rcases List.eq_nil_or_concat s with rfl | ⟨init, c, rfl⟩
    · simp [escapeList] at hx
    · rw [List.concat_eq_append] at h hx
      have solid := h.2 c (by simp)
      have last : x ∈ (escapeChar c).getLast? := by
        rw [escapeList, List.flatMap_append, List.flatMap_singleton] at hx
        obtain ⟨name, written, -⟩ | ⟨written, -⟩ := escapeChar_cases c <;>
          simpa [written, List.getLast?_append] using hx
      obtain ⟨name, written, -⟩ | ⟨written, -⟩ := escapeChar_cases c
      · rw [written, ← List.cons_append, List.getLast?_concat, Option.mem_some_iff] at last
        subst last
        decide
      · rw [written, List.getLast?_singleton, Option.mem_some_iff] at last
        rwa [← last]

theorem unescapeFrom_append_of_plain {s t r : List Char} (plain : '&' ∉ s) (total : Nat)
    (h : ∀ start, unescapeFrom total start r = .ok t) (start : Nat) :
    unescapeFrom total start (s ++ r) = .ok (s ++ t) := by
  induction s generalizing start with
  | nil => exact h start
  | cons c s ih =>
    simp only [List.mem_cons, not_or] at plain
    rw [List.cons_append, unescapeFrom, if_neg (Ne.symm plain.1), ih plain.2]
    rfl

theorem unescapeFrom_of_plain {s : List Char} (plain : '&' ∉ s) (total start : Nat) :
    unescapeFrom total start s = .ok s := by
  have alone := unescapeFrom_append_of_plain (r := []) (t := []) plain total
    (fun _ => by rw [unescapeFrom]) start
  rwa [List.append_nil] at alone

theorem splitReference_append_of_some {s name after : List Char}
    (h : splitReference s = some (name, after)) (t : List Char) :
    splitReference (s ++ t) = some (name, after ++ t) := by
  induction s generalizing name with
  | nil => cases h
  | cons c s ih =>
    rw [splitReference] at h
    rw [List.cons_append, splitReference]
    split at h
    · rename_i stop
      cases h
      rw [if_pos stop]
    · rename_i noStop
      split at h
      · cases h
      · rename_i noStart
        obtain ⟨⟨name', after'⟩, found, same⟩ := Option.map_eq_some_iff.1 h
        cases same
        rw [if_neg noStop, if_neg noStart, ih found]
        rfl

theorem resolve_of_ok {start : Nat} {name : List Char} {c : Char} (h : resolve start name = .ok c)
    (start' : Nat) : resolve start' name = .ok c := by
  unfold resolve at h ⊢
  split at h
  · exact h
  · split at h
    · exact h
    · cases h

theorem unescapeFrom_append {total start : Nat} {s t r : List Char}
    (h : unescapeFrom total start s = .ok t) (plain : '&' ∉ r) (total' start' : Nat) :
    unescapeFrom total' start' (s ++ r) = .ok (t ++ r) := by
  fun_induction unescapeFrom total start s generalizing t start' with
  | case1 =>
    cases h
    exact unescapeFrom_of_plain plain total' start'
  | case2 => cases h
  | case3 => cases h
  | case4 start rest name after split _ d known ih =>
    cases tail : unescapeFrom total (start + 1 + width name + 1) after with
    | error fault =>
      rw [tail] at h
      cases h
    | ok t' =>
      rw [tail] at h
      cases h
      have extended := splitReference_append_of_some split r
      rw [List.cons_append, unescapeFrom]
      simp only [↓reduceIte]
      split
      · rename_i none
        rw [extended] at none
        cases none
      · rename_i name' after' some
        rw [extended] at some
        cases some
        rw [resolve_of_ok known, ih tail]
        rfl
  | case5 start c rest noMark ih =>
    cases tail : unescapeFrom total (start + c.utf8Size) rest with
    | error fault =>
      rw [tail] at h
      cases h
    | ok t' =>
      rw [tail] at h
      cases h
      rw [List.cons_append, unescapeFrom, if_neg noMark, ih tail]
      rfl

theorem amp_notMem_of_isSpace {s : List Char} (white : ∀ c ∈ s, isSpace c = true) : '&' ∉ s :=
  fun mem => absurd (white '&' mem) (by decide)

end JavaMigration.Markup
