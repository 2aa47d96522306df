import JavaMigration.Toml.Printer
import JavaMigration.Toml.Scalar

/-!
# Quoted strings

A string is read back from whichever form it is written in. The escaped forms hold every text; the
literal ones hold what they are chosen for, a text without control characters and long runs of
quotes.
-/

namespace JavaMigration.Toml

variable {c q : Char} {cs rest text : List Char}

theorem isTextChar_iff : isTextChar c = true ↔ isControl c = false ∧ c ≠ '\n' := by
  have line : c = '\n' ↔ c.toNat = 10 := by
    rw [← Char.toNat_inj]; rfl
  have tab : c = '\t' ↔ c.toNat = 9 := by
    rw [← Char.toNat_inj]; rfl
  simp only [isTextChar, isControl, Bool.or_eq_true, Bool.and_eq_true, decide_eq_true_eq,
    Bool.or_eq_false_iff, Bool.and_eq_false_iff, decide_eq_false_iff_not, Decidable.not_not, line,
    tab, ne_eq]
  omega

theorem skipNewline?_eq_none (printed : isTextChar c = true) : skipNewline? (c :: rest) = none := by
  have feed : c ≠ '\n' := (isTextChar_iff.1 printed).2
  have back : c ≠ '\r' := by rintro rfl; exact absurd printed (by decide)
  cases rest with
  | nil => simp [skipNewline?, feed]
  | cons d rest => simp [skipNewline?, feed, back]

def escapeChar (multiline : Bool) (c : Char) : List Char :=
  if c = '\x08' then ['\\', 'b']
  else if c = '\t' then ['\\', 't']
  else if c = '\n' then if multiline then ['\n'] else ['\\', 'n']
  else if c = '\x0c' then ['\\', 'f']
  else if c = '\r' then ['\\', 'r']
  else if c = '\\' then ['\\', '\\']
  else if c.toNat < 32 || c.toNat = 127 then '\\' :: 'u' :: hexDigits4 c.toNat
  else [c]

theorem escapeBody_cons {multiline : Bool} (allowed run : Nat) (plain : c ≠ '"') :
    escapeBody multiline allowed run (c :: cs) =
      escapeChar multiline c ++ escapeBody multiline allowed 0 cs := by
  rw [escapeBody, if_neg plain]
  rfl

theorem escapeBody_quote (multiline : Bool) (allowed run : Nat) (cs : List Char) :
    escapeBody multiline allowed run ('"' :: cs) =
      if allowed ≤ run then '\\' :: '"' :: escapeBody multiline allowed 0 cs
      else '"' :: escapeBody multiline allowed (run + 1) cs :=
  rfl

inductive Spelled (c : Char) : List Char → Prop
  | plain (printed : isTextChar c = true) (noQuote : c ≠ '"') (noEscape : c ≠ '\\') :
      Spelled c [c]
  | escape {name : List Char} (read : ∀ rest, readEscape (name ++ rest) = some (c, rest)) :
      Spelled c ('\\' :: name)

theorem readCodepoint_hexDigits4 {n : Nat} (small : n < 128) (rest : List Char) :
    readCodepoint 4 (hexDigits4 n ++ rest) = some (Char.ofNat n, rest) := by
  have value : ∀ n < 128, ∃ digits, (hexDigits4 n).mapM hexValue? = some digits ∧
      digits.length = 4 ∧ digits.foldl (fun n d => 16 * n + d) 0 = n := by
    intro n small
    have found : ∀ n < 128, (hexDigits4 n).mapM hexValue? =
        some [n / 4096, n / 256 % 16, n / 16 % 16, n % 16] := by decide +kernel
    refine ⟨_, found n small, rfl, ?_⟩
    simp only [List.foldl_cons, List.foldl_nil]
    omega
  obtain ⟨digits, found, four, sum⟩ := value n small
  have front : (hexDigits4 n ++ rest).take 4 = hexDigits4 n := List.take_left' rfl
  have back : (hexDigits4 n ++ rest).drop 4 = rest := List.drop_left' rfl
  have valid : n.isValidChar := .inl (by omega)
  simp [readCodepoint, front, back, found, four, sum, valid]

theorem spelled_escapeChar {multiline : Bool} (plain : c ≠ '"')
    (inLine : multiline = true → c ≠ '\n') : Spelled c (escapeChar multiline c) := by
  unfold escapeChar
  split
  · next back => subst back; exact .escape fun _ => rfl
  split
  · next tab => subst tab; exact .escape fun _ => rfl
  split
  · next feed =>
    cases multiline with
    | true => exact absurd feed (inLine rfl)
    | false => subst feed; exact .escape fun _ => rfl
  split
  · next page => subst page; exact .escape fun _ => rfl
  split
  · next carriage => subst carriage; exact .escape fun _ => rfl
  split
  · next slash => subst slash; exact .escape fun _ => rfl
  split
  · next control =>
    have small : c.toNat < 128 := by
      simp only [Bool.or_eq_true, decide_eq_true_eq] at control
      omega
    refine .escape fun rest => ?_
    rw [List.cons_append, readEscape, readCodepoint_hexDigits4 small, Char.ofNat_toNat]
  · next noSlash printed =>
    simp only [Bool.or_eq_true, decide_eq_true_eq, not_or] at printed
    refine .plain ?_ plain noSlash
    simp only [isTextChar, Bool.or_eq_true, Bool.and_eq_true, decide_eq_true_eq, ne_eq]
    omega

theorem readBasic_spelled {written : List Char} (spelled : Spelled c written) (fuel : Nat)
    (read : List Char) :
    readBasic (fuel + 1) read (written ++ rest) = readBasic fuel (c :: read) rest := by
  cases spelled with
  | plain printed noQuote noEscape => simp [readBasic, printed, noQuote, noEscape]
  | escape found => simp [readBasic, found]

theorem readBasic_escapeBody (fuel : Nat) (read : List Char)
    (enough : (escapeBody false 0 0 cs).length < fuel) :
    readBasic fuel read (escapeBody false 0 0 cs ++ '"' :: rest) =
      some (String.ofList (read.reverse ++ cs), rest) := by
  induction cs generalizing fuel read with
  | nil =>
    obtain ⟨fuel, rfl⟩ : ∃ n, fuel = n + 1 := ⟨fuel - 1, by omega⟩
    rw [List.append_nil]
    rfl
  | cons c cs ih =>
    obtain ⟨written, spelled, step⟩ : ∃ written, Spelled c written ∧
        escapeBody false 0 0 (c :: cs) = written ++ escapeBody false 0 0 cs := by
      by_cases quote : c = '"'
      · subst quote
        exact ⟨['\\', '"'], .escape fun _ => rfl, escapeBody_quote false 0 0 cs⟩
      · exact ⟨_, spelled_escapeChar quote (by simp), escapeBody_cons 0 0 quote⟩
    have longer : 0 < written.length := by cases spelled <;> simp
    rw [step, List.length_append] at enough
    obtain ⟨fuel, rfl⟩ : ∃ n, fuel = n + 1 := ⟨fuel - 1, by omega⟩
    rw [step, List.append_assoc, readBasic_spelled spelled, ih fuel _ (by omega),
      List.reverse_cons, List.append_assoc, List.singleton_append]

theorem readLiteral_append (plain : ∀ c ∈ cs, isTextChar c = true ∧ c ≠ '\'') :
    readLiteral (cs ++ '\'' :: rest) = some (String.ofList cs, rest) := by
  have inside : ∀ c ∈ cs, (isTextChar c && decide (c ≠ '\'')) = true := fun c mem => by
    simpa using plain c mem
  rw [readLiteral, List.takeWhile_append_of_pos inside, List.dropWhile_append_of_pos inside]
  simp

/-- A written character that the reader of strings in quotes `q` takes in one step. -/
def IsStep (q c : Char) (written : List Char) : Prop :=
  (∃ d tail, written = d :: tail ∧ d ≠ q) ∧
  ∀ fuel read rest,
    readMultiline q (fuel + 1) read (written ++ rest) = readMultiline q fuel (c :: read) rest

/--
The body of a string in quotes `q` for the text `cs`, where `run` quotes stand in front of it. No
three of them stand together.
-/
inductive Body (q : Char) : Nat → List Char → List Char → Prop
  | nil {run : Nat} (few : run ≤ 2) : Body q run [] []
  | quote {run : Nat} {cs text : List Char} (more : Body q (run + 1) cs text) :
      Body q run (q :: cs) (q :: text)
  | char {run : Nat} {c : Char} {written cs text : List Char} (few : run ≤ 2)
      (step : IsStep q c written) (more : Body q 0 cs text) :
      Body q run (c :: cs) (written ++ text)

theorem takeWhile_replicate_append {d : Char} (n : Nat) (other : d ≠ q) (rest : List Char) :
    (List.replicate n q ++ d :: rest).takeWhile (· = q) = List.replicate n q := by
  rw [List.takeWhile_append_of_pos fun c mem => by simpa using List.eq_of_mem_replicate mem]
  simp [other]

theorem dropWhile_replicate_append {d : Char} (n : Nat) (other : d ≠ q) (rest : List Char) :
    (List.replicate n q ++ d :: rest).dropWhile (· = q) = d :: rest := by
  rw [List.dropWhile_append_of_pos fun c mem => by simpa using List.eq_of_mem_replicate mem]
  simp [other]

theorem readMultiline_quote (q : Char) (fuel : Nat) (read rest : List Char) :
    readMultiline q (fuel + 1) read (q :: rest) =
      let run := (q :: rest).takeWhile (· = q)
      let after := (q :: rest).dropWhile (· = q)
      if run.length < 3 then readMultiline q fuel (run ++ read) after
      else
        let kept := min (run.length - 3) 2
        some (String.ofList (read.reverse ++ run.take kept), run.drop (kept + 3) ++ after) := by
  rw [readMultiline, if_pos rfl]

theorem readMultiline_char (noQuote : c ≠ q) (noEscape : q = '"' → c ≠ '\\') (fuel : Nat)
    (read rest : List Char) :
    readMultiline q (fuel + 1) read (c :: rest) =
      match skipNewline? (c :: rest) with
      | some after => readMultiline q fuel ('\n' :: read) after
      | none => if isTextChar c then readMultiline q fuel (c :: read) rest else none := by
  have literal : ¬(decide (c = '\\') && decide (q = '"')) = true := by
    simpa using fun slash double => noEscape double slash
  exact (if_neg noQuote).trans (if_neg literal)

/-- A run of quotes that does not end the string belongs to it. -/
theorem readMultiline_run {d : Char} {run : Nat} (pending : 0 < run) (few : run ≤ 2)
    (other : d ≠ q) (fuel : Nat) (read rest : List Char) :
    readMultiline q (fuel + 1) read (List.replicate run q ++ d :: rest) =
      readMultiline q fuel (List.replicate run q ++ read) (d :: rest) := by
  obtain ⟨n, rfl⟩ : ∃ n, run = n + 1 := ⟨run - 1, by omega⟩
  have taken := takeWhile_replicate_append (n + 1) other rest
  have left := dropWhile_replicate_append (n + 1) other rest
  rw [List.replicate_succ, List.cons_append] at taken left ⊢
  simp only [readMultiline_quote, taken, left]
  rw [if_pos (by simp; omega)]

theorem readMultiline_end {d : Char} {run : Nat} (few : run ≤ 2) (other : d ≠ q) (fuel : Nat)
    (read : List Char) :
    readMultiline q (fuel + 1) read (List.replicate run q ++ q :: q :: q :: d :: rest) =
      some (String.ofList (read.reverse ++ List.replicate run q), d :: rest) := by
  have shape : List.replicate run q ++ q :: q :: q :: d :: rest =
      List.replicate (run + 3) q ++ d :: rest := by
    rw [List.replicate_succ', List.replicate_succ', List.replicate_succ']
    simp
  have taken := takeWhile_replicate_append (run + 3) other rest
  have left := dropWhile_replicate_append (run + 3) other rest
  rw [shape]
  rw [List.replicate_succ, List.cons_append] at taken left ⊢
  simp only [readMultiline_quote, taken, left]
  rw [if_neg (by simp)]
  have kept : min (run + 3 - 3) 2 = run := by omega
  have inner : min run (run + 3) = run := by omega
  simp only [← List.replicate_succ, List.length_replicate, kept, List.take_replicate, inner,
    List.drop_replicate, Nat.sub_self, List.replicate_zero, List.nil_append]

/-- What a body is read as. The quotes in front of it have been left for the run they belong to. -/
theorem readMultiline_body {d : Char} {run : Nat} (body : Body q run cs text) (other : d ≠ q)
    (rest : List Char) (fuel : Nat) (read : List Char) (enough : run + text.length < fuel) :
    readMultiline q fuel read (List.replicate run q ++ (text ++ q :: q :: q :: d :: rest)) =
      some (String.ofList (read.reverse ++ List.replicate run q ++ cs), d :: rest) := by
  induction body generalizing fuel read with
  | nil few =>
    obtain ⟨fuel, rfl⟩ : ∃ n, fuel = n + 1 := ⟨fuel - 1, by omega⟩
    rw [List.nil_append, readMultiline_end few other, List.append_nil]
  | @quote run cs text _ ih =>
    have shape : List.replicate run q ++ (q :: text ++ q :: q :: q :: d :: rest) =
        List.replicate (run + 1) q ++ (text ++ q :: q :: q :: d :: rest) := by
      simp [List.replicate_succ']
    rw [shape, ih fuel read (by simp at enough; omega)]
    simp [List.replicate_succ']
  | @char run c written cs text few step more ih =>
    obtain ⟨⟨first, tail, rfl, noQuote⟩, step⟩ := step
    have length : (first :: tail ++ text).length = tail.length + text.length + 1 := by simp
    have taken : ∀ fuel read, text.length + 1 < fuel →
        readMultiline q fuel read (first :: tail ++ (text ++ q :: q :: q :: d :: rest)) =
          some (String.ofList (read.reverse ++ c :: cs), d :: rest) := by
      intro fuel read enough
      obtain ⟨fuel, rfl⟩ : ∃ n, fuel = n + 1 := ⟨fuel - 1, by omega⟩
      have after := ih fuel (c :: read) (by omega)
      rw [List.replicate_zero, List.nil_append, List.append_nil] at after
      rw [step, after, List.reverse_cons, List.append_assoc, List.singleton_append]
    rw [List.append_assoc]
    obtain rfl | pending : run = 0 ∨ 0 < run := by omega
    · rw [List.replicate_zero, List.nil_append, taken fuel read (by omega), List.append_nil]
    · obtain ⟨fuel, rfl⟩ : ∃ n, fuel = n + 1 := ⟨fuel - 1, by omega⟩
      have flush := readMultiline_run pending few noQuote fuel read
        (tail ++ (text ++ q :: q :: q :: d :: rest))
      rw [List.cons_append, flush, ← List.cons_append, taken fuel _ (by omega),
        List.reverse_append, List.reverse_replicate, List.append_assoc]

theorem isStep_newline (noQuote : q ≠ '\n') : IsStep q '\n' ['\n'] :=
  ⟨⟨'\n', [], rfl, noQuote.symm⟩, fun fuel read rest => by
    exact readMultiline_char noQuote.symm (fun _ => by decide) fuel read rest⟩

theorem isStep_plain (printed : isTextChar c = true) (noQuote : c ≠ q)
    (noEscape : q = '"' → c ≠ '\\') : IsStep q c [c] :=
  ⟨⟨c, [], rfl, noQuote⟩, fun fuel read rest => by
    rw [List.singleton_append, readMultiline_char noQuote noEscape, skipNewline?_eq_none printed]
    exact if_pos printed⟩

theorem skipNewline?_of_readEscape {s : List Char} (read : readEscape s = some (c, rest)) :
    skipNewline? (s.dropWhile isLineSpace) = none := by
  unfold readEscape at read
  split at read
  case h_10 => cases read
  all_goals simp [isLineSpace, skipNewline?]

theorem isStep_spelled {written : List Char} (spelled : Spelled c written) :
    IsStep '"' c written := by
  cases spelled with
  | plain printed noQuote noEscape => exact isStep_plain printed noQuote fun _ => noEscape
  | @escape name found =>
    refine ⟨⟨'\\', name, rfl, by decide⟩, fun fuel read rest => ?_⟩
    simp [readMultiline, skipNewline?_of_readEscape (found rest), found]

theorem body_escapeBody {run : Nat} (few : run ≤ 2) :
    Body '"' run cs (escapeBody true 2 run cs) := by
  induction cs generalizing run with
  | nil => exact .nil few
  | cons c cs ih =>
    by_cases quote : c = '"'
    · subst quote
      rw [escapeBody_quote]
      split
      · next full =>
        have escaped : Spelled '"' ['\\', '"'] := .escape fun _ => rfl
        exact .char few (isStep_spelled escaped) (ih (by omega))
      · next room => exact .quote (ih (by omega))
    · rw [escapeBody_cons 2 run quote]
      refine .char few ?_ (ih (by omega))
      by_cases feed : c = '\n'
      · exact feed ▸ isStep_newline (by decide)
      · exact isStep_spelled (spelled_escapeChar quote fun _ => feed)

theorem le_longestRun (c : Char) (run longest : Nat) (cs : List Char) :
    longest ≤ longestRun c run longest cs := by
  induction cs generalizing run longest with
  | nil => exact Nat.le_refl _
  | cons d cs ih =>
    rw [longestRun]
    split
    · exact Nat.le_trans (Nat.le_max_left _ _) (ih _ _)
    · exact ih _ _

theorem body_literal {run longest : Nat} (plain : ∀ c ∈ cs, isTextChar c = true ∨ c = '\n')
    (few : run ≤ 2) (runs : longestRun '\'' run longest cs ≤ 2) : Body '\'' run cs cs := by
  induction cs generalizing run longest with
  | nil => exact .nil few
  | cons c cs ih =>
    have ih {run longest} := @ih run longest fun c mem => plain c (.tail _ mem)
    rw [longestRun] at runs
    by_cases quote : c = '\''
    · subst quote
      rw [if_pos rfl] at runs
      have room := Nat.le_trans (le_longestRun '\'' (run + 1) (max longest (run + 1)) cs) runs
      exact .quote (ih (by omega) runs)
    · rw [if_neg quote] at runs
      have step : IsStep '\'' c [c] := by
        obtain printed | feed := plain c (.head _)
        · exact isStep_plain printed quote (by simp)
        · exact feed ▸ isStep_newline (by decide)
      exact .char few step (ih (by omega) runs)

theorem not_mem_of_longestRun {run longest : Nat} (none : longestRun c run longest cs = 0) :
    c ∉ cs := by
  induction cs generalizing run longest with
  | nil => exact List.not_mem_nil
  | cons d cs ih =>
    rw [longestRun] at none
    split at none
    · have := le_longestRun c (run + 1) (max longest (run + 1)) cs
      omega
    · next other => exact fun mem => (List.mem_cons.1 mem).elim (Ne.symm other) (ih none)

theorem choose_literal (chosen : Quotation.choose cs = .literal) :
    ∀ c ∈ cs, isTextChar c = true ∧ c ≠ '\'' := by
  simp only [Quotation.choose] at chosen
  split at chosen
  · cases chosen
  split at chosen
  · next noControls =>
    simp only [Bool.and_eq_true, Bool.not_eq_true', List.any_eq_false, decide_eq_true_eq,
      List.contains_eq_mem, decide_eq_false_iff_not] at noControls
    obtain ⟨⟨noControls, noSingles⟩, noFeed⟩ := noControls
    intro c mem
    have inLine : c ≠ '\n' := fun feed => noFeed (feed ▸ mem)
    have noQuote : c ≠ '\'' := fun quote => not_mem_of_longestRun noSingles (quote ▸ mem)
    exact ⟨isTextChar_iff.2 ⟨by simpa using noControls c mem, inLine⟩, noQuote⟩
  · (repeat' split at chosen) <;> cases chosen

theorem choose_multilineLiteral (chosen : Quotation.choose cs = .multilineLiteral) :
    (∀ c ∈ cs, isTextChar c = true ∨ c = '\n') ∧ longestRun '\'' 0 0 cs ≤ 2 := by
  simp only [Quotation.choose] at chosen
  split at chosen
  · cases chosen
  split at chosen
  · cases chosen
  split at chosen
  · cases chosen
  split at chosen
  · next noControls =>
    simp only [Bool.and_eq_true, Bool.not_eq_true', List.any_eq_false,
      decide_eq_true_eq] at noControls
    refine ⟨fun c mem => ?_, noControls.2⟩
    by_cases feed : c = '\n'
    · exact .inr feed
    · exact .inl (isTextChar_iff.2 ⟨by simpa using noControls.1 c mem, feed⟩)
  · (repeat' split at chosen) <;> cases chosen

/-- How an escaped body starts, if it is not empty: with no line break that was not in the text. -/
theorem escapeBody_starts {multiline : Bool} {allowed run : Nat}
    (inLine : multiline = true → '\n' ∉ cs) :
    escapeBody multiline allowed run cs = [] ∨
      ∃ d tail, escapeBody multiline allowed run cs = d :: tail ∧ isTextChar d = true ∧
        (allowed ≤ run → d ≠ '"') := by
  cases cs with
  | nil => exact .inl rfl
  | cons c cs =>
    refine .inr ?_
    by_cases quote : c = '"'
    · subst quote
      rw [escapeBody_quote]
      split
      · exact ⟨'\\', _, rfl, by decide, fun _ => by decide⟩
      · next room => exact ⟨'"', _, rfl, by decide, fun full => absurd full room⟩
    · rw [escapeBody_cons allowed run quote]
      have spelled := spelled_escapeChar quote fun several feed => inLine several (feed ▸ .head _)
      generalize escapeChar multiline c = written at spelled
      cases spelled with
      | plain printed noQuote noEscape => exact ⟨c, _, rfl, printed, fun _ => noQuote⟩
      | escape => exact ⟨'\\', _, rfl, by decide, fun _ => by decide⟩

/-- A body is read back behind a line break that is left out where the text has none. -/
theorem readMultilineBody_body (body : Body q 0 cs text) {d : Char} (other : d ≠ q)
    (opened : '\n' ∉ cs → skipNewline? (text ++ q :: q :: q :: d :: rest) = none) :
    readMultilineBody q ((if cs.contains '\n' then "\n" else "").toList ++
      (text ++ q :: q :: q :: d :: rest)) = some (String.ofList cs, d :: rest) := by
  have dropped : (skipNewline? ((if cs.contains '\n' then "\n" else "").toList ++
      (text ++ q :: q :: q :: d :: rest))).getD ((if cs.contains '\n' then "\n" else "").toList ++
        (text ++ q :: q :: q :: d :: rest)) = text ++ q :: q :: q :: d :: rest := by
    split
    · rfl
    · next noFeed =>
      have none := opened (by simpa using noFeed)
      rw [String.toList_empty, List.nil_append, none, Option.getD_none]
  have read := readMultiline_body body other rest
    ((text ++ q :: q :: q :: d :: rest).length + 1) [] (by simp only [List.length_append]; omega)
  rw [readMultilineBody, dropped]
  exact read

theorem readString_basic {d : Char} (rest : List Char) (noQuote : d ≠ '"')
    (inside : text = [] ∨ ∃ e tail, text = e :: tail ∧ e ≠ '"') :
    readString ('"' :: (text ++ '"' :: d :: rest)) =
      readBasic ((text ++ '"' :: d :: rest).length + 1) [] (text ++ '"' :: d :: rest) := by
  obtain rfl | ⟨e, tail, rfl, other⟩ := inside
  · simp [readString, noQuote]
  · simp [readString, other]

theorem readString_literal {d : Char} (rest : List Char) (noQuote : d ≠ '\'')
    (inside : '\'' ∉ text) :
    readString ('\'' :: (text ++ '\'' :: d :: rest)) = readLiteral (text ++ '\'' :: d :: rest) := by
  cases text with
  | nil => simp [readString, noQuote]
  | cons e tail =>
    have other : e ≠ '\'' := fun quote => inside (quote ▸ .head _)
    simp [readString, other]

/-- A quoted string is read back, whatever follows it other than a quote. -/
theorem readString_quote (s : String) {d : Char} (rest : List Char) (noDouble : d ≠ '"')
    (noSingle : d ≠ '\'') :
    readString ((quote s).toList ++ d :: rest) = some (s, d :: rest) := by
  simp only [quote]
  cases chosen : Quotation.choose s.toList with
  | basic =>
    have inside : escapeBody false 0 0 s.toList = [] ∨
        ∃ e tail, escapeBody false 0 0 s.toList = e :: tail ∧ e ≠ '"' := by
      obtain none | ⟨e, tail, starts, -, other⟩ :=
        escapeBody_starts (by simp : false = true → '\n' ∉ s.toList)
      · exact .inl none
      · exact .inr ⟨e, tail, starts, other (Nat.le_refl 0)⟩
    have read := readString_basic rest noDouble inside
    rw [readBasic_escapeBody _ _ (by simp only [List.length_append]; omega)] at read
    simpa using read
  | literal =>
    have plain := choose_literal chosen
    have read := readString_literal rest noSingle fun mem => (plain _ mem).2 rfl
    rw [readLiteral_append plain] at read
    simpa using read
  | multilineBasic =>
    have opened : '\n' ∉ s.toList → skipNewline?
        (escapeBody true 2 0 s.toList ++ '"' :: '"' :: '"' :: d :: rest) = none := by
      intro noFeed
      obtain none | ⟨e, tail, starts, printed, -⟩ :=
        escapeBody_starts fun _ : true = true => noFeed
      · rw [none]
        exact skipNewline?_eq_none (by decide)
      · rw [starts]
        exact skipNewline?_eq_none printed
    have read := readMultilineBody_body (body_escapeBody (by decide)) noDouble opened
    simpa [readString] using read
  | multilineLiteral =>
    obtain ⟨plain, runs⟩ := choose_multilineLiteral chosen
    have opened : '\n' ∉ s.toList →
        skipNewline? (s.toList ++ '\'' :: '\'' :: '\'' :: d :: rest) = none := by
      intro noFeed
      cases chars : s.toList with
      | nil => exact skipNewline?_eq_none (by decide)
      | cons c cs =>
        have mem : c ∈ s.toList := chars ▸ .head _
        exact skipNewline?_eq_none ((plain c mem).resolve_right fun feed => noFeed (feed ▸ mem))
    have read := readMultilineBody_body (body_literal plain (by decide) runs) noSingle opened
    simpa [readString] using read

end JavaMigration.Toml
