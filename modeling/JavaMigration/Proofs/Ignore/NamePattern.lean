import JavaMigration.Ignore.Rule
import JavaMigration.Proofs.FileTree.Below
import JavaMigration.Proofs.Text.Trimming

/-!
# Patterns that are names

A pattern of plain characters is the name of a file or directory, wherever that stands. One of its
two rules applies to the paths that end in the name, the other one only to paths that begin with it.

Paths are matched as bytes. No character but the slash is written with the byte of a slash, so the
stretches of bytes between slashes are those of the names on the path.
-/

namespace JavaMigration.Ignore

open Text (bytes bytes_eq)

def isSpecial (c : Char) : Bool :=
  c ∈ ['?', '*', '[', '\x7b', '\x7d', ',', '\\', '/']

/-- A pattern that is read as a name, character by character. -/
structure IsNamePattern (pattern : String) : Prop where
  nonempty : pattern ≠ ""
  plain : ∀ c ∈ pattern.toList, isSpecial c = false
  last : ∀ c ∈ pattern.toList.getLast?, Text.isBlank c = false ∧ c ≠ '.'

instance (pattern : String) : Decidable (IsNamePattern pattern) :=
  decidable_of_iff (pattern ≠ "" ∧ pattern.toList.all (!isSpecial ·) = true ∧
      pattern.toList.getLast?.all (fun c => !Text.isBlank c && c ≠ '.') = true)
    ⟨fun ⟨nonempty, plain, last⟩ =>
      ⟨nonempty, by simpa using plain, by simpa [Option.all_eq_true] using last⟩,
    fun ⟨nonempty, plain, last⟩ =>
      ⟨nonempty, by simpa using plain, by simpa [Option.all_eq_true] using last⟩⟩

def literals (cs : List Char) : Glob :=
  cs.map .literal

theorem readFrom_literal {c : Char} (plain : isSpecial c = false ∨ c = '/') (brackets : Brackets)
    (previous : Option Char) (d : Draft) (rest : List Char) :
    readFrom brackets previous d (c :: rest) =
      readFrom brackets (some c) (d.push (.literal c)) rest := by
  rw [readFrom.eq_def]
  split
  all_goals rename_i same
  all_goals cases same
  all_goals first
    | exact absurd plain (by decide)
    | rfl

theorem readFrom_literals {cs : List Char} (plain : ∀ c ∈ cs, isSpecial c = false)
    (brackets : Brackets) (previous : Option Char) (d : Draft) (rest : List Char) :
    ∃ previous', readFrom brackets previous d (cs ++ rest) =
      readFrom brackets previous' { d with branch := (literals cs).reverse ++ d.branch } rest := by
  induction cs generalizing previous d with
  | nil => exact ⟨previous, rfl⟩
  | cons c cs ih =>
    obtain ⟨previous', read⟩ := ih (fun c' mem => plain c' (List.mem_cons_of_mem _ mem)) (some c)
      (d.push (.literal c))
    refine ⟨previous', ?_⟩
    rw [List.cons_append, readFrom_literal (.inl (plain c (by simp))), read]
    simp [literals, Draft.push]

theorem read_below {cs : List Char} (plain : ∀ c ∈ cs, isSpecial c = false) :
    Glob.read .strict (cs ++ "/**/*".toList) = .ok (literals cs ++ [.anyBetween, .star]) := by
  obtain ⟨previous, read⟩ := readFrom_literals plain .strict none {} "/**/*".toList
  rw [Glob.read, read, show "/**/*".toList = ['/', '*', '*', '/', '*'] from rfl,
    readFrom_literal (.inr rfl)]
  simp [readFrom, stars, Draft.push, Draft.pushStars, Draft.finish]

theorem read_everywhere {cs : List Char} (plain : ∀ c ∈ cs, isSpecial c = false) :
    Glob.read .strict ("**/".toList ++ cs) = .ok (.anyDirectory :: literals cs) := by
  obtain ⟨previous, read⟩ :=
    readFrom_literals plain .strict (some '/') (Draft.push .anyDirectory {}) []
  have begun : stars none (some '/') {} = (Draft.push .anyDirectory {}, true) := rfl
  have whole : Glob.read .strict ("**/".toList ++ cs) =
      readFrom .strict (some '/') (Draft.push .anyDirectory {}) cs := by
    rw [Glob.read, show "**/".toList = ['*', '*', '/'] from rfl, List.cons_append,
      List.cons_append, List.cons_append, List.nil_append, readFrom, List.head?_cons, begun]
    rfl
  rw [whole, ← List.append_nil cs, read]
  simp [readFrom, Draft.push, Draft.finish]

theorem trimLine_eq_self {s : List Char} (solid : ∀ c ∈ s.getLast?, Text.isBlank c = false) :
    trimLine s = s := by
  rw [trimLine, Text.trimEndList_eq_self solid, ite_self]

theorem ofMarked_keep {body : List Char} (unanchored : body.head? ≠ some '/') :
    Line.ofMarked ('!' :: body) = { pattern := body, verdict := .keep } := by
  unfold Line.ofMarked
  split
  · rename_i same
    cases same
  · rename_i same
    cases same
  · rename_i same
    cases same
    exact absurd rfl unanchored
  · rename_i same
    cases same
    rfl
  · rename_i same
    cases same
  · rename_i other _
    exact (other body rfl).elim

theorem withoutEnd_eq_self {line : Line} {last : Char} (ends : line.pattern.getLast? = some last)
    (openEnded : last ≠ '/') : line.withoutEnd = line := by
  obtain ⟨init, text⟩ := List.getLast?_eq_some_iff.1 ends
  unfold Line.withoutEnd
  rw [text, List.reverse_concat]
  split
  · rename_i same
    exact absurd (List.cons.inj same).1 openEnded
  · rename_i same
    exact absurd (List.cons.inj same).1 openEnded
  · rfl

theorem read_markedLine {pattern : String} {last : Char} (ends : pattern.toList.getLast? = some last)
    (solid : Text.isBlank last = false) (openEnded : last ≠ '/')
    (unanchored : pattern.toList.head? ≠ some '/') :
    Rule.read .strict (markedLine pattern) =
      (Glob.read .strict (Line.fullPattern { pattern := pattern.toList, verdict := .keep })).map
        fun glob => some ⟨glob, .keep, false⟩ := by
  unfold markedLine
  have whole : trimLine ('!' :: pattern.toList) = '!' :: pattern.toList := by
    apply trimLine_eq_self
    intro c mem
    rw [List.getLast?_cons, ends] at mem
    obtain rfl : last = c := by simpa using mem
    exact solid
  rw [whole, Rule.read, whole, if_neg (by simp), ofMarked_keep unanchored,
    withoutEnd_eq_self ends openEnded]
  dsimp only
  cases Glob.read .strict (Line.fullPattern { pattern := pattern.toList, verdict := .keep }) <;> rfl

def nameRules (pattern : String) : List Rule :=
  [⟨literals pattern.toList ++ [.anyBetween, .star], .skip, false⟩,
    ⟨.anyDirectory :: literals pattern.toList, .skip, false⟩]

theorem not_isEverywhere {cs : List Char} (plain : '*' ∉ cs) : Line.isEverywhere cs = false := by
  cases cs with
  | nil => rfl
  | cons c cs =>
    have other : '*' ≠ c := List.ne_of_not_mem_cons plain
    simp [Line.isEverywhere, List.isPrefixOf, other, Ne.symm other]

namespace IsNamePattern

variable {pattern : String} (named : IsNamePattern pattern)

include named

theorem notMem {c : Char} (special : isSpecial c = true) : c ∉ pattern.toList := by
  intro mem
  rw [named.plain c mem] at special
  cases special

theorem exists_last : ∃ init last, pattern.toList = init ++ [last] := by
  have filled : pattern.toList ≠ [] := by simpa using named.nonempty
  exact ⟨_, _, (List.dropLast_append_getLast filled).symm⟩

theorem unanchored : pattern.toList.head? ≠ some '/' :=
  fun first => named.notMem (c := '/') rfl (List.mem_of_mem_head? first)

theorem read_below : Rule.read .strict (markedLine (pattern ++ "/**")) =
    .ok (some ⟨literals pattern.toList ++ [.anyBetween, .star], .keep, false⟩) := by
  have filled : pattern.toList ≠ [] := by simpa using named.nonempty
  have full : Line.fullPattern { pattern := (pattern ++ "/**").toList, verdict := .keep } =
      pattern.toList ++ "/**/*".toList := by
    simp [Line.fullPattern]
  have star : (pattern ++ "/**").toList.getLast? = some '*' := by simp
  rw [read_markedLine star (by decide) (by decide), full, Ignore.read_below named.plain]
  · rfl
  · rw [String.toList_append, List.head?_append_of_ne_nil _ filled]
    exact named.unanchored

theorem fullPattern_eq : Line.fullPattern { pattern := pattern.toList, verdict := .keep } =
    "**/".toList ++ pattern.toList := by
  obtain ⟨init, last, text⟩ := named.exists_last
  have local_name : ('/' ∈ pattern.toList ∨ Line.isEverywhere pattern.toList = true) = False := by
    simp [named.notMem (c := '/') rfl, not_isEverywhere (named.notMem (c := '*') rfl)]
  have inner : ¬ ['/', '*', '*'] <:+ '*' :: '*' :: '/' :: pattern.toList := by
    rintro ⟨front, whole⟩
    have star : last = '*' := by
      have ending := congrArg List.getLast? whole
      simpa [List.getLast?_cons, text] using ending.symm
    exact named.notMem (c := '*') rfl (by simp [text, star])
  simp [Line.fullPattern, local_name, inner]

theorem read_everywhere : Rule.read .strict (markedLine pattern) =
    .ok (some ⟨.anyDirectory :: literals pattern.toList, .keep, false⟩) := by
  obtain ⟨init, last, text⟩ := named.exists_last
  have ends : pattern.toList.getLast? = some last := by simp [text]
  have openEnded : last ≠ '/' := by
    rintro rfl
    exact named.notMem (c := '/') rfl (by simp [text])
  rw [read_markedLine ends (named.last last ends).1 openEnded named.unanchored,
    named.fullPattern_eq, Ignore.read_everywhere named.plain]
  rfl

end IsNamePattern

theorem rulesOfPattern_name {pattern : String} (named : IsNamePattern pattern) :
    rulesOfPattern pattern = .ok (nameRules pattern) := by
  simp only [rulesOfPattern, List.mapM_cons, List.mapM_nil, named.read_below,
    named.read_everywhere]
  rfl

theorem mem_restsOf_cons {token : Token} {glob : Glob} {s r : List UInt8} :
    r ∈ restsOf (token :: glob) s ↔ ∃ u ∈ token.rests s, r ∈ restsOf glob u := by
  simp [restsOf]

theorem mem_rests_literal {c : Char} {s r : List UInt8} :
    r ∈ (Token.literal c).rests s ↔ s = String.utf8EncodeChar c ++ r := by
  unfold Token.rests
  dsimp only
  split
  · rename_i front
    obtain ⟨u, rfl⟩ := List.isPrefixOf_iff_prefix.1 front
    simp [eq_comm]
  · rename_i apart
    simp only [List.not_mem_nil, false_iff]
    rintro rfl
    exact apart (by simp)

theorem mem_restsOf_literals {cs : List Char} {glob : Glob} {s r : List UInt8} :
    r ∈ restsOf (literals cs ++ glob) s ↔
      ∃ u, s = cs.flatMap String.utf8EncodeChar ++ u ∧ r ∈ restsOf glob u := by
  induction cs generalizing s with
  | nil => simp [literals]
  | cons c cs ih =>
    have step : literals (c :: cs) ++ glob = .literal c :: (literals cs ++ glob) := rfl
    rw [step, mem_restsOf_cons]
    constructor
    · rintro ⟨u, first, later⟩
      obtain ⟨u', rfl, rest⟩ := ih.1 later
      refine ⟨u', ?_, rest⟩
      rw [mem_rests_literal.1 first, List.flatMap_cons, List.append_assoc]
    · rintro ⟨u, rfl, rest⟩
      refine ⟨cs.flatMap String.utf8EncodeChar ++ u, ?_, ih.2 ⟨u, rfl, rest⟩⟩
      rw [mem_rests_literal, List.flatMap_cons, List.append_assoc]

theorem mem_restsAfterSlash {s r : List UInt8} :
    r ∈ restsAfterSlash s ↔ ∃ front, s = front ++ slash :: r := by
  induction s with
  | nil => simp [restsAfterSlash]
  | cons b s ih =>
    have split : r ∈ restsAfterSlash (b :: s) ↔ (b = slash ∧ r = s) ∨ r ∈ restsAfterSlash s := by
      by_cases here : b = slash <;> simp [restsAfterSlash, here]
    rw [split, ih]
    constructor
    · rintro (⟨rfl, rfl⟩ | ⟨front, rfl⟩)
      · exact ⟨[], rfl⟩
      · exact ⟨b :: front, rfl⟩
    · rintro ⟨front, whole⟩
      cases front with
      | nil =>
        obtain ⟨rfl, rfl⟩ := List.cons.inj whole
        exact .inl ⟨rfl, rfl⟩
      | cons b' front =>
        obtain ⟨rfl, rfl⟩ := List.cons.inj whole
        exact .inr ⟨front, rfl⟩

variable {pattern : String} {path : List UInt8}

theorem bytes_of_isMatch_below
    (matched : isMatch (literals pattern.toList ++ [.anyBetween, .star]) path = true) :
    ∃ r, path = bytes pattern ++ slash :: r := by
  have whole : ([] : List UInt8) ∈
      restsOf (literals pattern.toList ++ [.anyBetween, .star]) path := by
    unfold isMatch at matched
    split at matched
    · rename_i same
      have ends := congrArg List.getLast? same
      simp at ends
    · simp only [Bool.and_eq_true, List.contains_iff_mem] at matched
      exact matched.1
  obtain ⟨u, text, later⟩ := mem_restsOf_literals.1 whole
  obtain ⟨v, between, -⟩ := mem_restsOf_cons.1 later
  rw [← bytes_eq] at text
  cases u with
  | nil => simp [Token.rests] at between
  | cons b r =>
    by_cases here : b = slash
    · exact ⟨r, by rw [text, here]⟩
    · simp [Token.rests, here] at between

theorem nil_mem_restsOf_literals {u : List UInt8} :
    [] ∈ restsOf (literals pattern.toList) u ↔ u = bytes pattern := by
  have closed : [] ∈ restsOf (literals pattern.toList ++ []) u ↔ _ := mem_restsOf_literals
  rw [List.append_nil] at closed
  simp [closed, restsOf, bytes_eq]

theorem isMatch_everywhere (named : IsNamePattern pattern) :
    isMatch (.anyDirectory :: literals pattern.toList) path = true ↔
      path = bytes pattern ∨ ∃ front, path = front ++ slash :: bytes pattern := by
  obtain ⟨init, last, text⟩ : ∃ init last, pattern.toList = init ++ [last] :=
    ⟨_, _, (List.dropLast_append_getLast (by simpa using named.nonempty)).symm⟩
  have solid : last ≠ '.' := (named.last last (by simp [text])).2
  have open_end : endsInPoint (.anyDirectory :: literals pattern.toList) = false := by
    simp [endsInPoint, literals, text, List.getLast?_cons, Token.literal?, solid]
  have whole : isMatch (.anyDirectory :: literals pattern.toList) path =
      (restsOf (.anyDirectory :: literals pattern.toList) path).contains [] := by
    unfold isMatch
    split
    · rename_i same
      have shorter := congrArg List.length same
      simp [literals, text] at shorter
    · rw [open_end, Bool.not_false, Bool.true_or, Bool.and_true]
  rw [whole, List.contains_iff_mem, mem_restsOf_cons]
  simp only [Token.rests, List.mem_cons, mem_restsAfterSlash, nil_mem_restsOf_literals]
  constructor
  · rintro ⟨u, rfl | ⟨front, split⟩, same⟩
    · exact .inl same
    · exact .inr ⟨front, same ▸ split⟩
  · rintro (alone | ⟨front, split⟩)
    · exact ⟨_, .inl rfl, alone⟩
    · exact ⟨_, .inr ⟨front, split⟩, rfl⟩

section

variable {u r : List UInt8} (plain : slash ∉ u)

include plain

theorem takeWhile_eq_self : u.takeWhile (· ≠ slash) = u := by
  rw [List.takeWhile_eq_self_iff]
  intro b mem
  have other : b ≠ slash := fun same => plain (same ▸ mem)
  simpa using other

theorem takeWhile_append_slash : (u ++ slash :: r).takeWhile (· ≠ slash) = u := by
  rw [List.takeWhile_append, takeWhile_eq_self plain, if_pos rfl,
    List.takeWhile_cons_of_neg (by simp), List.append_nil]

end

theorem takeWhile_joinSlash {name : Name} (plain : slash ∉ name) (names : List Name) :
    (joinSlash (name :: names)).takeWhile (· ≠ slash) = name := by
  cases names with
  | nil => rw [joinSlash_singleton, takeWhile_eq_self plain]
  | cons next names => rw [joinSlash_cons_cons, takeWhile_append_slash plain]

theorem takeWhile_reverse_joinSlash {name : Name} (plain : slash ∉ name) (names : List Name) :
    (joinSlash (names ++ [name])).reverse.takeWhile (· ≠ slash) = name.reverse := by
  have backwards : slash ∉ name.reverse := by simpa using plain
  by_cases alone : names = []
  · rw [alone, List.nil_append, joinSlash_singleton, takeWhile_eq_self backwards]
  · rw [joinSlash_concat alone, List.reverse_append, List.reverse_cons, List.append_assoc,
      List.singleton_append, takeWhile_append_slash backwards]

theorem IsNamePattern.slash_notMem (named : IsNamePattern pattern) : slash ∉ bytes pattern := by
  intro mem
  exact absurd (named.plain '/' (mem_of_slash_mem_bytes mem)) (by decide)

theorem any_nameRules {isDirectory : Bool} :
    (nameRules pattern).any (·.applies isDirectory path) =
      (isMatch (literals pattern.toList ++ [.anyBetween, .star]) path ||
        isMatch (.anyDirectory :: literals pattern.toList) path) := by
  simp [nameRules, Rule.applies]

variable {names : List Name}

/-- The rules of a name apply to the paths that end in it. -/
theorem applies_of_last (named : IsNamePattern pattern) (isDirectory : Bool)
    (last : names.getLast? = some (bytes pattern)) :
    (nameRules pattern).any (·.applies isDirectory (joinSlash names)) = true := by
  obtain ⟨init, rfl⟩ := List.getLast?_eq_some_iff.1 last
  rw [any_nameRules, Bool.or_eq_true, isMatch_everywhere named]
  right
  by_cases alone : init = []
  · left
    rw [alone, List.nil_append, joinSlash_singleton]
  · right
    exact ⟨joinSlash init, joinSlash_concat alone _⟩

/-- The rules of a name apply only to paths on which it is. -/
theorem mem_of_applies (named : IsNamePattern pattern) (proper : ∀ name ∈ names, slash ∉ name)
    (nonempty : names ≠ []) {isDirectory : Bool}
    (applies : (nameRules pattern).any (·.applies isDirectory (joinSlash names)) = true) :
    bytes pattern ∈ names := by
  have clean := named.slash_notMem
  rw [any_nameRules, Bool.or_eq_true, isMatch_everywhere named] at applies
  rcases applies with below | last
  · obtain ⟨first, rest, rfl⟩ := List.exists_cons_of_ne_nil nonempty
    obtain ⟨r, whole⟩ := bytes_of_isMatch_below below
    have same : first = bytes pattern := by
      rw [← takeWhile_joinSlash (proper first (by simp)) rest, whole, takeWhile_append_slash clean]
    rw [same]
    exact List.mem_cons_self
  · obtain ⟨init, final, rfl⟩ : ∃ init final, names = init ++ [final] :=
      ⟨_, _, (List.dropLast_append_getLast nonempty).symm⟩
    have backwards : slash ∉ (bytes pattern).reverse := by simpa using clean
    have same : final.reverse = (bytes pattern).reverse := by
      rw [← takeWhile_reverse_joinSlash (proper final (by simp)) init]
      rcases last with alone | ⟨front, whole⟩
      · rw [alone, takeWhile_eq_self backwards]
      · rw [whole, List.reverse_append, List.reverse_cons, List.append_assoc,
          List.singleton_append, takeWhile_append_slash backwards]
    rw [List.reverse_injective same]
    exact List.mem_append_right _ List.mem_cons_self

end JavaMigration.Ignore
