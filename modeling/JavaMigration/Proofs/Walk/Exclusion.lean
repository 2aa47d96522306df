import JavaMigration.Proofs.FileTree.Below
import JavaMigration.Proofs.Ignore.NamePattern

/-!
# What a walk leaves out

The rules of patterns leave paths out, and none of them keeps one. So a path is left out as soon as
one rule applies to it, and further patterns leave out more. Where all patterns are names, a walk
comes to exactly those files on whose way none of the names is.
-/

namespace JavaMigration

namespace Ignore

section Rules

variable {pattern : String} {patterns more : List String} {path : List UInt8} {rules : List Rule}
  {isDirectory : Bool}

theorem rulesOfPatterns_append :
    rulesOfPatterns (patterns ++ more) = .ok rules ↔
      ∃ first later, rulesOfPatterns patterns = .ok first ∧ rulesOfPatterns more = .ok later ∧
        rules = first ++ later := by
  simp only [rulesOfPatterns, List.mapM_append]
  cases patterns.mapM rulesOfPattern with
  | error e => simp [bind, Except.bind]
  | ok first =>
    cases more.mapM rulesOfPattern with
    | error e => simp [bind, Except.bind]
    | ok later => simp [bind, Except.bind, pure, Except.pure, eq_comm]

theorem rulesOfPatterns_cons :
    rulesOfPatterns (pattern :: patterns) = .ok rules ↔
      ∃ first later, rulesOfPattern pattern = .ok first ∧ rulesOfPatterns patterns = .ok later ∧
        rules = first ++ later := by
  have single : rulesOfPatterns [pattern] = rulesOfPattern pattern := by
    simp only [rulesOfPatterns, List.mapM_cons, List.mapM_nil]
    cases rulesOfPattern pattern with
    | error e => rfl
    | ok first => simp [bind, Except.bind, pure, Except.pure]
  rw [← List.singleton_append, rulesOfPatterns_append, single]

theorem verdict_of_rulesOfPattern (read : rulesOfPattern pattern = .ok rules) :
    ∀ r ∈ rules, r.verdict = .skip := by
  simp only [rulesOfPattern, bind, Except.bind] at read
  split at read
  · cases read
  · cases read
    intro r mem
    obtain ⟨r', -, rfl⟩ := List.mem_map.1 mem
    rfl

/-- No pattern keeps a path. -/
theorem verdict_of_rulesOfPatterns (read : rulesOfPatterns patterns = .ok rules) :
    ∀ r ∈ rules, r.verdict = .skip := by
  induction patterns generalizing rules with
  | nil =>
    cases read
    simp
  | cons pattern patterns ih =>
    obtain ⟨first, later, one, others, rfl⟩ := rulesOfPatterns_cons.1 read
    intro r mem
    rcases List.mem_append.1 mem with mem | mem
    · exact verdict_of_rulesOfPattern one r mem
    · exact ih others r mem

theorem rulesOfPatterns_names (named : ∀ pattern ∈ patterns, IsNamePattern pattern) :
    rulesOfPatterns patterns = .ok (patterns.flatMap nameRules) := by
  induction patterns with
  | nil => rfl
  | cons pattern patterns ih =>
    rw [rulesOfPatterns_cons]
    exact ⟨_, _, rulesOfPattern_name (named pattern (by simp)),
      ih fun other mem => named other (by simp [mem]), rfl⟩

theorem verdict?_eq_skip (leaving : ∀ r ∈ rules, r.verdict = .skip) :
    verdict? rules isDirectory path = some .skip ↔
      ∃ r ∈ rules, r.applies isDirectory path = true := by
  unfold verdict?
  constructor
  · intro left
    obtain ⟨r, found, -⟩ := Option.map_eq_some_iff.1 left
    have applies := List.find?_some found
    exact ⟨r, List.mem_reverse.1 (List.mem_of_find?_eq_some found), applies⟩
  · rintro ⟨r, mem, applies⟩
    cases found : rules.reverse.find? (·.applies isDirectory path) with
    | none => exact absurd applies (List.find?_eq_none.1 found r (List.mem_reverse.2 mem))
    | some r' =>
      rw [Option.map_some, leaving r' (List.mem_reverse.1 (List.mem_of_find?_eq_some found))]

theorem builtInPatterns_names : ∀ pattern ∈ builtInPatterns, IsNamePattern pattern := by
  decide

end Rules

end Ignore

namespace Walk

open Ignore

open FileTree

variable {t : FileTree} {base : Location} {names : List Name} {patterns : List String}
  {isDirectory : Bool}

section Reaching

variable {leaves leaves' : Bool → Location → Bool}

theorem reaches_of_more {l : Location}
    (more : ∀ isDirectory l, leaves isDirectory l = true → leaves' isDirectory l = true)
    (reached : reaches t leaves' base l = true) : reaches t leaves base l = true := by
  have kept : ∀ isDirectory l, leaves' isDirectory l = false → leaves isDirectory l = false := by
    intro isDirectory l kept
    by_contra left
    rw [more isDirectory l (by simpa using left)] at kept
    cases kept
  obtain ⟨names, rfl⟩ := exists_of_reaches reached
  rw [reaches_iff] at reached ⊢
  exact fun n inside => ⟨(reached n inside).1, kept _ _ (reached n inside).2⟩

theorem filesBelow_of_more
    (more : ∀ isDirectory l, leaves isDirectory l = true → leaves' isDirectory l = true) :
    (filesBelow t leaves' base).Sublist (filesBelow t leaves base) := by
  have fewer : filesBelow t leaves' base =
      (filesBelow t leaves base).filter (reaches t leaves' base) := by
    rw [filesBelow, filesBelow, List.filter_filterMap]
    apply List.filterMap_congr
    rintro ⟨l, e⟩ -
    cases e with
    | directory => rfl
    | special => rfl
    | file content =>
      by_cases reached : reaches t leaves' base l = true
      · simp [reached, reaches_of_more more reached, Option.filter]
      · by_cases reached' : reaches t leaves base l = true
        · simp [reached, reached', Option.filter]
        · simp [reached, reached']
  rw [fewer]
  exact List.filter_sublist

end Reaching

section Names

variable (named : ∀ pattern ∈ patterns, IsNamePattern pattern)

include named

theorem skips_names (path : List Name) :
    skips t false (patterns.flatMap nameRules) base isDirectory (base ++ path) = true ↔
      ∃ pattern ∈ patterns,
        (nameRules pattern).any (·.applies isDirectory (joinSlash path)) = true := by
  have leaving := verdict_of_rulesOfPatterns (rulesOfPatterns_names named)
  simp only [skips, Bool.false_and, Bool.or_false, decide_eq_true_eq, pathFrom, List.drop_left]
  rw [verdict?_eq_skip leaving]
  simp only [List.mem_flatMap, List.any_eq_true]
  constructor
  · rintro ⟨r, ⟨pattern, mem, inside⟩, applies⟩
    exact ⟨pattern, mem, r, inside, applies⟩
  · rintro ⟨pattern, mem, r, inside, applies⟩
    exact ⟨r, ⟨pattern, mem, inside⟩, applies⟩

/--
A walk comes to what is below its base unless one of the names is on the way, or a directory that
cannot be listed.
-/
theorem reaches_names (proper : ∀ name ∈ names, slash ∉ name)
    (directories : ∀ n < names.length, t.entry? (base ++ names.take n) = some .directory) :
    reaches t (skips t false (patterns.flatMap nameRules) base) base (base ++ names) = true ↔
      (∀ name ∈ names, name ∉ patterns.map Text.bytes) ∧
        ∀ n < names.length, base ++ names.take n ∉ t.unlisted := by
  rw [reaches_iff]
  constructor
  · intro each
    refine ⟨?_, fun n inside => (canList_iff.1 (each n inside).1).2⟩
    intro name mem listed
    obtain ⟨pattern, known, rfl⟩ := List.mem_map.1 listed
    -- Where the name stands, it is the last one on the way so far.
    obtain ⟨n, inside, here⟩ := List.mem_iff_getElem.1 mem
    have last : (names.take (n + 1)).getLast? = some (Text.bytes pattern) := by
      rw [List.take_succ_eq_append_getElem inside, List.getLast?_concat, here]
    have left : skips t false (patterns.flatMap nameRules) base (n + 1 < names.length)
        (base ++ names.take (n + 1)) = true :=
      (skips_names named _).2 ⟨pattern, known, applies_of_last (named _ known) _ last⟩
    rw [(each n inside).2] at left
    cases left
  · rintro ⟨absent, listable⟩ n inside
    refine ⟨canList_iff.2 ⟨directories n inside, listable n inside⟩, ?_⟩
    by_contra left
    rw [Bool.not_eq_false, skips_names named] at left
    obtain ⟨pattern, listed, applies⟩ := left
    have some_names : names.take (n + 1) ≠ [] := by
      intro none
      have := congrArg List.length none
      rw [List.length_take, List.length_nil] at this
      omega
    have mem := mem_of_applies (named pattern listed)
      (fun name mem => proper name (List.mem_of_mem_take mem)) some_names applies
    exact absent _ (List.mem_of_mem_take mem) (List.mem_map_of_mem listed)

end Names

end Walk

end JavaMigration
