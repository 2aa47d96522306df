import JavaMigration.Proofs.Markup.Forest
import JavaMigration.Proofs.Markup.Escaping

/-!
# Stretches

A text of markup is a sequence of marks and of character data between them. The events that are read
are those of the marks, and the texts of the character data without the white space at their ends.
-/

namespace JavaMigration.Markup

open Text

/-- What is read of a mark, or the character data up to the next mark, as it is written. -/
inductive Stretch
  | mark (event : Event)
  | data (raw : List Char)
deriving DecidableEq, Repr

def resolved (raw : List Char) : List Char :=
  match unescapeList raw with
  | .ok t => t
  | .error _ => []

namespace Stretch

def read : Stretch → Option Event
  | mark event => some event
  | data raw =>
    if raw.all isSpace then none else some (.text (String.ofList (resolved (trimList isSpace raw))))

def IsSound : Stretch → Prop
  | mark _ => True
  | data raw => ∃ t, unescapeList (trimList isSpace raw) = .ok t

end Stretch

def stretchesFrom (position : Nat) (s : List Char) : List Stretch :=
  match s with
  | [] => []
  | c :: body =>
    if c = '<' then
      match readMark position body with
      | .error _ => []
      | .ok mark =>
        have := mark.shorter
        .mark mark.event :: stretchesFrom mark.stop mark.rest
    else
      let run := c :: body.takeWhile (· != '<')
      have := (List.dropWhile_sublist (· != '<') (l := body)).length_le
      .data run :: stretchesFrom (position + width run) (body.dropWhile (· != '<'))
termination_by s.length

def withoutOrderMark (s : String) : List Char :=
  match s.toList with
  | [] => []
  | c :: rest => if c = '\uFEFF' then rest else c :: rest

def stretches (s : String) : List Stretch :=
  stretchesFrom 0 (withoutOrderMark s)

theorem events_eq (s : String) : events s = eventsFrom 0 (withoutOrderMark s) := by
  unfold events withoutOrderMark
  cases s.toList with
  | nil => rfl
  | cons c rest => exact (apply_ite (eventsFrom 0) _ _ _).symm

theorem stretchesFrom_data {run rest : List Char} (nonempty : run ≠ []) (plain : '<' ∉ run)
    (stops : rest = [] ∨ ∃ body, rest = '<' :: body) (position : Nat) :
    stretchesFrom position (run ++ rest) =
      .data run :: stretchesFrom (position + width run) rest := by
  obtain ⟨c, tail, rfl⟩ := List.exists_cons_of_ne_nil nonempty
  simp only [List.mem_cons, not_or] at plain
  have inside : ∀ x ∈ tail, (x != '<') = true := fun x mem => by
    simpa using fun same : x = '<' => plain.2 (same ▸ mem)
  have whole : (tail ++ rest).takeWhile (· != '<') = tail ∧
      (tail ++ rest).dropWhile (· != '<') = rest := by
    rw [List.takeWhile_append_of_pos inside, List.dropWhile_append_of_pos inside]
    rcases stops with rfl | ⟨body, rfl⟩ <;> simp
  rw [List.cons_append, stretchesFrom]
  simp only [Ne.symm plain.1, if_false, whole]

/-- The stretches of `s` have no fault in their data, and are read as the given events. -/
structure Say (position : Nat) (s : List Char) (events : List Event) : Prop where
  events : (stretchesFrom position s).filterMap Stretch.read = events
  sound : ∀ a ∈ stretchesFrom position s, a.IsSound

theorem dropWhile_to_mark (s : List Char) :
    s.dropWhile (· != '<') = [] ∨ ∃ body, s.dropWhile (· != '<') = '<' :: body := by
  cases found : s.dropWhile (· != '<') with
  | nil => exact .inl rfl
  | cons c body =>
    have mark : (c != '<') = false :=
      head_dropWhile (p := (· != '<')) (s := s) (by rw [found]; rfl)
    exact .inr ⟨body, by simpa using mark⟩

theorem not_isSpace_lt : isSpace '<' = false := by
  decide

namespace Say

variable {position : Nat} {s body rest : List Char} {events : List Event}

theorem nil (position : Nat) : Say position [] [] := by
  constructor
  · rw [stretchesFrom]
    rfl
  · rw [stretchesFrom]
    simp

theorem gap {gap : List Char} (white : ∀ c ∈ gap, isSpace c = true)
    (stops : rest = [] ∨ ∃ body, rest = '<' :: body)
    (later : Say (position + width gap) rest events) : Say position (gap ++ rest) events := by
  by_cases empty : gap = []
  · subst empty
    exact later
  · have plain : '<' ∉ gap := fun mem => by simpa [not_isSpace_lt] using white '<' mem
    have all : gap.all isSpace = true := List.all_eq_true.2 white
    have nothing := trimList_eq_nil_iff.2 white
    have split := stretchesFrom_data empty plain stops position
    constructor
    · rw [split, List.filterMap_cons_none (by rw [Stretch.read, if_pos all]), later.events]
    · rw [split, List.forall_mem_cons]
      refine ⟨⟨[], ?_⟩, later.sound⟩
      rw [nothing, unescapeList, unescapeFrom]

theorem mark {mark : Mark body} (found : readMark position body = .ok mark)
    (later : Say mark.stop mark.rest events) :
    Say position ('<' :: body) (mark.event :: events) := by
  have split : stretchesFrom position ('<' :: body) =
      .mark mark.event :: stretchesFrom mark.stop mark.rest := by
    rw [stretchesFrom]
    simp only [if_true, found]
  have event : (Stretch.mark mark.event).read = some mark.event := rfl
  constructor
  · rw [split, List.filterMap_cons_some event, later.events]
  · rw [split, List.forall_mem_cons]
    exact ⟨trivial, later.sound⟩

theorem data {run t : List Char} (nonempty : run ≠ []) (plain : '<' ∉ run)
    (stops : rest = [] ∨ ∃ body, rest = '<' :: body) (solid : run.all isSpace = false)
    (read : unescapeList (trimList isSpace run) = .ok t)
    (later : Say (position + width run) rest events) :
    Say position (run ++ rest) (.text (String.ofList t) :: events) := by
  have split := stretchesFrom_data nonempty plain stops position
  have event : (Stretch.data run).read = some (.text (String.ofList t)) := by
    rw [Stretch.read, solid, resolved, read]
    rfl
  constructor
  · rw [split, List.filterMap_cons_some event, later.events]
  · rw [split, List.forall_mem_cons]
    exact ⟨⟨t, read⟩, later.sound⟩

end Say

/-- Where there is no fault, the events of a text are those that its stretches say. -/
theorem say_eventsFrom {position length : Nat} {s : List Char}
    (complete : (eventsFrom position s).ending = .ok length) :
    Say position s ((eventsFrom position s).events.map (·.event)) := by
  fun_induction eventsFrom position s with
  | case1 position s _ hs =>
    have blank := Say.gap (List.dropWhile_eq_nil_iff.1 hs) (.inl rfl) (Say.nil (position + width s))
    rw [List.append_nil] at blank
    exact blank
  | case2 => cases complete
  | case3 position s _ body mark found _ hs _ ih =>
    have white : ∀ c ∈ s.takeWhile isSpace, isSpace c = true := fun c => List.mem_takeWhile_imp
    have split := List.takeWhile_append_dropWhile (p := isSpace) (l := s)
    rw [hs] at split
    have said := Say.gap white (.inr ⟨body, rfl⟩) (Say.mark found (ih complete))
    rw [split] at said
    exact said
  | case4 => cases complete
  | case5 position s _ c body hs _ noMark run rest _ stop text read ih =>
    have white : ∀ c ∈ s.takeWhile isSpace, isSpace c = true := fun c => List.mem_takeWhile_imp
    have solid : isSpace c = false := head_dropWhile (by rw [hs]; rfl)
    have plain : '<' ∉ s.takeWhile isSpace ++ run := by
      rw [List.mem_append, List.mem_cons, not_or, not_or]
      refine ⟨fun mem => ?_, Ne.symm noMark, fun mem => ?_⟩
      · simpa [not_isSpace_lt] using white '<' mem
      · simpa using List.mem_takeWhile_imp mem
    have split : s.takeWhile isSpace ++ run ++ rest = s := by
      rw [List.append_assoc, List.cons_append, List.takeWhile_append_dropWhile, ← hs,
        List.takeWhile_append_dropWhile]
    have trimmed : trimList isSpace (s.takeWhile isSpace ++ run) = trimEndList isSpace run := by
      rw [trimList, List.dropWhile_append_of_pos white,
        List.dropWhile_cons_of_neg (by simp [solid])]
    have later : Say (position + width (s.takeWhile isSpace ++ run)) rest
        ((eventsFrom stop rest).events.map (·.event)) := by
      rw [width_append, ← Nat.add_assoc]
      exact ih complete
    have said := Say.data (by simp [run]) plain (dropWhile_to_mark body) (by simp [run, solid])
      (trimmed ▸ read) later
    rw [split] at said
    exact said

/-- A document is built from the stretches of its text. -/
theorem runs_of_parse {s : String} {d : Document} (read : Document.parse s = .ok d) :
    ∃ draft, Nested.Runs Stretch.read (stretches s) {} draft ∧ draft.enclosing = [] ∧
      draft.root = some d.root ∧ ∀ a ∈ stretches s, a.IsSound := by
  obtain ⟨draft, length, run, complete, makes⟩ := Document.exists_draft read
  rw [events_eq] at complete run
  have said := say_eventsFrom complete
  exact ⟨draft, ⟨_, said.events.symm, run⟩, makes.outside, makes.root, said.sound⟩

end JavaMigration.Markup
