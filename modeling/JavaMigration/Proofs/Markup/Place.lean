import Mathlib.Data.List.Lex
import JavaMigration.Proofs.Markup.Search

/-!
# Places in a tree

An element is at a place below another one: the positions of the children on the way to it. The
order of places is document order. A search finds the element whose way to it starts first, which
need not be the first one itself: the first element that a way starts at may enclose another one.
-/

namespace JavaMigration.Markup.Element

def descend? : List Nat → Element → Option Element
  | [], e => some e
  | i :: place, e => e.children[i]?.bind (descend? place)

/-- Steps to children with the local names of a path lead from an element to another one. -/
inductive Leads : List String → Element → List Nat → Element → Prop
  | here {e} : Leads [] e [] e
  | child {step path e c d i place} : e.children[i]? = some c → c.isNamed step = true →
      Leads path c place d → Leads (step :: path) e (i :: place) d

/--
The XPath `.//step/path` selects `d`, which is at the place `start ++ rest`: its first step is the
element at `start`, somewhere below `e`, and the others lead on from there.
-/
structure Selects (step : String) (path : List String) (e : Element) (start rest : List Nat)
    (d : Element) : Prop where
  below : start ≠ []
  leads : ∃ c, e.descend? start = some c ∧ c.isNamed step = true ∧ Leads path c rest d

variable {step : String} {path : List String} {e c d d' : Element} {place start rest : List Nat}
  {i : Nat}

theorem leads_cons : Leads (step :: path) e place d ↔
    ∃ i c rest, place = i :: rest ∧ e.children[i]? = some c ∧ c.isNamed step = true ∧
      Leads path c rest d := by
  constructor
  · rintro (_ | ⟨there, named, leads⟩)
    exact ⟨_, _, _, rfl, there, named, leads⟩
  · rintro ⟨i, c, rest, rfl, there, named, leads⟩
    exact .child there named leads

theorem Leads.descend? (h : Leads path e place d) : e.descend? place = some d := by
  induction h with
  | here => rfl
  | child there _ _ ih => simp only [Element.descend?, there, Option.bind_some, ih]

theorem descend?_append (place place' : List Nat) (e : Element) :
    e.descend? (place ++ place') = (e.descend? place).bind (·.descend? place') := by
  induction place generalizing e with
  | nil => rfl
  | cons i place ih =>
    simp only [List.cons_append, descend?, Option.bind_assoc]
    apply congrArg (e.children[i]?.bind ·)
    exact funext ih

theorem Selects.descend? (h : Selects step path e start rest d) :
    e.descend? (start ++ rest) = some d := by
  obtain ⟨c, there, -, leads⟩ := h.leads
  rw [descend?_append, there]
  exact leads.descend?

theorem selects_cons : Selects step path e (i :: start) rest d ↔
    ∃ c, e.children[i]? = some c ∧
      ((start = [] ∧ c.isNamed step = true ∧ Leads path c rest d) ∨
        Selects step path c start rest d) := by
  constructor
  · rintro ⟨-, d', there, named, leads⟩
    obtain ⟨c, child, there⟩ := Option.bind_eq_some_iff.1 there
    refine ⟨c, child, ?_⟩
    cases start with
    | nil =>
      obtain rfl : c = d' := Option.some.inj there
      exact .inl ⟨rfl, named, leads⟩
    | cons j start => exact .inr ⟨List.cons_ne_nil j start, d', there, named, leads⟩
  · rintro ⟨c, child, ⟨rfl, named, leads⟩ | ⟨-, d', there, named, leads⟩⟩
    · exact ⟨by simp, c, by simp [Element.descend?, child], named, leads⟩
    · exact ⟨by simp, d', by simp [Element.descend?, child, there], named, leads⟩

theorem findPath?_cons (step : String) (path : List String) (e : Element) :
    findPath? (step :: path) e = e.children.findSome? (hit? step path) := by
  rw [findPath?, childrenNamed]
  induction e.children with
  | nil => rfl
  | cons c cs ih =>
    cases named : c.isNamed step with
    | false =>
      have missed : hit? step path c = none := by simp [hit?, named]
      rw [List.filter_cons_of_neg (by simp [named]), List.findSome?_cons, missed, ih]
    | true =>
      have tried : hit? step path c = findPath? path c := if_pos named
      rw [List.filter_cons_of_pos named, List.findSome?_cons, List.findSome?_cons, tried, ih]

theorem findAmong?_children (step : String) (path : List String) (cs : List Element) :
    findAmong? step path cs =
      cs.findSome? fun c => (hit? step path c).or (findBelow? step path c) := by
  induction cs with
  | nil => rfl
  | cons c cs ih =>
    rw [findAmong?, ih, List.findSome?_cons, ← hit?]
    cases hit? step path c with
    | some d => rfl
    | none => cases findBelow? step path c <;> rfl

theorem findBelow?_children (step : String) (path : List String) (e : Element) :
    findBelow? step path e =
      e.children.findSome? fun c => (hit? step path c).or (findBelow? step path c) := by
  cases e
  exact findAmong?_children step path _

theorem findPath?_eq_none : findPath? path e = none ↔ ∀ place d, ¬ Leads path e place d := by
  induction path generalizing e with
  | nil =>
    constructor
    · intro absent
      cases absent
    · intro absent
      exact absurd .here (absent [] e)
  | cons step path ih =>
    rw [findPath?_cons, List.findSome?_eq_none_iff]
    constructor
    · rintro absent place d leads
      obtain ⟨i, c, rest, rfl, there, named, leads⟩ := leads_cons.1 leads
      have nowhere := absent c (List.mem_of_getElem? there)
      rw [hit?, if_pos named] at nowhere
      exact ih.1 nowhere rest d leads
    · intro absent c mem
      obtain ⟨i, there⟩ := List.mem_iff_getElem?.1 mem
      rw [hit?, ite_eq_right_iff]
      intro named
      exact ih.2 fun rest d leads => absent (i :: rest) d (.child there named leads)

theorem hit?_eq_none :
    hit? step path e = none ↔ (e.isNamed step = true → ∀ place d, ¬ Leads path e place d) := by
  rw [hit?, ite_eq_right_iff, findPath?_eq_none]

theorem hit?_eq_some (h : hit? step path e = some d) :
    e.isNamed step = true ∧ findPath? path e = some d := by
  unfold hit? at h
  split at h
  · rename_i named
    exact ⟨named, h⟩
  · cases h

theorem findBelow?_eq_none :
    findBelow? step path e = none ↔ ∀ start rest d, ¬ Selects step path e start rest d := by
  induction e using inductionOnChildren with
  | step e ih =>
    rw [findBelow?_children, List.findSome?_eq_none_iff]
    constructor
    · intro absent start rest d selects
      cases start with
      | nil => exact selects.below rfl
      | cons i start =>
        obtain ⟨c, there, found⟩ := selects_cons.1 selects
        have mem := List.mem_of_getElem? there
        obtain ⟨noHit, nothing⟩ := Option.or_eq_none_iff.1 (absent c mem)
        rcases found with ⟨-, named, leads⟩ | selects
        · exact hit?_eq_none.1 noHit named rest d leads
        · exact (ih c mem).1 nothing start rest d selects
    · intro absent c mem
      obtain ⟨i, there⟩ := List.mem_iff_getElem?.1 mem
      apply Option.or_eq_none_iff.2
      constructor
      · apply hit?_eq_none.2
        intro named rest d leads
        exact absent [i] rest d (selects_cons.2 ⟨c, there, .inl ⟨rfl, named, leads⟩⟩)
      · apply (ih c mem).2
        intro start rest d selects
        exact absent (i :: start) rest d (selects_cons.2 ⟨c, there, .inr selects⟩)

theorem exists_first_of_findSome? {cs : List Element} {g : Element → Option Element}
    (found : cs.findSome? g = some d) :
    ∃ (i : Nat) (c : Element), cs[i]? = some c ∧ g c = some d ∧
      ∀ j < i, ∀ c', cs[j]? = some c' → g c' = none := by
  obtain ⟨before, c, after, rfl, here, others⟩ := List.findSome?_eq_some_iff.1 found
  refine ⟨before.length, c, by simp, here, ?_⟩
  intro j earlier c' there
  rw [List.getElem?_append_left earlier] at there
  exact others c' (List.mem_of_getElem? there)

theorem nil_le (place : List Nat) : [] ≤ place :=
  not_lt.1 (List.not_lt_nil place)

/-- Steps from one element lead first to what comes first. -/
theorem findPath?_first (found : findPath? path e = some d) :
    ∃ place, Leads path e place d ∧ ∀ place' d', Leads path e place' d' → place ≤ place' := by
  induction path generalizing e with
  | nil =>
    obtain rfl : e = d := Option.some.inj found
    exact ⟨[], .here, fun place' _ _ => nil_le place'⟩
  | cons step path ih =>
    rw [findPath?_cons] at found
    obtain ⟨i, c, there, hit, others⟩ := exists_first_of_findSome? found
    obtain ⟨named, found⟩ := hit?_eq_some hit
    obtain ⟨rest, leads, first⟩ := ih found
    refine ⟨i :: rest, .child there named leads, ?_⟩
    intro place' d' leads'
    obtain ⟨j, c', rest', rfl, there', named', leads'⟩ := leads_cons.1 leads'
    rcases Nat.lt_trichotomy i j with earlier | rfl | later
    · exact (List.cons_lt_cons_iff.2 (.inl earlier)).le
    · obtain rfl : c = c' := Option.some.inj (there.symm.trans there')
      refine not_lt.1 fun less => ?_
      rcases List.cons_lt_cons_iff.1 less with before | ⟨-, before⟩
      · exact Nat.lt_irrefl i before
      · exact absurd before (not_lt.2 (first rest' d' leads'))
    · have nowhere := hit?_eq_none.1 (others j later c' there') named'
      exact absurd leads' (nowhere rest' d')

/-- Where nothing is selected in front of a child, the first way within it is the first of all. -/
theorem first_of_child (there : e.children[i]? = some c)
    (others : ∀ j < i, ∀ c', e.children[j]? = some c' →
      (hit? step path c').or (findBelow? step path c') = none)
    (first : ∀ start' rest' d',
      (start' = [] ∧ c.isNamed step = true ∧ Leads path c rest' d') ∨
          Selects step path c start' rest' d' →
        start < start' ∨ (start = start' ∧ rest ≤ rest')) :
    ∀ start' rest' d', Selects step path e start' rest' d' →
      i :: start < start' ∨ (i :: start = start' ∧ rest ≤ rest') := by
  intro start' rest' d' selects
  cases start' with
  | nil => exact absurd rfl selects.below
  | cons j start' =>
    obtain ⟨c', there', found'⟩ := selects_cons.1 selects
    rcases Nat.lt_trichotomy i j with earlier | rfl | later
    · exact .inl (List.cons_lt_cons_iff.2 (.inl earlier))
    · obtain rfl : c = c' := Option.some.inj (there.symm.trans there')
      rcases first start' rest' d' found' with before | ⟨rfl, before⟩
      · exact .inl (List.cons_lt_cons_iff.2 (.inr ⟨rfl, before⟩))
      · exact .inr ⟨rfl, before⟩
    · obtain ⟨noHit, nothing⟩ := Option.or_eq_none_iff.1 (others j later c' there')
      rcases found' with ⟨-, named, leads⟩ | selects
      · exact absurd leads (hit?_eq_none.1 noHit named rest' d')
      · exact absurd selects (findBelow?_eq_none.1 nothing start' rest' d')

/-- A search stops at the element whose way starts first, and that leads to it first from there. -/
theorem findBelow?_first (found : findBelow? step path e = some d) :
    ∃ start rest, Selects step path e start rest d ∧
      ∀ start' rest' d', Selects step path e start' rest' d' →
        start < start' ∨ (start = start' ∧ rest ≤ rest') := by
  induction e using inductionOnChildren with
  | step e ih =>
    rw [findBelow?_children] at found
    obtain ⟨i, c, there, found, others⟩ := exists_first_of_findSome? found
    cases hit : hit? step path c with
    | some d₀ =>
      rw [hit] at found
      obtain rfl : d₀ = d := Option.some.inj found
      obtain ⟨named, found⟩ := hit?_eq_some hit
      obtain ⟨rest, leads, first⟩ := findPath?_first found
      refine ⟨[i], rest, selects_cons.2 ⟨c, there, .inl ⟨rfl, named, leads⟩⟩, ?_⟩
      apply first_of_child there others
      rintro start' rest' d' (⟨rfl, -, leads'⟩ | selects)
      · exact .inr ⟨rfl, first rest' d' leads'⟩
      · obtain ⟨j, start', rfl⟩ := List.exists_cons_of_ne_nil selects.below
        exact .inl (List.nil_lt_cons j start')
    | none =>
      rw [hit, Option.none_or] at found
      obtain ⟨start, rest, selects, first⟩ := ih c (List.mem_of_getElem? there) found
      refine ⟨i :: start, rest, selects_cons.2 ⟨c, there, .inr selects⟩, ?_⟩
      apply first_of_child there others
      rintro start' rest' d' (⟨-, named, leads⟩ | selects')
      · exact absurd leads (hit?_eq_none.1 hit named rest' d')
      · exact first start' rest' d' selects'

theorem append_lt_append {a b : List Nat} (less : a < b) (apart : ¬ a <+: b) (x y : List Nat) :
    a ++ x < b ++ y := by
  induction a generalizing b with
  | nil => exact absurd (List.nil_prefix) apart
  | cons i a ih =>
    cases b with
    | nil => cases less
    | cons j b =>
      rcases List.cons_lt_cons_iff.1 less with earlier | ⟨rfl, later⟩
      · exact List.cons_lt_cons_iff.2 (.inl earlier)
      · have apart' : ¬ a <+: b := fun h => apart (List.cons_prefix_cons.2 ⟨rfl, h⟩)
        exact List.cons_lt_cons_iff.2 (.inr ⟨rfl, ih later apart'⟩)

theorem le_nil : place ≤ [] ↔ place = [] := by
  constructor
  · intro before
    cases place with
    | nil => rfl
    | cons i place => exact absurd (List.nil_lt_cons i place) (not_lt.2 before)
  · rintro rfl
    exact le_rfl

theorem cons_le_zero_cons : i :: place ≤ 0 :: rest ↔ i = 0 ∧ place ≤ rest := by
  rw [← not_lt, ← not_lt, List.cons_lt_cons_iff]
  cases i <;> simp

/--
A search finds an element exactly where the XPath selects one, and the one with the first way to it:
where ways start at the same element, the first one in document order. It is the first one of all if
none that stands in front of it is selected by a way that starts below the start of its own.
-/
theorem findDescendant?_first_way (step : String) (path : List String) (e : Element) :
    match e.findDescendant? (step :: path) with
    | none => ∀ start rest d, ¬ Selects step path e start rest d
    | some d =>
      ∃ start rest, Selects step path e start rest d ∧
        (∀ start' rest' d', Selects step path e start' rest' d' →
          start < start' ∨ (start = start' ∧ rest ≤ rest')) ∧
        ((∀ start' rest' d', Selects step path e start' rest' d' →
            start ++ rest ≤ start' ++ rest') ↔
          ∀ start' rest' d', Selects step path e start' rest' d' → start <+: start' →
            start ++ rest ≤ start' ++ rest') := by
  rw [findDescendant?]
  split
  · rename_i missing
    exact findBelow?_eq_none.1 missing
  · rename_i d found
    obtain ⟨start, rest, selects, first⟩ := findBelow?_first found
    refine ⟨start, rest, selects, first, ?_⟩
    constructor
    · exact fun least start' rest' d' selects' _ => least start' rest' d' selects'
    · intro within start' rest' d' selects'
      by_cases inside : start <+: start'
      · exact within start' rest' d' selects' inside
      · rcases first start' rest' d' selects' with before | ⟨rfl, -⟩
        · exact (append_lt_append before inside rest rest').le
        · exact absurd (List.prefix_refl start) inside

/-- A property within another one's descendants comes first, and the outer one is found. -/
theorem findDescendant?_not_first :
    let inner : Element := { name := "q", text := some "1" }
    let outer : Element := { name := "q", text := some "2" }
    let e : Element :=
      { name := "r",
        children :=
          [{ name := "p",
             children := [{ name := "x", children := [{ name := "p", children := [inner] }] },
               outer] }] }
    e.findDescendant? ["p", "q"] = some outer ∧ Selects "p" ["q"] e [0, 0, 0] [0] inner ∧
      ¬ ∃ start rest, Selects "p" ["q"] e start rest outer ∧
        ∀ start' rest' d', Selects "p" ["q"] e start' rest' d' →
          start ++ rest ≤ start' ++ rest' := by
  intro inner outer e
  have selected : Selects "p" ["q"] e [0, 0, 0] [0] inner :=
    ⟨by decide, _, rfl, by decide, .child rfl (by decide) .here⟩
  refine ⟨by decide, selected, ?_⟩
  rintro ⟨start, rest, selects, least⟩
  have there := selects.descend?
  have before := least _ _ _ selected
  generalize start ++ rest = place at there before
  -- No position is in front of the first one, so only the elements above `inner` are.
  have above : place ∈ [[], [0], [0, 0], [0, 0, 0], [0, 0, 0, 0]] := by
    rcases place with _ | ⟨i, _ | ⟨j, _ | ⟨k, _ | ⟨l, place⟩⟩⟩⟩
    · exact List.mem_cons_self
    all_goals simpa [cons_le_zero_cons, nil_le, le_nil] using before
  have others : ∀ place ∈ [[], [0], [0, 0], [0, 0, 0], [0, 0, 0, 0]],
      e.descend? place ≠ some outer := by decide
  exact others place above there

end JavaMigration.Markup.Element
