import JavaMigration.Markup.Document
import JavaMigration.Proofs.Markup.Normal

/-!
# Nested events

The events that an element is written as, and what they build when they are read: the same element
in its normal form, under the element that is open around it.
-/

namespace JavaMigration.Markup

open Text

namespace Element

def isVacant (e : Element) : Bool :=
  (solidText? e.text).isNone && e.children.isEmpty && e.trailing.isEmpty

mutual

def tagEvents : Element → List Event
  | ⟨name, attributes, text, children, leading, trailing⟩ =>
    if isVacant ⟨name, attributes, text, children, leading, trailing⟩ then [.empty name attributes]
    else
      .start name attributes :: ((solidText? text).toList.map .text ++ (eventsAll children ++
        (trailing.map .comment ++ [.stop name])))

def eventsAll : List Element → List Event
  | [] => []
  | e :: rest => e.leading.map .comment ++ (tagEvents e ++ eventsAll rest)

end

def events (e : Element) : List Event :=
  e.leading.map .comment ++ e.tagEvents

theorem eventsAll_eq (cs : List Element) : eventsAll cs = cs.flatMap events := by
  induction cs with
  | nil => rfl
  | cons c cs ih => simp [eventsAll, events, ih]

theorem tagEvents_eq (e : Element) : e.tagEvents =
    if e.isVacant then [.empty e.name e.attributes]
    else
      .start e.name e.attributes :: ((solidText? e.text).toList.map .text ++
        (e.children.flatMap events ++ (e.trailing.map .comment ++ [.stop e.name]))) := by
  rw [← eventsAll_eq]
  cases e
  rfl

end Element

namespace Draft

/-- The events take one draft to the other, wherever they were read. -/
def Takes (d : Draft) (events : List Event) (d' : Draft) : Prop :=
  ∀ located : List Located, located.map (·.event) = events → located.foldlM step d = .ok d'

namespace Takes

variable {d d₂ : Draft} {e : Event} {events events' : List Event}

theorem nil : d.Takes [] d := by
  intro located none
  obtain rfl := List.map_eq_nil_iff.1 none
  rfl

theorem cons (d₁ : Draft) (first : ∀ start stop, d.step ⟨e, start, stop⟩ = .ok d₁)
    (later : d₁.Takes events d₂) :
    d.Takes (e :: events) d₂ := by
  intro located read
  obtain ⟨⟨e, start, stop⟩, rest, rfl, rfl, tail⟩ := List.map_eq_cons_iff.1 read
  rw [List.foldlM_cons, first start stop]
  exact later rest tail

theorem append (d₁ : Draft) (first : d.Takes events d₁) (later : d₁.Takes events' d₂) :
    d.Takes (events ++ events') d₂ := by
  intro located read
  obtain ⟨front, rest, rfl, head, tail⟩ := List.map_eq_append_iff.1 read
  rw [List.foldlM_append, first front head]
  exact later rest tail

theorem comments {top : Element} {outer : List Element} (opened : d.enclosing = top :: outer)
    (texts : List String) :
    d.Takes (texts.map .comment) { d with pending := d.pending ++ texts } := by
  induction texts generalizing d with
  | nil => simpa using Takes.nil
  | cons s texts ih =>
    refine .cons { d with pending := d.pending ++ [s] } (fun _ _ => ?_) ?_
    · simp [step, addComment, opened]
    · simpa using ih (d := { d with pending := d.pending ++ [s] }) opened

end Takes

/-- The tags of `e` build its normal form and put it where an element is closed. -/
def IsBuilt (e : Element) : Prop :=
  ∀ {d d' : Draft},
    (∀ position,
      { d with pending := [] }.close position { e.normal with leading := d.pending } = .ok d') →
    d.Takes e.tagEvents d'

/-- Children are put one by one under the element that is open around them. -/
theorem takes_children {cs : List Element} (built : ∀ c ∈ cs, IsBuilt c) {d : Draft}
    (top : Element) {outer : List Element} (opened : d.enclosing = top :: outer)
    (none : d.pending = []) :
    d.Takes (cs.flatMap Element.events)
      { d with enclosing :=
        { top with children := top.children ++ cs.map Element.normal } :: outer } := by
  induction cs generalizing d top with
  | nil =>
    cases d
    cases top
    subst opened
    simpa using Takes.nil
  | cons c cs ih =>
    have one : d.Takes c.events { d with enclosing := top.push c.normal :: outer } := by
      refine (Takes.comments opened c.leading).append _ (built c (by simp) fun _ => ?_)
      have kept : { c.normal with leading := c.leading } = c.normal := by
        cases c
        rfl
      simp only [close, opened, none, List.nil_append, kept]
    have others := ih (fun x mem => built x (by simp [mem]))
      (d := { d with enclosing := top.push c.normal :: outer }) (top.push c.normal) rfl none
    simpa [Element.push] using one.append _ others

theorem isBuilt (e : Element) : IsBuilt e := by
  induction e using Element.inductionOnChildren with
  | step e ih =>
    intro d d' closed
    rw [Element.tagEvents_eq]
    by_cases vacant : e.isVacant = true
    · simp only [Element.isVacant, Bool.and_eq_true, Option.isNone_iff_eq_none,
        List.isEmpty_iff] at vacant
      obtain ⟨⟨noText, noChild⟩, noTrailing⟩ := vacant
      rw [if_pos (by simp [Element.isVacant, noText, noChild, noTrailing])]
      refine .cons d' (fun _ stop => ?_) .nil
      rw [← closed stop, Element.normal_eq, noText, noChild, noTrailing]
      rfl
    · rw [if_neg vacant]
      let opened : Element := { name := e.name, attributes := e.attributes, leading := d.pending }
      let filled : Element := { opened with text := solidText? e.text }
      refine .cons { d with enclosing := opened :: d.enclosing, pending := [] }
        (fun _ _ => rfl) ?_
      refine .append { d with enclosing := filled :: d.enclosing, pending := [] } ?_ ?_
      · cases text : solidText? e.text with
        | none => simpa [filled, text, opened] using Takes.nil
        | some s =>
          refine .cons _ (fun _ _ => ?_) .nil
          simp [step, addText, opened, filled, text, Element.withText]
      refine (takes_children ih filled rfl rfl).append _ ?_
      refine (Takes.comments rfl e.trailing).append _ (.cons d' (fun _ stop => ?_) .nil)
      rw [← closed stop, Element.normal_eq]
      simp [step, filled, opened]

end Draft

end JavaMigration.Markup
