import JavaMigration.Markup.Document

/-!
# Drafts

What a draft becomes by one event, with one case for each kind of event and each place that it can
go to, and which drafts are documents in the end. What all events keep is proved from these cases.
-/

namespace JavaMigration.Markup

open Text

namespace Draft

variable {d d' : Draft}

inductive Places (d : Draft) (e : Element) : Draft → Prop
  | child {parent : Element} {outer : List Element} (enclosing : d.enclosing = parent :: outer) :
      Places d e { d with enclosing := parent.push e :: outer }
  | root (outside : d.enclosing = []) (rootless : d.root = none) :
      Places d e { d with root := some e }

/-- The data goes to the innermost open element, or is blank and goes nowhere. -/
inductive Adds (d : Draft) (s : String) : Draft → Prop
  | inside {opened : Element} {outer : List Element} (enclosing : d.enclosing = opened :: outer) :
      Adds d s { d with enclosing := opened.withText (opened.text.getD "" ++ s) :: outer }
  | outside (outside : d.enclosing = []) (blank : allBlank s = true) : Adds d s d

inductive Becomes (d : Draft) : Event → Draft → Prop
  | declaration (header : Declaration) :
      Becomes d (.declaration header) { d with declaration := some header }
  | start (name : String) (attributes : List (String × String)) :
      Becomes d (.start name attributes)
        { d with
          enclosing := { name, attributes, leading := d.pending } :: d.enclosing
          pending := [] }
  | empty {name : String} {attributes : List (String × String)} {d' : Draft}
      (placed : Places { d with pending := [] } { name, attributes, leading := d.pending } d') :
      Becomes d (.empty name attributes) d'
  /-- The end tag has the name of the innermost open element. -/
  | stop {opened : Element} {outer : List Element} {d' : Draft}
      (enclosing : d.enclosing = opened :: outer)
      (placed : Places { d with enclosing := outer, pending := [] }
        { opened with trailing := d.pending } d') :
      Becomes d (.stop opened.name) d'
  | text {s : String} {d' : Draft} (added : d.Adds s d') : Becomes d (.text s) d'
  | cdata {s : String} {d' : Draft} (added : d.Adds s d') : Becomes d (.cdata s) d'
  | comment (s : String) : Becomes d (.comment s) (d.addComment s)
  | instruction : Becomes d .instruction d
  | doctype : Becomes d .doctype d

theorem places_of_close {position : Nat} {e : Element} (run : d.close position e = .ok d') :
    d.Places e d' := by
  unfold close at run
  split at run
  · rename_i enclosing
    cases run
    exact .child enclosing
  · rename_i outside rootless
    cases run
    exact .root outside rootless
  · cases run

theorem adds_of_addText {position : Nat} {s : String} (run : d.addText position s = .ok d') :
    d.Adds s d' := by
  unfold addText at run
  split at run
  · rename_i enclosing
    cases run
    exact .inside enclosing
  · rename_i outside
    split at run
    · rename_i blank
      cases run
      exact .outside outside blank
    · cases run

theorem becomes_of_step {e : Located} (run : d.step e = .ok d') : d.Becomes e.event d' := by
  obtain ⟨event, start, stop⟩ := e
  cases event with
  | declaration header =>
    cases run
    exact .declaration header
  | start name attributes =>
    cases run
    exact .start name attributes
  | empty name attributes => exact .empty (places_of_close run)
  | stop name =>
    simp only [step] at run
    split at run
    · cases run
    · rename_i enclosing
      split at run
      · rename_i same
        subst same
        exact .stop enclosing (places_of_close run)
      · cases run
  | text s => exact .text (adds_of_addText run)
  | cdata s => exact .cdata (adds_of_addText run)
  | comment s =>
    cases run
    exact .comment s
  | instruction =>
    cases run
    exact .instruction
  | doctype =>
    cases run
    exact .doctype

theorem exists_step {e : Located} {located : List Located}
    (run : (e :: located).foldlM step d = .ok d') :
    ∃ d₁, d.step e = .ok d₁ ∧ located.foldlM step d₁ = .ok d' := by
  rw [List.foldlM_cons] at run
  cases first : d.step e with
  | error fault =>
    rw [first] at run
    cases run
  | ok d₁ =>
    rw [first] at run
    exact ⟨d₁, rfl, run⟩

/-- The draft is complete, and it is this document. -/
structure Makes (d : Draft) (document : Document) : Prop where
  outside : d.enclosing = []
  root : d.root = some document.root
  declaration : document.declaration = d.declaration
  prolog : document.prolog = d.prolog
  epilog : document.epilog = d.epilog

theorem makes_of_finish {length : Nat} {document : Document}
    (finished : d.finish length = .ok document) : d.Makes document := by
  unfold finish at finished
  split at finished
  · cases finished
  · cases finished
  · rename_i outside found
    cases finished
    exact ⟨outside, found, rfl, rfl, rfl⟩

end Draft

/-- A document is made of the draft that has taken in all events. -/
theorem Document.exists_draft {r : Reading} {d : Document} (read : ofReading r = .ok d) :
    ∃ draft length, r.events.foldlM Draft.step {} = .ok draft ∧ r.ending = .ok length ∧
      draft.Makes d := by
  unfold ofReading at read
  split at read
  · cases read
  rename_i draft run
  split at read
  · cases read
  rename_i length complete
  exact ⟨draft, length, run, complete, Draft.makes_of_finish read⟩

end JavaMigration.Markup
