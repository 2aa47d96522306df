import JavaMigration.Proofs.Markup.Grammar
import JavaMigration.Proofs.Markup.Nesting
import JavaMigration.Proofs.Markup.Order

/-!
# Accepted structure

The stack of open elements accepts the sequences of the grammar and no others. What it refuses lacks
a root, has a second one or stray text, or does not end an element.
-/

namespace JavaMigration.Markup

open Text

/-- Headers, instructions and document types say nothing about the tree. -/
def Event.isContent : Event → Bool
  | .declaration _ => false
  | .instruction => false
  | .doctype => false
  | _ => true

def Event.header (before : Option Declaration) : Event → Option Declaration
  | .declaration d => some d
  | _ => before

def contentOf (located : List Located) : List Located :=
  located.filter (·.event.isContent)

theorem contentOf_cons_of_pos {e : Located} (h : e.event.isContent = true)
    (located : List Located) : contentOf (e :: located) = e :: contentOf located :=
  List.filter_cons_of_pos h

theorem contentOf_cons_of_neg {e : Located} (h : e.event.isContent = false)
    (located : List Located) : contentOf (e :: located) = contentOf located :=
  List.filter_cons_of_neg (by simp [h])

theorem isContent_of_mem_contentOf {e : Event} {located : List Located}
    (mem : e ∈ (contentOf located).map (·.event)) : e.isContent = true := by
  obtain ⟨x, inside, rfl⟩ := List.mem_map.1 mem
  exact (List.mem_filter.1 inside).2

namespace Draft

variable {d d' : Draft}

theorem step_of_not_isContent {e : Located} (h : e.event.isContent = false) (d : Draft) :
    d.step e = .ok { d with declaration := e.event.header d.declaration } := by
  obtain ⟨event, start, stop⟩ := e
  cases event with
  | declaration header | instruction | doctype => rfl
  | _ => cases h

theorem step_with_declaration {e : Located} (h : e.event.isContent = true) (d : Draft)
    (header : Option Declaration) :
    step { d with declaration := header } e =
      (d.step e).map fun d' => { d' with declaration := header } := by
  obtain ⟨event, start, stop⟩ := e
  obtain ⟨declaration, prolog, root, epilog, enclosing, pending⟩ := d
  cases event with
  | declaration _ | instruction | doctype => cases h
  | start name attributes => rfl
  | empty name attributes =>
    cases enclosing with
    | nil => cases root <;> rfl
    | cons _ _ => rfl
  | stop name =>
    cases enclosing with
    | nil => rfl
    | cons opened outer =>
      by_cases same : name = opened.name
      · cases outer with
        | nil => cases root <;> simp [step, close, same, Except.map]
        | cons _ _ => simp [step, close, same, Except.map]
      · simp [step, same, Except.map]
  | text s | cdata s =>
    cases enclosing with
    | nil => by_cases blank : allBlank s = true <;> simp [step, addText, blank, Except.map]
    | cons _ _ => rfl
  | comment s =>
    cases enclosing with
    | nil => cases root <;> rfl
    | cons _ _ => rfl

theorem declaration_of_step {e : Located} (h : e.event.isContent = true)
    (run : d.step e = .ok d') : d'.declaration = d.declaration := by
  have same : d.step e = (d.step e).map fun d' => { d' with declaration := d.declaration } :=
    step_with_declaration h d d.declaration
  rw [run] at same
  have stored : d' = { d' with declaration := d.declaration } := Except.ok.inj same
  rw [stored]

theorem foldlM_with_declaration {located : List Located}
    (content : ∀ e ∈ located, e.event.isContent = true) (d : Draft)
    (header : Option Declaration) :
    located.foldlM step { d with declaration := header } =
      (located.foldlM step d).map fun d' => { d' with declaration := header } := by
  induction located generalizing d with
  | nil => rfl
  | cons e located ih =>
    rw [List.forall_mem_cons] at content
    rw [List.foldlM_cons, List.foldlM_cons, step_with_declaration content.1]
    cases d.step e with
    | error fault => rfl
    | ok d₁ => exact ih content.2 d₁

/-- The events that say nothing about the tree only change the header. -/
theorem foldlM_content (located : List Located) (d : Draft) :
    located.foldlM step d =
      ((contentOf located).foldlM step d).map fun d' =>
        { d' with declaration := (located.map (·.event)).foldl Event.header d.declaration } := by
  induction located generalizing d with
  | nil => rfl
  | cons e located ih =>
    cases content : e.event.isContent with
    | true =>
      have kept : e.event.header d.declaration = d.declaration := by
        cases event : e.event with
        | declaration _ | instruction | doctype => simp [event, Event.isContent] at content
        | _ => rfl
      rw [contentOf_cons_of_pos content, List.foldlM_cons, List.foldlM_cons, List.map_cons,
        List.foldl_cons, kept]
      cases first : d.step e with
      | error fault => rfl
      | ok d₁ =>
        rw [← declaration_of_step content first]
        exact ih d₁
    | false =>
      rw [contentOf_cons_of_neg content, List.foldlM_cons, List.map_cons,
        List.foldl_cons, step_of_not_isContent content]
      refine (ih _).trans ?_
      have tree : ∀ e ∈ contentOf located, e.event.isContent = true :=
        fun e mem => (List.mem_filter.1 mem).2
      rw [foldlM_with_declaration tree]
      cases (contentOf located).foldlM step d <;> rfl

structure IsInside (name : String) (outer : List Element) (root : Option Element) (d : Draft) :
    Prop where
  enclosing : ∃ opened, d.enclosing = opened :: outer ∧ opened.name = name
  root : d.root = root

theorem exists_takes_flattenAll {ns : List (Nested Event)} {name : String} {outer : List Element}
    {root : Option Element}
    (each : ∀ n ∈ ns, ∀ d : Draft, d.IsInside name outer root →
      ∃ d', d.Takes n.flatten d' ∧ d'.IsInside name outer root)
    (inside : d.IsInside name outer root) :
    ∃ d', d.Takes (Nested.flattenAll ns) d' ∧ d'.IsInside name outer root := by
  induction ns generalizing d with
  | nil => exact ⟨d, .nil, inside⟩
  | cons n ns ih =>
    rw [List.forall_mem_cons] at each
    obtain ⟨d₁, first, inside₁⟩ := each.1 d inside
    obtain ⟨d₂, rest, inside₂⟩ := ih each.2 inside₁
    exact ⟨d₂, first.append d₁ rest, inside₂⟩

/-- Between its tags an element is filled, and its end tag closes it among those around it. -/
theorem exists_takes_tags {content : List (Nested Event)} {name : String}
    (attributes : List (String × String))
    (each : ∀ n ∈ content, ∀ d₁ : Draft, d₁.IsInside name d.enclosing d.root →
      ∃ d₂, d₁.Takes n.flatten d₂ ∧ d₂.IsInside name d.enclosing d.root) :
    ∃ (filled : Draft) (e : Element), filled.enclosing = d.enclosing ∧ filled.root = d.root ∧
      ∀ d', (∀ position, filled.close position e = .ok d') →
        d.Takes (Nested.element (.start name attributes) content (.stop name)).flatten d' := by
  let begun : Draft :=
    { d with
      enclosing := { name, attributes, leading := d.pending } :: d.enclosing
      pending := [] }
  obtain ⟨d₁, taken, ⟨inner, enclosing, named⟩, rooted⟩ :=
    exists_takes_flattenAll each (d := begun) ⟨⟨_, rfl, rfl⟩, rfl⟩
  refine ⟨{ d₁ with enclosing := d.enclosing, pending := [] },
    { inner with trailing := d₁.pending }, rfl, rooted, fun d' closed => ?_⟩
  refine .cons begun (fun _ _ => rfl) (taken.append d₁ (.cons d' (fun _ stop => ?_) .nil))
  simpa [step, enclosing, named] using closed stop

/-- A piece within an element is taken in, whatever has been read of the element. -/
theorem exists_takes_flatten {n : Nested Event} (proper : n.IsProper some) {name : String}
    {outer : List Element} {root : Option Element} (inside : d.IsInside name outer root) :
    ∃ d', d.Takes n.flatten d' ∧ d'.IsInside name outer root := by
  induction proper generalizing d name outer root with
  | @leaf e start stop =>
    obtain ⟨⟨opened, enclosing, named⟩, rooted⟩ := inside
    cases e with
    | start name attributes => exact absurd rfl (start name attributes)
    | stop name => exact absurd rfl (stop name)
    | declaration header =>
      refine ⟨_, .cons { d with declaration := some header } (fun _ _ => rfl) .nil, ?_⟩
      exact ⟨⟨opened, enclosing, named⟩, rooted⟩
    | instruction | doctype =>
      exact ⟨d, .cons d (fun _ _ => rfl) .nil, ⟨opened, enclosing, named⟩, rooted⟩
    | text s | cdata s =>
      let next : Draft :=
        { d with enclosing := opened.withText (opened.text.getD "" ++ s) :: outer }
      refine ⟨next, .cons next (fun _ _ => ?_) .nil, ⟨_, rfl, named⟩, rooted⟩
      simp [step, addText, enclosing, next]
    | comment s =>
      let next : Draft := { d with pending := d.pending ++ [s] }
      refine ⟨next, .cons next (fun _ _ => ?_) .nil, ⟨opened, enclosing, named⟩, rooted⟩
      simp [step, addComment, enclosing, next]
    | empty name attributes =>
      let next : Draft :=
        { d with
          enclosing := opened.push { name, attributes, leading := d.pending } :: outer
          pending := [] }
      refine ⟨next, .cons next (fun _ _ => ?_) .nil, ⟨_, rfl, named⟩, rooted⟩
      simp [step, close, enclosing, next]
  | @element opening closing content tag attributes start proper stop ih =>
    obtain rfl := Option.some.inj start
    obtain rfl := Option.some.inj stop
    obtain ⟨filled, e, kept, rooted, closes⟩ :=
      exists_takes_tags (d := d) attributes fun n mem d₁ inside₁ => ih n mem inside₁
    obtain ⟨⟨opened, enclosing, named⟩, root_eq⟩ := inside
    let ended : Draft := { filled with enclosing := opened.push e :: outer }
    refine ⟨ended, closes ended fun _ => ?_, ⟨_, rfl, named⟩, rooted.trans root_eq⟩
    simp [close, kept, enclosing, ended]

theorem exists_takes_element {node : Nested Event} (proper : node.IsProper some)
    (element : node.isElement = true) (outside : d.enclosing = []) (rootless : d.root = none) :
    ∃ d' root, d.Takes node.flatten d' ∧ d'.enclosing = [] ∧ d'.root = some root := by
  cases proper with
  | @leaf e start stop =>
    cases e with
    | empty name attributes =>
      let next : Draft :=
        { d with root := some { name, attributes, leading := d.pending }, pending := [] }
      refine ⟨next, _, .cons next (fun _ _ => ?_) .nil, outside, rfl⟩
      simp [step, close, outside, rootless, next]
    | _ => cases element
  | @element opening closing content name attributes start proper stop =>
    obtain rfl := Option.some.inj start
    obtain rfl := Option.some.inj stop
    obtain ⟨filled, e, kept, rooted, closes⟩ :=
      exists_takes_tags (d := d) attributes fun n mem d₁ inside₁ =>
        exists_takes_flatten (proper n mem) inside₁
    let ended : Draft := { filled with root := some e }
    refine ⟨ended, e, closes ended fun _ => ?_, kept.trans outside, rfl⟩
    simp [close, kept, outside, rooted, rootless, ended]

theorem exists_takes_items {es : List Event} (items : ∀ e ∈ es, e.IsItem)
    (outside : d.enclosing = []) :
    ∃ d', d.Takes es d' ∧ d'.enclosing = [] ∧ d'.root = d.root := by
  induction es generalizing d with
  | nil => exact ⟨d, .nil, outside, rfl⟩
  | cons e es ih =>
    rw [List.forall_mem_cons] at items
    obtain ⟨item, items⟩ := items
    have first : ∃ d₁ : Draft, (∀ start stop, d.step ⟨e, start, stop⟩ = .ok d₁) ∧
        d₁.enclosing = [] ∧ d₁.root = d.root := by
      cases e with
      | comment s =>
        refine ⟨d.addComment s, fun _ _ => rfl, ?_⟩
        cases rooted : d.root <;> simp [addComment, outside, rooted]
      | text s | cdata s =>
        have blank : allBlank s = true := item
        exact ⟨d, fun _ _ => by simp [step, addText, outside, blank], outside, rfl⟩
      | _ => cases item
    obtain ⟨d₁, taken, outside₁, same⟩ := first
    obtain ⟨d', rest, outside', same'⟩ := ih items outside₁
    exact ⟨d', .cons d₁ taken rest, outside', same'.trans same⟩

end Draft

/-- Every end tag bears the name of the innermost element that is open before it. -/
def EndsMatch (opened : List String) : List Event → Prop
  | [] => True
  | .start name _ :: es => EndsMatch (name :: opened) es
  | .stop name :: es => ∃ outer, opened = name :: outer ∧ EndsMatch outer es
  | _ :: es => EndsMatch opened es

/-- The faults of events whose end tags match: a second root, stray text, an element without end. -/
def Malformed.IsStructural (fault : Malformed) : Prop :=
  fault.detail = "multiple root elements" ∨ fault.detail = "text outside the root element" ∨
    ∃ name : String, fault.detail = s!"unclosed element <{name}>"

namespace Draft

variable {d d' : Draft} {fault : Malformed}

theorem isStructural_of_close {position : Nat} {e : Element}
    (run : d.close position e = .error fault) : fault.IsStructural := by
  unfold close at run
  split at run
  · cases run
  · cases run
  · cases run
    exact .inl rfl

theorem isStructural_of_addText {position : Nat} {s : String}
    (run : d.addText position s = .error fault) : fault.IsStructural := by
  unfold addText at run
  split at run
  · cases run
  · split at run
    · cases run
    · cases run
      exact .inr (.inl rfl)

theorem enclosing_of_close {position : Nat} {e : Element} (run : d.close position e = .ok d') :
    d'.enclosing.map (·.name) = d.enclosing.map (·.name) := by
  cases places_of_close run with
  | child enclosing => simp [enclosing, Element.push]
  | root => rfl

theorem enclosing_of_addText {position : Nat} {s : String}
    (run : d.addText position s = .ok d') :
    d'.enclosing.map (·.name) = d.enclosing.map (·.name) := by
  cases adds_of_addText run with
  | inside enclosing => simp [enclosing, Element.withText]
  | outside => rfl

theorem enclosing_addComment (d : Draft) (s : String) :
    (d.addComment s).enclosing = d.enclosing := by
  unfold addComment
  split
  · rfl
  · rfl
  · rfl

/-- Where the end tags match, an event leaves it so or has a fault of the structure. -/
theorem step_of_endsMatch {e : Located} {es : List Event}
    (ends : EndsMatch (d.enclosing.map (·.name)) (e.event :: es)) :
    (∃ d', d.step e = .ok d' ∧ EndsMatch (d'.enclosing.map (·.name)) es) ∨
      ∃ fault, d.step e = .error fault ∧ fault.IsStructural := by
  obtain ⟨event, start, stop⟩ := e
  cases event with
  | declaration _ | instruction | doctype => exact .inl ⟨_, rfl, ends⟩
  | start name attributes => exact .inl ⟨_, rfl, ends⟩
  | comment s => exact .inl ⟨_, rfl, by rw [enclosing_addComment]; exact ends⟩
  | text s | cdata s =>
    cases run : d.addText stop s with
    | error fault => exact .inr ⟨fault, run, isStructural_of_addText run⟩
    | ok d' => exact .inl ⟨d', run, by rw [enclosing_of_addText run]; exact ends⟩
  | empty name attributes =>
    let closed : Element := { name, attributes, leading := d.pending }
    cases run : close stop closed { d with pending := [] } with
    | error fault => exact .inr ⟨fault, run, isStructural_of_close run⟩
    | ok d' => exact .inl ⟨d', run, by rw [enclosing_of_close run]; exact ends⟩
  | stop name =>
    obtain ⟨names, opened, ends⟩ := ends
    obtain ⟨top, outer, enclosing, named, rfl⟩ := List.map_eq_cons_iff.1 opened
    let closed : Element := { top with trailing := d.pending }
    have taken : d.step ⟨.stop name, start, stop⟩ =
        close stop closed { d with enclosing := outer, pending := [] } := by
      simp [step, enclosing, named, closed]
    cases run : close stop closed { d with enclosing := outer, pending := [] } with
    | error fault => exact .inr ⟨fault, taken.trans run, isStructural_of_close run⟩
    | ok d' => exact .inl ⟨d', taken.trans run, by rw [enclosing_of_close run]; exact ends⟩

theorem isStructural_of_foldlM {located : List Located}
    (ends : EndsMatch (d.enclosing.map (·.name)) (located.map (·.event)))
    (run : located.foldlM step d = .error fault) : fault.IsStructural := by
  induction located generalizing d with
  | nil => cases run
  | cons e located ih =>
    rw [List.foldlM_cons] at run
    rcases step_of_endsMatch ends with ⟨d', first, ends'⟩ | ⟨fault', first, structural⟩
    · rw [first] at run
      exact ih ends' run
    · rw [first] at run
      cases run
      exact structural

end Draft

/-- Events that build no root stand outside of one. -/
theorem Nested.isOutside_of_rootless {es : List Event} {d d' : Draft} (outside : d.enclosing = [])
    (runs : Runs some es d d') (finished : d'.enclosing = []) (rootless : d'.root = none) :
    ∀ e ∈ es, IsOutside e := by
  induction es generalizing d with
  | nil => simp
  | cons e es ih =>
    obtain ⟨d₁, next, later⟩ := runs.step rfl
    rcases isOutside_or outside next with ⟨harmless, outside₁, -, -⟩ | tag
    · exact List.forall_mem_cons.2 ⟨harmless, ih outside₁ later⟩
    · obtain ⟨_, _, _, d₂, -, -, -, -, closes, later⟩ :=
        exists_outermost outside runs finished rfl tag
      obtain ⟨-, placed, outside₂, -⟩ := closes.outermost
      have kept := (root_of_runs outside₂ placed later finished).1
      rw [rootless] at kept
      cases kept

namespace Document

variable {located : List Located} {length : Nat}

/-- Only the events that say something about the tree decide whether there is a document. -/
theorem ofReading_eq (located : List Located) (length : Nat) :
    ofReading ⟨located, .ok length⟩ =
      match (contentOf located).foldlM Draft.step {} with
      | .error fault => .error (.malformed fault)
      | .ok d =>
        let header := (located.map fun e => e.event).foldl Event.header none
        { d with declaration := header }.finish length := by
  unfold ofReading
  simp only [Draft.foldlM_content located]
  cases (contentOf located).foldlM Draft.step {} <;> rfl

theorem ofReading_eq_ok {d : Document} (read : ofReading ⟨located, .ok length⟩ = .ok d) :
    ∃ draft, Nested.Runs some ((contentOf located).map (·.event)) {} draft ∧ draft.enclosing = [] ∧
      draft.root = some d.root ∧
      d.declaration = (located.map (·.event)).foldl Event.header none := by
  rw [ofReading_eq] at read
  cases run : (contentOf located).foldlM Draft.step {} with
  | error fault =>
    simp only [run] at read
    cases read
  | ok draft =>
    simp only [run] at read
    have makes := Draft.makes_of_finish read
    exact ⟨draft, ⟨_, List.filterMap_some.symm, run⟩, makes.outside, makes.root, makes.declaration⟩

/-- A draft that takes in all content is made a document, unless it has no root. -/
theorem ofReading_of_takes {draft : Draft}
    (taken : Draft.Takes {} ((contentOf located).map (·.event)) draft)
    (outside : draft.enclosing = []) :
    ofReading ⟨located, .ok length⟩ =
      match draft.root with
      | none => .error .missingRoot
      | some root =>
        .ok ⟨(located.map (·.event)).foldl Event.header none, draft.prolog, root,
          draft.epilog⟩ := by
  rw [ofReading_eq, taken _ rfl]
  simp only [Draft.finish, outside]
  cases draft.root <;> rfl

theorem isItem_of_isOutside {e : Event} (content : e.isContent = true)
    (outside : Nested.IsOutside e) : e.IsItem := by
  cases e with
  | declaration _ | instruction | doctype => cases content
  | _ => exact outside

theorem isElement_of_fill {node : Nested Event} {root : Element}
    (filled : (Nested.fill some {} node).children = [root]) : node.isElement = true := by
  cases node with
  | element opening content closing => rfl
  | leaf e =>
    cases e with
    | empty name attributes => rfl
    | _ => cases filled

theorem elementTexts_items {es : List Event} (items : ∀ e ∈ es, e.IsItem) (rest : List Event) :
    elementTexts (es ++ rest) = elementTexts rest := by
  induction es with
  | nil => rfl
  | cons e es ih =>
    rw [List.forall_mem_cons] at items
    cases e with
    | start name attributes | empty name attributes => cases items.1
    | _ => exact ih items.2

theorem map_text_of_describes {ps : List (Event × List (Nested Event))} {es : List Element}
    (described : List.Forall₂ (Nested.Describes some) ps es) :
    es.map (·.text) = ps.map fun p => joined? (Nested.segments p.2) := by
  induction described with
  | nil => rfl
  | cons first _ ih =>
    rw [List.map_cons, List.map_cons, ih, first.2, Nested.text_fillAll_eq_joined]

/-- What is accepted is a document of the grammar, and its texts are those of the events. -/
theorem isDocument_of_ofReading {d : Document}
    (read : ofReading ⟨located, .ok length⟩ = .ok d) :
    IsDocument Event.IsItem ((contentOf located).map (·.event)) ∧
      (d.root :: d.root.descendants).map (·.text) =
        elementTexts ((contentOf located).map (·.event)) := by
  obtain ⟨draft, runs, outside, placed, -⟩ := ofReading_eq_ok read
  obtain ⟨before, node, after, whole, proper, filled, others⟩ :=
    Nested.exists_root (d := {}) rfl rfl rfl runs outside placed
  have items : ∀ e ∈ before ++ after, e.IsItem := by
    intro e mem
    apply isItem_of_isOutside _ (others e mem e rfl)
    have within : e ∈ (contentOf located).map (·.event) := by
      rw [whole]
      rcases List.mem_append.1 mem with mem | mem
      · simp [mem]
      · simp [mem]
    exact isContent_of_mem_contentOf within
  rw [List.forall_mem_append] at items
  constructor
  · exact ⟨before, node, after, whole, proper, isElement_of_fill filled,
      List.forall_mem_append.2 items⟩
  · have none : elementTexts after = [] := by
      rw [← List.append_nil after, elementTexts_items items.2]
      rfl
    rw [map_text_of_describes (Nested.describes_elements proper filled), whole,
      elementTexts_items items.1, Nested.elementTexts_flatten proper, none, List.append_nil]

theorem exists_ofReading {item : Event → Prop} (items : ∀ e, item e → e.IsItem)
    (grammar : IsDocument item ((contentOf located).map (·.event))) (length : Nat) :
    ∃ d, ofReading ⟨located, .ok length⟩ = .ok d := by
  obtain ⟨before, node, after, whole, proper, element, around⟩ := grammar
  rw [List.forall_mem_append] at around
  obtain ⟨d₁, first, outside₁, root₁⟩ :=
    Draft.exists_takes_items (d := {}) (fun e mem => items e (around.1 e mem)) rfl
  obtain ⟨d₂, root, second, outside₂, root₂⟩ :=
    Draft.exists_takes_element proper element outside₁ root₁
  obtain ⟨d₃, third, outside₃, root₃⟩ :=
    Draft.exists_takes_items (fun e mem => items e (around.2 e mem)) outside₂
  have taken : Draft.Takes {} ((contentOf located).map (·.event)) d₃ := by
    rw [whole]
    exact first.append d₁ (second.append d₂ third)
  rw [ofReading_of_takes taken outside₃, root₃, root₂]
  exact ⟨_, rfl⟩

theorem ofReading_eq_missingRoot_iff :
    ofReading ⟨located, .ok length⟩ = .error .missingRoot ↔
      ∀ e ∈ (contentOf located).map (·.event), e.IsItem := by
  constructor
  · intro read
    rw [ofReading_eq] at read
    cases run : (contentOf located).foldlM Draft.step {} with
    | error fault =>
      simp only [run] at read
      cases read
    | ok draft =>
      simp only [run, Draft.finish] at read
      split at read
      · cases read
      · rename_i outside rootless
        have runs : Nested.Runs some ((contentOf located).map (·.event)) {} draft :=
          ⟨_, List.filterMap_some.symm, run⟩
        intro e mem
        apply isItem_of_isOutside (isContent_of_mem_contentOf mem)
        exact Nested.isOutside_of_rootless rfl runs outside rootless e mem
      · cases read
  · intro items
    obtain ⟨draft, taken, outside, rootless⟩ := Draft.exists_takes_items (d := {}) items rfl
    rw [ofReading_of_takes taken outside, rootless]

theorem isStructural_of_ofReading {fault : Malformed}
    (ends : EndsMatch [] (located.map (·.event)))
    (read : ofReading ⟨located, .ok length⟩ = .error (.malformed fault)) :
    fault.IsStructural := by
  unfold ofReading at read
  cases run : located.foldlM Draft.step {} with
  | error fault' =>
    simp only [run] at read
    cases read
    exact Draft.isStructural_of_foldlM (d := {}) ends run
  | ok draft =>
    simp only [run, Draft.finish] at read
    split at read
    · cases read
      exact .inr (.inr ⟨_, rfl⟩)
    · cases read
    · cases read

theorem tokens_contentOf (located : List Located) :
    (located.map (·.event)).flatMap Event.tokens =
      ((contentOf located).map (·.event)).flatMap Event.tokens := by
  induction located with
  | nil => rfl
  | cons e located ih =>
    cases content : e.event.isContent with
    | true =>
      rw [contentOf_cons_of_pos content, List.map_cons, List.map_cons, List.flatMap_cons,
        List.flatMap_cons, ih]
    | false =>
      have silent : e.event.tokens = [] := by
        cases event : e.event with
        | declaration _ | instruction | doctype => rfl
        | _ => simp [event, Event.isContent] at content
      rw [contentOf_cons_of_neg content, List.map_cons, List.flatMap_cons, silent, ih,
        List.nil_append]

/--
A sequence of events makes a document exactly where it is one element with balanced tags among
items, lacks a root exactly where it has nothing but items, and is malformed otherwise. A document
has every tag and comment of its events in their order, and every segment of character data in the
element around it.
-/
theorem ofReading_wellNested (located : List Located) (length : Nat) :
    let events := (contentOf located).map (·.event)
    let result := ofReading ⟨located, .ok length⟩
    ((∃ d, result = .ok d) ↔ IsDocument Event.IsItem events) ∧
      (result = .error .missingRoot ↔ ∀ e ∈ events, e.IsItem) ∧
      (¬ IsDocument Event.IsItem events → (∃ e ∈ events, ¬ e.IsItem) →
        ∃ fault, result = .error (.malformed fault) ∧
          (EndsMatch [] (located.map (·.event)) → fault.IsStructural)) ∧
      ∀ d, result = .ok d →
        d.declaration = (located.map (·.event)).foldl Event.header none ∧
        d.tokens = events.flatMap Event.tokens ∧
        (d.root :: d.root.descendants).map (·.text) = elementTexts events := by
  intro events result
  have accepted : (∃ d, result = .ok d) ↔ IsDocument Event.IsItem events :=
    ⟨fun ⟨_, read⟩ => (isDocument_of_ofReading read).1,
      fun grammar => exists_ofReading (fun _ item => item) grammar length⟩
  have rootless : result = .error .missingRoot ↔ ∀ e ∈ events, e.IsItem :=
    ofReading_eq_missingRoot_iff
  refine ⟨accepted, rootless, ?_, ?_⟩
  · rintro noDocument ⟨e, mem, noItem⟩
    cases read : result with
    | ok d => exact absurd (accepted.1 ⟨d, read⟩) noDocument
    | error cause =>
      cases cause with
      | missingRoot => exact absurd (rootless.1 read e mem) noItem
      | malformed fault =>
        exact ⟨fault, rfl, fun ends => isStructural_of_ofReading ends read⟩
  · intro d read
    obtain ⟨-, -, -, -, header⟩ := ofReading_eq_ok read
    refine ⟨header, ?_, (isDocument_of_ofReading read).2⟩
    rw [tokens_of_ofReading read, tokens_contentOf]

/-- A blank section outside the root is accepted as well, though it is no text. -/
theorem blank_section_outside_root :
    let x := "<![CDATA[ ]]><a/>"
    (events x).events.map (·.event) = [.cdata " ", .empty "a" []] ∧
      parse x = .ok { root := { name := "a" } } ∧
      ¬ IsDocument (fun e => e.IsItem ∧ ∀ s, e ≠ .cdata s) [.cdata " ", .empty "a" []] := by
  refine ⟨by decide +kernel, by decide +kernel, ?_⟩
  rintro ⟨before, node, after, whole, proper, element, items⟩
  cases before with
  | cons e before =>
    obtain ⟨rfl, -⟩ := List.cons.inj whole
    exact (items _ (by simp)).2 " " rfl
  | nil =>
    cases proper with
    | @leaf e start stop =>
      obtain ⟨rfl, -⟩ := List.cons.inj whole
      cases element
    | @element opening closing content name attributes start proper stop =>
      obtain ⟨rfl, -⟩ := List.cons.inj whole
      cases start

end Document

end JavaMigration.Markup
