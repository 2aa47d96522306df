import JavaMigration.Proofs.Markup.Draft
import JavaMigration.Proofs.Markup.Subtree
import Mathlib.Data.List.Forall2

/-!
# Nested pieces

A text is a sequence of pieces, each read as one event or as none. Where a document is built from
it, every start tag has its end tag, and what the pieces between the two say makes the content of
one element.
-/

namespace JavaMigration.Markup

open Text

/-- A piece on its own, or the pieces from the start tag of an element to its end tag. -/
inductive Nested (α : Type)
  | leaf (a : α)
  | element (opening : α) (content : List (Nested α)) (closing : α)

structure Contents where
  text : Option String := none
  children : List Element := []
  /-- The comments since the last child. -/
  pending : List String := []

namespace Contents

/-- The comments that wait for the next child go in front of `e`. -/
def child (e : Element) (c : Contents) : Contents where
  text := c.text
  children := c.children ++ [{ e with leading := c.pending }]

def event (c : Contents) : Event → Contents
  | .text s => { c with text := some (c.text.getD "" ++ s) }
  | .cdata s => { c with text := some (c.text.getD "" ++ s) }
  | .comment s => { c with pending := c.pending ++ [s] }
  | .empty name attributes => c.child { name, attributes }
  | _ => c

def opened (name : String) (attributes : List (String × String)) (leading : List String)
    (c : Contents) : Element :=
  { name, attributes, leading, text := c.text, children := c.children }

def closed (name : String) (attributes : List (String × String)) (leading : List String)
    (c : Contents) : Element :=
  { name, attributes, leading, text := c.text, children := c.children, trailing := c.pending }

end Contents

namespace Nested

variable {α : Type}

mutual

def flatten : Nested α → List α
  | leaf a => [a]
  | element opening content closing => opening :: (flattenAll content ++ [closing])

def flattenAll : List (Nested α) → List α
  | [] => []
  | n :: ns => flatten n ++ flattenAll ns

end

section Reading

variable (read : α → Option Event)

mutual

def fill (c : Contents) : Nested α → Contents
  | leaf a =>
    match read a with
    | some e => c.event e
    | none => c
  | element opening content _ =>
    match read opening with
    | some (.start name attributes) => c.child ((fillAll {} content).closed name attributes [])
    | _ => c

def fillAll (c : Contents) : List (Nested α) → Contents
  | [] => c
  | n :: ns => fillAll (fill c n) ns

end

mutual

def elements : Nested α → List (α × List (Nested α))
  | leaf a =>
    match read a with
    | some (.empty _ _) => [(a, [])]
    | _ => []
  | element opening content _ => (opening, content) :: elementsAll content

def elementsAll : List (Nested α) → List (α × List (Nested α))
  | [] => []
  | n :: ns => elements n ++ elementsAll ns

end

/-- Start and end tags stand around the content of elements, and nowhere else. -/
inductive IsProper : Nested α → Prop
  | leaf {a : α} (start : ∀ name attributes, read a ≠ some (.start name attributes))
      (stop : ∀ name, read a ≠ some (.stop name)) : IsProper (leaf a)
  | element {opening closing : α} {content : List (Nested α)} {name : String}
      {attributes : List (String × String)} (start : read opening = some (.start name attributes))
      (proper : ∀ n ∈ content, IsProper n) (stop : read closing = some (.stop name)) :
      IsProper (element opening content closing)

end Reading

theorem flattenAll_eq (ns : List (Nested α)) : flattenAll ns = ns.flatMap flatten := by
  induction ns with
  | nil => rfl
  | cons n ns ih => rw [flattenAll, ih, List.flatMap_cons]

theorem elementsAll_eq (read : α → Option Event) (ns : List (Nested α)) :
    elementsAll read ns = ns.flatMap (elements read) := by
  induction ns with
  | nil => rfl
  | cons n ns ih => rw [elementsAll, ih, List.flatMap_cons]

def leaf? : Nested α → Option α
  | leaf a => some a
  | element _ _ _ => none

def direct (content : List (Nested α)) : List α :=
  content.filterMap leaf?

variable {read : α → Option Event}

theorem mem_flattenAll_of_mem_direct {a : α} {content : List (Nested α)}
    (mem : a ∈ direct content) : a ∈ flattenAll content := by
  obtain ⟨n, inside, found⟩ := List.mem_filterMap.1 mem
  rw [flattenAll_eq, List.mem_flatMap]
  cases n with
  | leaf b =>
    cases found
    exact ⟨.leaf a, inside, by simp [flatten]⟩
  | element opening content closing => cases found

theorem mem_flatten_of_mem_direct {n : Nested α} (proper : IsProper read n)
    {p : α × List (Nested α)} (among : p ∈ elements read n) {a : α} (mem : a ∈ direct p.2) :
    a ∈ flatten n := by
  induction proper with
  | @leaf b start stop =>
    rw [elements] at among
    split at among
    · obtain rfl := List.mem_singleton.1 among
      cases mem
    · cases among
  | @element opening closing content name attributes start proper stop ih =>
    rw [elements, List.mem_cons] at among
    rw [flatten, List.mem_cons, List.mem_append]
    rcases among with rfl | among
    · exact .inr (.inl (mem_flattenAll_of_mem_direct mem))
    · rw [elementsAll_eq, List.mem_flatMap] at among
      obtain ⟨n, inside, among⟩ := among
      rw [flattenAll_eq, List.mem_flatMap]
      exact .inr (.inl ⟨n, inside, ih n inside among⟩)

/-- The pieces take one draft to the other. -/
def Runs (read : α → Option Event) (ts : List α) (d d' : Draft) : Prop :=
  ∃ located : List Located,
    located.map (·.event) = ts.filterMap read ∧ located.foldlM Draft.step d = .ok d'

variable {ts : List α} {a : α} {d d' : Draft} {e : Event}

theorem Runs.eq_of_nil (runs : Runs read [] d d') : d' = d := by
  obtain ⟨located, same, run⟩ := runs
  obtain rfl := List.map_eq_nil_iff.1 same
  exact (Except.ok.inj run).symm

theorem Runs.tail (runs : Runs read (a :: ts) d d') (unread : read a = none) :
    Runs read ts d d' := by
  obtain ⟨located, same, run⟩ := runs
  rw [List.filterMap_cons_none unread] at same
  exact ⟨located, same, run⟩

theorem Runs.step (runs : Runs read (a :: ts) d d') (event : read a = some e) :
    ∃ d₁, d.Becomes e d₁ ∧ Runs read ts d₁ d' := by
  obtain ⟨located, same, run⟩ := runs
  rw [List.filterMap_cons_some event] at same
  obtain ⟨first, later, rfl, rfl, tail⟩ := List.map_eq_cons_iff.1 same
  obtain ⟨d₁, next, run⟩ := Draft.exists_step run
  exact ⟨d₁, Draft.becomes_of_step next, later, tail, run⟩

variable {c : Contents} {name : String} {attributes : List (String × String)}
  {leading : List String} {outer : List Element}

structure IsWithin (name : String) (attributes : List (String × String)) (leading : List String)
    (outer : List Element) (c : Contents) (d : Draft) : Prop where
  enclosing : d.enclosing = c.opened name attributes leading :: outer
  pending : d.pending = c.pending

theorem IsWithin.of_places {e : Element} {d₁ : Draft}
    (enclosing : d.enclosing = c.opened name attributes leading :: outer) (pending : d.pending = [])
    (own : e.leading = c.pending) (placed : d.Places e d₁) :
    IsWithin name attributes leading outer (c.child e) d₁ ∧ d₁.root = d.root := by
  cases placed with
  | root outside =>
    rw [enclosing] at outside
    cases outside
  | child enclosing' =>
    rw [enclosing] at enclosing'
    obtain ⟨rfl, rfl⟩ := List.cons.inj enclosing'
    have kept : { e with leading := c.pending } = e := by
      rw [← own]
      cases e
      rfl
    refine ⟨⟨?_, pending⟩, rfl⟩
    simp only [Element.push, Contents.opened, Contents.child, kept]

theorem IsWithin.adds (within : IsWithin name attributes leading outer c d) {s : String} {d₁ : Draft}
    (added : d.Adds s d₁) :
    IsWithin name attributes leading outer { c with text := some (c.text.getD "" ++ s) } d₁ ∧
      d₁.root = d.root := by
  obtain ⟨enclosing, pending⟩ := within
  cases added with
  | outside outside =>
    rw [enclosing] at outside
    cases outside
  | inside enclosing' =>
    rw [enclosing] at enclosing'
    obtain ⟨rfl, rfl⟩ := List.cons.inj enclosing'
    exact ⟨⟨rfl, pending⟩, rfl⟩

theorem IsWithin.becomes (within : IsWithin name attributes leading outer c d) {d₁ : Draft}
    (noStart : ∀ name attributes, e ≠ .start name attributes) (noStop : ∀ name, e ≠ .stop name)
    (next : d.Becomes e d₁) :
    IsWithin name attributes leading outer (c.event e) d₁ ∧ d₁.root = d.root := by
  cases next with
  | start name attributes => exact absurd rfl (noStart name attributes)
  | stop => exact absurd rfl (noStop _)
  | declaration | instruction | doctype => exact ⟨⟨within.enclosing, within.pending⟩, rfl⟩
  | text added | cdata added => exact within.adds added
  | comment s =>
    rw [Draft.addComment, within.enclosing]
    exact ⟨⟨rfl, congrArg (· ++ [s]) within.pending⟩, rfl⟩
  | @empty name' attributes' _ placed =>
    let e : Element := { name := name', attributes := attributes', leading := d.pending }
    exact IsWithin.of_places (d := { d with pending := [] }) (e := e) within.enclosing rfl
      within.pending placed

/-- An element that is open under `outer` is closed as `e`, which leads to the draft `d`. -/
def Closes (outer : List Element) (root : Option Element) (e : Element) (d : Draft) : Prop :=
  ∃ d₀, Draft.Places d₀ e d ∧ d₀.enclosing = outer ∧ d₀.root = root ∧ d₀.pending = []

theorem IsWithin.closes {e : Element} {d₁ : Draft}
    (within : IsWithin name attributes leading outer c d) (own : e.leading = c.pending)
    (closes : Closes d.enclosing d.root e d₁) :
    IsWithin name attributes leading outer (c.child e) d₁ ∧ d₁.root = d.root := by
  obtain ⟨d₀, placed, enclosing, root, pending⟩ := closes
  rw [← root]
  exact IsWithin.of_places (enclosing.trans within.enclosing) pending own placed

/--
The pieces begin with content that comes after `c` within an element, and with its end tag. The rest
of them leads from the closed element to the draft `d`.
-/
def IsClosed (read : α → Option Event) (name : String) (attributes : List (String × String))
    (leading : List String) (outer : List Element) (root : Option Element) (c : Contents)
    (ts : List α) (d : Draft) : Prop :=
  ∃ content closing rest d₁, ts = flattenAll content ++ closing :: rest ∧
    (∀ n ∈ content, IsProper read n) ∧ read closing = some (.stop name) ∧
    Closes outer root ((fillAll read c content).closed name attributes leading) d₁ ∧
    Runs read rest d₁ d

theorem IsClosed.cons {root : Option Element} {n : Nested α} (proper : IsProper read n)
    (closed : IsClosed read name attributes leading outer root (fill read c n) ts d) :
    IsClosed read name attributes leading outer root c (flatten n ++ ts) d := by
  obtain ⟨content, closing, rest, d₁, rfl, proper', stop, closes, last⟩ := closed
  refine ⟨n :: content, closing, rest, d₁, ?_, by simpa using ⟨proper, proper'⟩, stop, ?_, last⟩
  · rw [flattenAll, List.append_assoc]
  · rwa [fillAll]

theorem IsWithin.isClosed_of_stop {name' : String} {d₁ : Draft}
    (within : IsWithin name attributes leading outer c d) (event : read a = some (.stop name'))
    (next : d.Becomes (.stop name') d₁) (later : Runs read ts d₁ d') :
    IsClosed read name attributes leading outer d.root c (a :: ts) d' := by
  cases next with
  | @stop opened _ _ enclosing placed =>
    rw [within.enclosing] at enclosing
    obtain ⟨rfl, rfl⟩ := List.cons.inj enclosing
    rw [within.pending] at placed
    exact ⟨[], a, ts, d₁, rfl, by simp, event, ⟨_, placed, rfl, rfl, rfl⟩, later⟩

/--
Where the pieces after a start tag lead to a draft with no open element, they begin with the content
of the element and its end tag.
-/
theorem isClosed_of_runs (within : IsWithin name attributes leading outer c d)
    (runs : Runs read ts d d') (finished : d'.enclosing = []) :
    IsClosed read name attributes leading outer d.root c ts d' := by
  induction measured : ts.length using Nat.strongRecOn
    generalizing ts d c name attributes leading outer with
  | ind size ih =>
    cases ts with
    | nil =>
      rw [runs.eq_of_nil, within.enclosing] at finished
      cases finished
    | cons a ts =>
      have shorter : ts.length < size := by
        rw [← measured, List.length_cons]
        exact Nat.lt_succ_self _
      cases event : read a with
      | none =>
        refine .cons (n := .leaf a) (.leaf (by simp [event]) (by simp [event])) ?_
        simp only [fill, event]
        exact ih _ shorter within (runs.tail event) rfl
      | some e =>
        obtain ⟨d₁, next, later⟩ := runs.step event
        cases e with
        | start name' attributes' =>
          cases next
          have opened : IsWithin name' attributes' d.pending d.enclosing {}
              { d with
                enclosing := { name := name', attributes := attributes', leading := d.pending } ::
                  d.enclosing
                pending := [] } := ⟨rfl, rfl⟩
          obtain ⟨inner, closing, rest, d₂, rfl, proper, closed, closes, later⟩ :=
            ih _ shorter opened later rfl
          obtain ⟨within', same⟩ := within.closes within.pending closes
          have lengths : rest.length < size := by
            simp only [List.length_append, List.length_cons] at shorter
            omega
          have filled : fill read c (.element a inner closing) =
              c.child ((fillAll read {} inner).closed name' attributes' d.pending) := by
            simp only [fill, event]
            rfl
          have outermost := ih _ lengths within' later rfl
          rw [same, ← filled] at outermost
          have whole := IsClosed.cons (.element event proper closed) outermost
          simpa [flatten] using whole
        | stop name' => exact within.isClosed_of_stop event next later
        | declaration _ | instruction | doctype | text _ | cdata _ | comment _ | empty _ _ =>
          obtain ⟨within', same⟩ := within.becomes (by simp) (by simp) next
          refine .cons (n := .leaf a) (.leaf (by simp [event]) (by simp [event])) ?_
          simp only [fill, event]
          rw [← same]
          exact ih _ shorter within' later rfl

def IsOutside : Event → Prop
  | .text s => allBlank s = true
  | .cdata s => allBlank s = true
  | .start _ _ => False
  | .empty _ _ => False
  | .stop _ => False
  | _ => True

/-- What stands outside the root leaves the root and the open elements as they are. -/
theorem isOutside_or {d₁ : Draft} (outside : d.enclosing = []) (next : d.Becomes e d₁) :
    (IsOutside e ∧ d₁.enclosing = [] ∧ d₁.root = d.root ∧ d₁.pending = d.pending) ∨
      (∃ name attributes, e = .start name attributes) ∨
      ∃ name attributes, e = .empty name attributes := by
  cases next with
  | start name attributes => exact .inr (.inl ⟨name, attributes, rfl⟩)
  | empty => exact .inr (.inr ⟨_, _, rfl⟩)
  | stop enclosing =>
    rw [outside] at enclosing
    cases enclosing
  | declaration | instruction | doctype => exact .inl ⟨trivial, outside, rfl, rfl⟩
  | text added | cdata added =>
    cases added with
    | inside enclosing =>
      rw [outside] at enclosing
      cases enclosing
    | outside _ blank => exact .inl ⟨blank, outside, rfl, rfl⟩
  | comment s =>
    rw [Draft.addComment, outside]
    cases d.root with
    | none | some root => exact .inl ⟨trivial, rfl, rfl, rfl⟩

theorem Closes.outermost {root : Option Element} {e : Element} (closes : Closes [] root e d) :
    root = none ∧ d.root = some e ∧ d.enclosing = [] ∧ d.pending = [] := by
  obtain ⟨d₀, placed, enclosing, rfl, pending⟩ := closes
  cases placed with
  | child enclosing' =>
    rw [enclosing] at enclosing'
    cases enclosing'
  | root _ rootless => exact ⟨rootless, rfl, enclosing, pending⟩

theorem exists_outermost (outside : d.enclosing = []) (runs : Runs read (a :: ts) d d')
    (finished : d'.enclosing = []) (event : read a = some e)
    (tag : (∃ name attributes, e = .start name attributes) ∨
      ∃ name attributes, e = .empty name attributes) :
    ∃ node rest top d₁, a :: ts = flatten node ++ rest ∧ IsProper read node ∧
      (fill read {} node).children = [{ top with leading := [] }] ∧ top.leading = d.pending ∧
      Closes [] d.root top d₁ ∧ Runs read rest d₁ d' := by
  obtain ⟨d₁, next, later⟩ := runs.step event
  rcases tag with ⟨name, attributes, rfl⟩ | ⟨name, attributes, rfl⟩
  · have opened : IsWithin name attributes d.pending [] {} d₁ ∧ d₁.root = d.root := by
      cases next
      exact ⟨⟨congrArg (_ :: ·) outside, rfl⟩, rfl⟩
    obtain ⟨content, closing, rest, d₂, rfl, proper, closed, closes, later⟩ :=
      isClosed_of_runs opened.1 later finished
    rw [opened.2] at closes
    refine ⟨.element a content closing, rest, _, d₂, by simp [flatten],
      .element event proper closed, ?_, rfl, closes, later⟩
    simp only [fill, event]
    rfl
  · cases next with
    | empty placed =>
      refine ⟨.leaf a, ts, { name, attributes, leading := d.pending }, d₁, rfl,
        .leaf (by simp [event]) (by simp [event]), ?_, rfl, ⟨_, placed, outside, rfl, rfl⟩, later⟩
      simp only [fill, event]
      rfl

/-- After the root no further element is closed. -/
theorem root_of_runs {root : Element} (outside : d.enclosing = []) (found : d.root = some root)
    (runs : Runs read ts d d') (finished : d'.enclosing = []) :
    d'.root = some root ∧ ∀ a ∈ ts, ∀ e, read a = some e → IsOutside e := by
  induction ts generalizing d with
  | nil =>
    rw [runs.eq_of_nil]
    exact ⟨found, by simp⟩
  | cons a ts ih =>
    cases event : read a with
    | none =>
      obtain ⟨same, others⟩ := ih outside found (runs.tail event)
      exact ⟨same, by simpa [event] using others⟩
    | some e =>
      obtain ⟨d₁, next, later⟩ := runs.step event
      rcases isOutside_or outside next with ⟨harmless, outside', same, -⟩ | tag
      · obtain ⟨same', others⟩ := ih outside' (same.trans found) later
        exact ⟨same', by simpa [event] using ⟨harmless, others⟩⟩
      · obtain ⟨_, _, _, _, -, -, -, -, closes, -⟩ :=
          exists_outermost outside runs finished event tag
        rw [found] at closes
        cases closes.outermost.1

def HasRoot (read : α → Option Event) (ts : List α) (root : Element) : Prop :=
  ∃ before node after, ts = before ++ (flatten node ++ after) ∧ IsProper read node ∧
    (fill read {} node).children = [root] ∧
    ∀ a ∈ before ++ after, ∀ e, read a = some e → IsOutside e

theorem HasRoot.cons {root : Element} (harmless : ∀ e, read a = some e → IsOutside e)
    (h : HasRoot read ts root) : HasRoot read (a :: ts) root := by
  obtain ⟨before, node, after, rfl, proper, filled, others⟩ := h
  refine ⟨a :: before, node, after, rfl, proper, filled, ?_⟩
  rw [List.cons_append, List.forall_mem_cons]
  exact ⟨harmless, others⟩

theorem exists_root {root : Element} (outside : d.enclosing = []) (pending : d.pending = [])
    (rootless : d.root = none) (runs : Runs read ts d d') (finished : d'.enclosing = [])
    (found : d'.root = some root) : HasRoot read ts root := by
  induction ts generalizing d with
  | nil =>
    rw [runs.eq_of_nil, rootless] at found
    cases found
  | cons a ts ih =>
    cases event : read a with
    | none => exact .cons (by simp [event]) (ih outside pending rootless (runs.tail event))
    | some e =>
      obtain ⟨d₁, next, later⟩ := runs.step event
      rcases isOutside_or outside next with ⟨harmless, outside', same, kept⟩ | tag
      · exact .cons (by simpa [event] using harmless)
          (ih outside' (kept.trans pending) (same.trans rootless) later)
      · obtain ⟨node, rest, top, d₂, whole, proper, filled, leading, closes, later⟩ :=
          exists_outermost outside runs finished event tag
        obtain ⟨-, placed, outside', -⟩ := closes.outermost
        obtain ⟨same, others⟩ := root_of_runs outside' placed later finished
        obtain rfl : top = root := Option.some.inj (same.symm.trans found)
        have kept : { top with leading := [] } = top := by
          rw [← pending, ← leading]
          cases top
          rfl
        rw [kept] at filled
        exact ⟨[], node, rest, whole, proper, filled, others⟩

def IsTagOf (read : α → Option Event) (a : α) (e : Element) : Prop :=
  read a = some (.start e.name e.attributes) ∨ read a = some (.empty e.name e.attributes)

/-- The element has the name, the attributes and the text that it is given in the pieces. -/
def Describes (read : α → Option Event) (p : α × List (Nested α)) (e : Element) : Prop :=
  IsTagOf read p.1 e ∧ e.text = (fillAll read {} p.2).text

def Gains (read : α → Option Event) (p : List (α × List (Nested α))) (c c' : Contents) : Prop :=
  ∃ gained, c'.children = c.children ++ gained ∧
    List.Forall₂ (Describes read) p (gained.flatMap fun e => e :: e.descendants)

namespace Gains

variable {c' c'' : Contents} {p p' : List (α × List (Nested α))}

theorem none (same : c'.children = c.children) : Gains read [] c c' :=
  ⟨[], by simpa using same, .nil⟩

theorem append (first : Gains read p c c') (later : Gains read p' c' c'') :
    Gains read (p ++ p') c c'' := by
  obtain ⟨gained, children, described⟩ := first
  obtain ⟨gained', children', described'⟩ := later
  refine ⟨gained ++ gained', by rw [children', children, List.append_assoc], ?_⟩
  rw [List.flatMap_append]
  exact List.rel_append described described'

theorem fillAll {ns : List (Nested α)}
    (each : ∀ n ∈ ns, ∀ c, Gains read (elements read n) c (fill read c n)) (c : Contents) :
    Gains read (elementsAll read ns) c (Nested.fillAll read c ns) := by
  induction ns generalizing c with
  | nil => exact none rfl
  | cons n ns ih =>
    exact (each n (by simp) c).append (ih (fun n mem => each n (by simp [mem])) (fill read c n))

end Gains

theorem gains_fill {n : Nested α} (proper : IsProper read n) (c : Contents) :
    Gains read (elements read n) c (fill read c n) := by
  induction proper generalizing c with
  | @leaf a start stop =>
    cases event : read a with
    | none =>
      simp only [elements, fill, event]
      exact Gains.none rfl
    | some e =>
      cases e with
      | start name attributes => exact absurd event (start name attributes)
      | stop name => exact absurd event (stop name)
      | empty name attributes =>
        simp only [elements, fill, event]
        exact ⟨[{ name, attributes, leading := c.pending }], rfl,
          .cons ⟨.inr event, rfl⟩ .nil⟩
      | declaration _ | instruction | doctype | text _ | cdata _ | comment _ =>
        simp only [elements, fill, event]
        exact Gains.none rfl
  | @element opening closing content name attributes start proper stop ih =>
    obtain ⟨gained, children, described⟩ := Gains.fillAll ih {}
    simp only [elements, fill, start]
    refine ⟨[{ (fillAll read {} content).closed name attributes [] with leading := c.pending }],
      rfl, ?_⟩
    rw [List.flatMap_singleton, Element.descendants_eq]
    refine .cons ⟨.inl start, rfl⟩ ?_
    have same : (fillAll read {} content).children = gained := children.trans (List.nil_append _)
    rw [← same] at described
    exact described

/-- The elements of a document are those of the pieces that it is built from, in the same order. -/
theorem describes_elements {node : Nested α} {root : Element} (proper : IsProper read node)
    (filled : (fill read {} node).children = [root]) :
    List.Forall₂ (Describes read) (elements read node) (root :: root.descendants) := by
  obtain ⟨gained, children, described⟩ := gains_fill proper {}
  obtain rfl : gained = [root] := by simpa [filled] using children.symm
  simpa using described

end Nested

end JavaMigration.Markup
