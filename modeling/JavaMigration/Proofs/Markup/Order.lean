import JavaMigration.Proofs.Markup.Draft

/-!
# The order of what is read

A document read off from its prolog to its epilog has the tags and comments of the events that it
was built from, each of them once and in the same order. One event adds its own ones to those of a
draft, among which the open elements and the comments that wait come last.
-/

namespace JavaMigration.Markup

/-- A tag or a comment. An empty tag counts as a start tag with its end tag. -/
inductive Token
  | opening (name : String) (attributes : List (String × String))
  | closing (name : String)
  | comment (s : String)
deriving DecidableEq

def Event.tokens : Event → List Token
  | .start name attributes => [.opening name attributes]
  | .empty name attributes => [.opening name attributes, .closing name]
  | .stop name => [.closing name]
  | .comment s => [.comment s]
  | _ => []

namespace Element

mutual

def tokens : Element → List Token
  | ⟨name, attributes, _, children, leading, trailing⟩ =>
    leading.map .comment ++ .opening name attributes :: (tokensAll children ++
      (trailing.map .comment ++ [.closing name]))

def tokensAll : List Element → List Token
  | [] => []
  | c :: cs => tokens c ++ tokensAll cs

end

def openTokens (e : Element) : List Token :=
  e.leading.map .comment ++ .opening e.name e.attributes :: e.children.flatMap tokens

theorem tokensAll_eq (cs : List Element) : tokensAll cs = cs.flatMap tokens := by
  induction cs with
  | nil => rfl
  | cons c cs ih => simp only [tokensAll, ih, List.flatMap_cons]

theorem tokens_eq (e : Element) :
    e.tokens = e.openTokens ++ (e.trailing.map .comment ++ [.closing e.name]) := by
  obtain ⟨name, attributes, text, children, leading, trailing⟩ := e
  simp [tokens, openTokens, tokensAll_eq]

@[simp]
theorem openTokens_push (e c : Element) : (e.push c).openTokens = e.openTokens ++ c.tokens := by
  simp [openTokens, push]

@[simp]
theorem openTokens_withText (text : String) (e : Element) :
    (e.withText text).openTokens = e.openTokens :=
  rfl

end Element

def Document.tokens (d : Document) : List Token :=
  d.prolog.map .comment ++ (d.root.tokens ++ d.epilog.map .comment)

namespace Draft

def tokens (d : Draft) : List Token :=
  d.prolog.map .comment ++ (d.root.toList.flatMap Element.tokens ++
    (d.epilog.map .comment ++ (d.enclosing.reverse.flatMap Element.openTokens ++
      d.pending.map .comment)))

/-- Nothing that belongs behind the root or between tags is there too early. -/
structure IsOrdered (d : Draft) : Prop where
  epilog : d.root = none → d.epilog = []
  pending : d.enclosing = [] → d.pending = []

variable {d d' : Draft}

theorem isOrdered_start : IsOrdered {} where
  epilog := fun _ => rfl
  pending := fun _ => rfl

theorem IsOrdered.places {e : Element} (ordered : d.IsOrdered) (taken : d.pending = [])
    (placed : d.Places e d') : d'.IsOrdered ∧ d'.tokens = d.tokens ++ e.tokens := by
  cases placed with
  | child enclosing =>
    constructor
    · exact ⟨ordered.epilog, nofun⟩
    · simp [tokens, enclosing, taken]
  | root outside rootless =>
    constructor
    · exact ⟨nofun, fun _ => taken⟩
    · simp [tokens, outside, rootless, taken, ordered.epilog rootless]

theorem IsOrdered.adds {s : String} (ordered : d.IsOrdered) (added : d.Adds s d') :
    d'.IsOrdered ∧ d'.tokens = d.tokens := by
  cases added with
  | inside enclosing =>
    constructor
    · exact ⟨ordered.epilog, nofun⟩
    · simp [tokens, enclosing]
  | outside => exact ⟨ordered, rfl⟩

theorem IsOrdered.addComment (ordered : d.IsOrdered) (s : String) :
    (d.addComment s).IsOrdered ∧ (d.addComment s).tokens = d.tokens ++ [.comment s] := by
  unfold Draft.addComment
  split
  · rename_i opened
    constructor
    · exact ⟨ordered.epilog, fun none => by simp [opened] at none⟩
    · simp [tokens]
  · rename_i outside rootless
    constructor
    · exact ⟨ordered.epilog, ordered.pending⟩
    · simp [tokens, rootless, outside, ordered.epilog rootless, ordered.pending outside]
  · rename_i outside placed
    constructor
    · exact ⟨fun none => by simp [placed] at none, ordered.pending⟩
    · simp [tokens, outside, ordered.pending outside]

theorem IsOrdered.becomes {e : Event} (ordered : d.IsOrdered) (next : d.Becomes e d') :
    d'.IsOrdered ∧ d'.tokens = d.tokens ++ e.tokens := by
  have cleared : IsOrdered { d with pending := [] } := ⟨ordered.epilog, fun _ => rfl⟩
  cases next with
  | declaration _ | instruction | doctype =>
    exact ⟨⟨ordered.epilog, ordered.pending⟩, by simp [tokens, Event.tokens]⟩
  | start name attributes =>
    constructor
    · exact ⟨ordered.epilog, fun _ => rfl⟩
    · simp [tokens, Event.tokens, Element.openTokens]
  | empty placed =>
    obtain ⟨ordered', same⟩ := cleared.places rfl placed
    refine ⟨ordered', same.trans ?_⟩
    simp [tokens, Event.tokens, Element.tokens, Element.tokensAll]
  | @stop opened outer _ enclosing placed =>
    have inner : IsOrdered { d with enclosing := outer, pending := [] } :=
      ⟨ordered.epilog, fun _ => rfl⟩
    obtain ⟨ordered', same⟩ := inner.places rfl placed
    refine ⟨ordered', same.trans ?_⟩
    simp [tokens, Event.tokens, Element.tokens_eq, Element.openTokens, enclosing]
  | text added | cdata added =>
    obtain ⟨ordered', same⟩ := ordered.adds added
    exact ⟨ordered', by simp [same, Event.tokens]⟩
  | comment s => exact ordered.addComment s

theorem IsOrdered.foldlM {located : List Located} (ordered : d.IsOrdered)
    (run : located.foldlM Draft.step d = .ok d') :
    d'.IsOrdered ∧
      d'.tokens = d.tokens ++ (located.map (·.event)).flatMap Event.tokens := by
  induction located generalizing d with
  | nil =>
    cases run
    exact ⟨ordered, by simp⟩
  | cons e located ih =>
    obtain ⟨d₁, first, later⟩ := exists_step run
    obtain ⟨ordered₁, added⟩ := ordered.becomes (becomes_of_step first)
    obtain ⟨ordered', rest⟩ := ih ordered₁ later
    exact ⟨ordered', by simp [rest, added]⟩

theorem Makes.tokens_eq {document : Document} (makes : d.Makes document) (ordered : d.IsOrdered) :
    document.tokens = d.tokens := by
  simp [Document.tokens, tokens, makes.root, makes.prolog, makes.epilog, makes.outside,
    ordered.pending makes.outside]

end Draft

/-- A document has the tokens of its events. -/
theorem Document.tokens_of_ofReading {located : List Located} {length : Nat} {d : Document}
    (read : ofReading ⟨located, .ok length⟩ = .ok d) :
    d.tokens = (located.map (·.event)).flatMap Event.tokens := by
  obtain ⟨draft, _, run, -, makes⟩ := exists_draft read
  obtain ⟨ordered, same⟩ := Draft.isOrdered_start.foldlM run
  rw [makes.tokens_eq ordered, same]
  rfl

end JavaMigration.Markup
