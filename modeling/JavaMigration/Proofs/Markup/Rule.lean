import JavaMigration.Proofs.Markup.Draft
import JavaMigration.Proofs.Markup.Subtree

/-!
# Rules for marks

What holds of the header, of every tag and of every comment that is read holds of those of the
document: reading a document puts marks into their places and changes none of them.
-/

namespace JavaMigration.Markup

/-- What is asked of the header of a document, of its tags and of its comments. -/
structure Rule where
  header : Declaration → Prop
  tag : String → List (String × String) → Prop
  comment : String → Prop

variable {r : Rule}

def Event.Follows (r : Rule) : Event → Prop
  | .declaration header => r.header header
  | .start name attributes => r.tag name attributes
  | .empty name attributes => r.tag name attributes
  | .comment s => r.comment s
  | _ => True

structure Element.Follows (r : Rule) (e : Element) : Prop where
  tag : r.tag e.name e.attributes
  comments : ∀ s ∈ e.leading ++ e.trailing, r.comment s

structure Document.Follows (r : Rule) (d : Document) : Prop where
  header : ∀ h ∈ d.declaration, r.header h
  outside : ∀ s ∈ d.prolog ++ d.epilog, r.comment s
  root : d.root.All (Element.Follows r)

theorem Document.Follows.imp {r' : Rule} {d : Document} (h : d.Follows r)
    (header : ∀ header, r.header header → r'.header header)
    (tag : ∀ name attributes, r.tag name attributes → r'.tag name attributes)
    (comment : ∀ s, r.comment s → r'.comment s) : d.Follows r' where
  header h' declared := header h' (h.header h' declared)
  outside s mem := comment s (h.outside s mem)
  root e mem := ⟨tag _ _ (h.root e mem).tag, fun s at_ => comment s ((h.root e mem).comments s at_)⟩

namespace Draft

structure Follows (r : Rule) (d : Draft) : Prop where
  header : ∀ h ∈ d.declaration, r.header h
  outside : ∀ s ∈ d.prolog ++ d.epilog, r.comment s
  pending : ∀ s ∈ d.pending, r.comment s
  root : ∀ e ∈ d.root, e.All (Element.Follows r)
  enclosing : ∀ e ∈ d.enclosing, e.All (Element.Follows r)

variable {d d' : Draft}

theorem follows_start (r : Rule) : Follows r {} where
  header := by simp
  outside := by simp
  pending := by simp
  root := by simp
  enclosing := by simp

theorem Follows.places {e : Element} (h : d.Follows r) (closed : e.All (Element.Follows r))
    (placed : d.Places e d') : d'.Follows r := by
  cases placed with
  | @child parent outer enclosing =>
    have first := h.enclosing parent (by simp [enclosing])
    have pushed : (parent.push e).All (Element.Follows r) := by
      rw [Element.all_iff]
      constructor
      · exact ⟨first.self.tag, first.self.comments⟩
      · intro c mem
        rcases List.mem_append.1 mem with mem | mem
        · exact first.child mem
        · rwa [List.mem_singleton.1 mem]
    refine { h with enclosing := ?_ }
    intro x mem
    rcases List.mem_cons.1 mem with rfl | mem
    · exact pushed
    · exact h.enclosing x (by simp [enclosing, mem])
  | root outside rootless =>
    refine { h with root := ?_ }
    intro x mem
    rwa [← Option.some.inj mem]

theorem Follows.adds {s : String} (h : d.Follows r) (added : d.Adds s d') : d'.Follows r := by
  cases added with
  | @inside opened outer enclosing =>
    have own := h.enclosing opened (by simp [enclosing])
    refine { h with enclosing := ?_ }
    intro x mem
    rcases List.mem_cons.1 mem with rfl | mem
    · rw [Element.all_iff]
      exact ⟨⟨own.self.tag, own.self.comments⟩, fun c mem => own.child mem⟩
    · exact h.enclosing x (by simp [enclosing, mem])
  | outside => exact h

theorem Follows.addComment {s : String} (h : d.Follows r) (comment : r.comment s) :
    (d.addComment s).Follows r := by
  unfold Draft.addComment
  split
  · refine { h with pending := ?_ }
    intro t mem
    rcases List.mem_append.1 mem with mem | mem
    · exact h.pending t mem
    · rwa [List.mem_singleton.1 mem]
  · refine { h with outside := ?_ }
    intro t mem
    simp only [List.mem_append, List.mem_singleton] at mem
    rcases mem with (mem | rfl) | mem
    · exact h.outside t (by simp [mem])
    · exact comment
    · exact h.outside t (by simp [mem])
  · refine { h with outside := ?_ }
    intro t mem
    simp only [List.mem_append, List.mem_singleton] at mem
    rcases mem with mem | mem | rfl
    · exact h.outside t (by simp [mem])
    · exact h.outside t (by simp [mem])
    · exact comment

theorem Follows.opened {name : String} {attributes : List (String × String)} (h : d.Follows r)
    (tag : r.tag name attributes) :
    Element.All (Element.Follows r) { name, attributes, leading := d.pending } := by
  rw [Element.all_iff]
  constructor
  · exact ⟨tag, by simpa using h.pending⟩
  · simp

theorem Follows.closed {opened : Element} {outer : List Element} (h : d.Follows r)
    (enclosing : d.enclosing = opened :: outer) :
    Element.All (Element.Follows r) { opened with trailing := d.pending } := by
  have own := h.enclosing opened (by simp [enclosing])
  have comments : ∀ s ∈ opened.leading ++ d.pending, r.comment s := by
    intro s mem
    rcases List.mem_append.1 mem with mem | mem
    · exact own.self.comments s (by simp [mem])
    · exact h.pending s mem
  rw [Element.all_iff]
  exact ⟨⟨own.self.tag, comments⟩, fun c mem => own.child mem⟩

theorem Follows.becomes {e : Event} (h : d.Follows r) (own : e.Follows r) (next : d.Becomes e d') :
    d'.Follows r := by
  have cleared : Follows r { d with pending := [] } := { h with pending := by simp }
  cases next with
  | declaration header =>
    refine { h with header := ?_ }
    intro x mem
    rwa [← Option.some.inj mem]
  | start name attributes =>
    refine { cleared with enclosing := ?_ }
    intro x mem
    rcases List.mem_cons.1 mem with rfl | mem
    · exact h.opened own
    · exact h.enclosing x mem
  | empty placed => exact cleared.places (h.opened own) placed
  | @stop opened outer _ enclosing placed =>
    have inner : Follows r { d with enclosing := outer, pending := [] } :=
      { cleared with enclosing := fun x mem => h.enclosing x (by simp [enclosing, mem]) }
    exact inner.places (h.closed enclosing) placed
  | text added | cdata added => exact h.adds added
  | comment s => exact h.addComment own
  | instruction | doctype => exact h

theorem Follows.foldlM {events : List Located} (h : d.Follows r)
    (each : ∀ e ∈ events, e.event.Follows r) (run : events.foldlM Draft.step d = .ok d') :
    d'.Follows r := by
  induction events generalizing d with
  | nil =>
    cases run
    exact h
  | cons e events ih =>
    rw [List.forall_mem_cons] at each
    obtain ⟨d₁, first, later⟩ := exists_step run
    exact ih (h.becomes each.1 (becomes_of_step first)) each.2 later

end Draft

/-- A document follows the rules that all marks of its text follow. -/
theorem Document.follows_of_parse {s : String} {d : Document}
    (each : ∀ e ∈ (events s).events, e.event.Follows r) (read : Document.parse s = .ok d) :
    d.Follows r := by
  obtain ⟨draft, _, run, -, makes⟩ := Document.exists_draft read
  have drafted : draft.Follows r := (Draft.follows_start r).foldlM each run
  constructor
  · rw [makes.declaration]
    exact drafted.header
  · rw [makes.prolog, makes.epilog]
    exact drafted.outside
  · exact drafted.root d.root makes.root

end JavaMigration.Markup
