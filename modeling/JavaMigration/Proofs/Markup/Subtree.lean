import JavaMigration.Markup.Element

/-!
# Subtrees

Induction over elements by their children, and properties that hold of an element and of everything
below it.
-/

namespace JavaMigration.Markup

namespace Element

/-- What passes from the children of an element to it holds of every element. -/
theorem inductionOnChildren {motive : Element → Prop}
    (step : ∀ e : Element, (∀ c ∈ e.children, motive c) → motive e) (e : Element) : motive e :=
  step e fun c _ => inductionOnChildren step c
termination_by sizeOf e
decreasing_by
  obtain ⟨name, attributes, text, children, leading, trailing⟩ := e
  rename_i mem
  have := List.sizeOf_lt_of_mem mem
  simp at this ⊢
  omega

theorem descendantsAll_eq (cs : List Element) :
    descendantsAll cs = cs.flatMap fun c => c :: c.descendants := by
  induction cs with
  | nil => rfl
  | cons c cs ih => simp [descendantsAll, ih]

theorem descendants_eq (e : Element) :
    e.descendants = e.children.flatMap fun c => c :: c.descendants := by
  cases e
  exact descendantsAll_eq _

theorem mapDescendants_const (f : Element → Element) (e : Element) :
    e.mapDescendants (fun _ => f) =
      { e with children := e.children.map fun c => f (c.mapDescendants fun _ => f) } := by
  have anywhere : ∀ n, (mapDescendantsFrom (fun _ => f) n e).1 =
      { e with children := e.children.map fun c => f (c.mapDescendants fun _ => f) } := by
    induction e using inductionOnChildren with
    | step e ih =>
      have children (cs : List Element) (sub : ∀ c ∈ cs, c ∈ e.children) (n : Nat) :
          (mapAllFrom (fun _ => f) n cs).1 = cs.map fun c => f (c.mapDescendants fun _ => f) := by
        induction cs generalizing n with
        | nil => rfl
        | cons c cs ihs =>
          have first := ih c (sub c (by simp))
          simp only [mapAllFrom, List.map_cons, mapDescendants, first,
            ihs fun x mem => sub x (by simp [mem])]
      intro n
      have whole := children e.children (fun _ mem => mem) n
      cases e
      simp only [mapDescendantsFrom, whole]
  exact anywhere 0

/-- `p` holds of `e` and of every element below it. -/
def All (p : Element → Prop) (e : Element) : Prop :=
  ∀ x ∈ e :: e.descendants, p x

instance (p : Element → Prop) [DecidablePred p] (e : Element) : Decidable (e.All p) :=
  inferInstanceAs (Decidable (∀ _ ∈ _, _))

variable {p q : Element → Prop} {e : Element}

theorem all_iff : e.All p ↔ p e ∧ ∀ c ∈ e.children, c.All p := by
  simp only [All, List.forall_mem_cons, descendants_eq e, List.forall_mem_flatMap]

theorem All.self (h : e.All p) : p e := (all_iff.1 h).1

theorem All.child (h : e.All p) {c : Element} (mem : c ∈ e.children) : c.All p :=
  (all_iff.1 h).2 c mem

end Element

end JavaMigration.Markup
