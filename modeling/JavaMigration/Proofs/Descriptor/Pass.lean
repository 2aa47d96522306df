import JavaMigration.Proofs.Descriptor.Children
import JavaMigration.Proofs.Markup.Normal

/-!
# Passes over the children of an element

What a sequence of steps makes of an element: the missing children of some names are appended, and
then one pass goes over all of them. A pass whose functions change nothing a second time changes
nothing a second time.
-/

namespace JavaMigration.Descriptor

open Markup

def completeAll (e : Element) : List String → List Element → List Element
  | [], cs => cs
  | name :: names, cs =>
    completeAll e names (complete Element.localName name (e.newChild name) cs)

def hasNamed (name : String) (cs : List Element) : Bool :=
  cs.any fun c => decide (c.localName = name)

theorem hasNamed_complete {name : String} (e : Element) (name' : String) {cs : List Element}
    (h : hasNamed name cs = true) :
    hasNamed name (complete Element.localName name' (e.newChild name') cs) = true :=
  any_complete _ h

theorem hasNamed_completeAll_of_hasNamed {name : String} (e : Element) (names : List String)
    {cs : List Element} (h : hasNamed name cs = true) :
    hasNamed name (completeAll e names cs) = true := by
  induction names generalizing cs with
  | nil => exact h
  | cons name' names ih => exact ih (hasNamed_complete e name' h)

theorem hasNamed_completeAll (e : Element) {names : List String}
    (plain : ∀ name ∈ names, ':' ∉ name.toList) (cs : List Element) :
    ∀ name ∈ names, hasNamed name (completeAll e names cs) = true := by
  induction names generalizing cs with
  | nil => simp
  | cons first names ih =>
    intro name mem
    rcases List.mem_cons.1 mem with rfl | mem
    · apply hasNamed_completeAll_of_hasNamed e names
      apply any_complete_self
      exact localName_newChild (plain name (by simp)) e
    · exact ih (fun name mem => plain name (by simp [mem])) _ name mem

theorem completeAll_of_hasNamed (e : Element) {names : List String} {cs : List Element}
    (h : ∀ name ∈ names, hasNamed name cs = true) : completeAll e names cs = cs := by
  induction names with
  | nil => rfl
  | cons first names ih =>
    have present : (cs.any fun c => decide (c.localName = first)) = true := h first (by simp)
    rw [completeAll, complete_of_any present]
    exact ih fun name mem => h name (by simp [mem])

theorem completeAll_append (e : Element) (names names' : List String) (cs : List Element) :
    completeAll e (names ++ names') cs = completeAll e names' (completeAll e names cs) := by
  induction names generalizing cs with
  | nil => rfl
  | cons name names ih => exact ih _

theorem mem_completeAll {e c : Element} {names : List String} {cs : List Element}
    (h : c ∈ completeAll e names cs) : c ∈ cs ∨ ∃ name ∈ names, c = e.newChild name := by
  induction names generalizing cs with
  | nil => exact .inl h
  | cons name names ih =>
    rcases ih h with mem | ⟨name', mem, new⟩
    · rcases mem_complete mem with mem | new
      · exact .inl mem
      · exact .inr ⟨name, by simp, new⟩
    · exact .inr ⟨name', by simp [mem], new⟩

theorem mem_takeWhile_completeAll {e c : Element} {names : List String} {cs : List Element}
    {p : Element → Bool} (h : c ∈ (completeAll e names cs).takeWhile p) :
    c ∈ cs.takeWhile p ∨ ∃ name ∈ names, c = e.newChild name := by
  induction names generalizing cs with
  | nil => exact .inl h
  | cons name names ih =>
    rcases ih h with mem | ⟨name', mem, new⟩
    · rcases mem_takeWhile_complete mem with mem | new
      · exact .inl mem
      · exact .inr ⟨name, by simp, new⟩
    · exact .inr ⟨name', by simp [mem], new⟩

theorem newChild_of_name {e e' : Element} (h : e'.name = e.name) (name : String) :
    e'.newChild name = e.newChild name := by
  simp only [Element.newChild, Element.qualify, Element.qualifier?, h]

theorem isNamed_of_localName {e e' : Element} (h : e'.localName = e.localName) (name : String) :
    e'.isNamed name = e.isNamed name := by
  simp only [Element.isNamed, h]

theorem localName_normal (e : Element) : e.normal.localName = e.localName :=
  localName_of_name (Element.name_normal e)

/-- A change to the children of a normal form is none where it is none to their normal forms. -/
theorem normal_with_children {e : Element} {cs : List Element}
    (h : cs.map Element.normal = e.normal.children) :
    Element.normal { e.normal with children := cs } = e.normal := by
  rw [Element.normal_eq]
  simp only [h, Element.text_normal, solidText?_solidText?]
  rw [Element.normal_eq]

/-- The choice to set the text of the first element of a name, beside the change `g`. -/
def writing (g : Element → Element) (texts : String → Option String) : Choice String :=
  fun name => (texts name).map fun text => Element.withText text ∘ g

theorem writing_eq_some {g f : Element → Element} {texts : String → Option String} {name : String}
    (h : writing g texts name = some f) :
    ∃ text, texts name = some text ∧ f = Element.withText text ∘ g := by
  obtain ⟨text, found, rfl⟩ := Option.map_eq_some_iff.1 h
  exact ⟨text, found, rfl⟩

theorem set_writing (g : Element → Element) (texts : String → Option String) (name text : String) :
    (writing g texts).set name (Element.withText text ∘ (writing g texts name).getD g) =
      writing g (Function.update texts name (some text)) := by
  funext k
  by_cases same : k = name
  · subst same
    simp only [Choice.set_self, writing, Function.update_self]
    cases texts k <;> rfl
  · simp only [Choice.set_of_ne same, writing, Function.update_of_ne same]

structure IsPass (e : Element) (names : List String) (special : Choice String)
    (g : Element → Element) (e' : Element) : Prop where
  eq : e' = { e with
    children := changeFirsts Element.localName special g (completeAll e names e.children) }
  keeps : KeepsKind Element.localName special g
  new : ∀ name, g (e.newChild name) = e.newChild name

namespace IsPass

variable {e e' : Element} {names : List String} {special : Choice String}
  {f g h : Element → Element}

theorem start (e : Element) : IsPass e [] Choice.plain id e where
  eq := by
    rw [changeFirsts_plain, List.map_id]
    cases e
    rfl
  keeps := .plain fun _ => rfl
  new := fun _ => rfl

theorem name_eq (pass : IsPass e names special g e') : e'.name = e.name := by
  rw [pass.eq]

theorem isNamed_normal (pass : IsPass e names special g e') (name : String) :
    e'.normal.isNamed name = e.isNamed name :=
  isNamed_of_localName (localName_of_name ((Element.name_normal e').trans pass.name_eq)) name

theorem start_writing (e : Element) : IsPass e [] (writing id fun _ => none) id e :=
  start e

theorem updateChild (pass : IsPass e names special g e') (name : String)
    (plain : ':' ∉ name.toList)
    (fresh : special name = none ∨ (name ∈ names ∧ ∀ name ∈ names, ':' ∉ name.toList))
    (kept : ∀ c : Element, (f c).localName = c.localName) :
    IsPass e (names ++ [name]) (special.set name (f ∘ (special name).getD g)) g
      (e'.updateChild name f) where
  eq := by
    have new := newChild_of_name pass.name_eq name
    rw [updateChild_eq plain, new, pass.eq, completeAll_append]
    refine congrArg (fun cs => { e with children := cs }) ?_
    refine update_changeFirsts pass.keeps (localName_newChild plain e) ?_ f
    intro missing
    rcases fresh with unchosen | ⟨mem, plains⟩
    · exact ⟨unchosen, pass.new name⟩
    · have present := hasNamed_completeAll e plains e.children name mem
      rw [hasNamed, missing] at present
      cases present
  keeps := by
    apply pass.keeps.set
    intro c same
    rw [Function.comp, kept]
    cases chosen : special name with
    | none => rw [Option.getD_none, pass.keeps.others, same]
    | some f' => rw [Option.getD_some, pass.keeps.special c f' (by rw [same, chosen]), same]
  new := pass.new

theorem modifyChild (pass : IsPass e names special g e') (name : String)
    (kept : ∀ c : Element, (f c).localName = c.localName) :
    IsPass e names (special.set name (f ∘ (special name).getD g)) g (e'.modifyChild name f) where
  eq := by
    rw [Element.modifyChild, modifyFirst_eq, pass.eq, modifyFirstWhere_changeFirsts pass.keeps]
  keeps := by
    apply pass.keeps.set
    intro c same
    rw [Function.comp, kept]
    cases chosen : special name with
    | none => rw [Option.getD_none, pass.keeps.others, same]
    | some f' => rw [Option.getD_some, pass.keeps.special c f' (by rw [same, chosen]), same]
  new := pass.new

theorem map (pass : IsPass e names special g e')
    (kept : ∀ c : Element, (h c).localName = c.localName)
    (new : ∀ name, h (e.newChild name) = e.newChild name) :
    IsPass e names (special.andThen h) (h ∘ g) { e' with children := e'.children.map h } where
  eq := by rw [pass.eq, map_changeFirsts]
  keeps := pass.keeps.andThen kept
  new := by
    intro name
    rw [Function.comp, pass.new, new]

theorem setChildText {texts : String → Option String}
    (pass : IsPass e names (writing g texts) g e') (name : String) (plain : ':' ∉ name.toList)
    (fresh : texts name = none ∨ (name ∈ names ∧ ∀ name ∈ names, ':' ∉ name.toList))
    (text : String) :
    IsPass e (names ++ [name]) (writing g (Function.update texts name (some text))) g
      (e'.setChildText name text) := by
  have fresh' : writing g texts name = none ∨ (name ∈ names ∧ ∀ name ∈ names, ':' ∉ name.toList) :=
    fresh.imp_left fun missing => by rw [writing, missing, Option.map_none]
  have step := pass.updateChild (f := Element.withText text) name plain fresh' fun _ => rfl
  rw [set_writing] at step
  exact step

theorem modifyChild_withText {texts : String → Option String}
    (pass : IsPass e names (writing g texts) g e') (name text : String) :
    IsPass e names (writing g (Function.update texts name (some text))) g
      (e'.modifyChild name (Element.withText text)) := by
  have step := pass.modifyChild (f := Element.withText text) name fun _ => rfl
  rw [set_writing] at step
  exact step

/-- Every name of a pass has a child after it, changed by what is special to the name. -/
theorem exists_child? (pass : IsPass e names special g e') {name : String} (mem : name ∈ names)
    (plain : ∀ name ∈ names, ':' ∉ name.toList) :
    ∃ c : Element, c.isNamed name = true ∧ e'.child? name = some ((special name).getD g c) := by
  have there : ((completeAll e names e.children).find? fun c =>
      decide (c.localName = name)).isSome = true := by
    rw [List.find?_isSome]
    exact List.any_eq_true.1 (hasNamed_completeAll e plain e.children name mem)
  obtain ⟨c, found⟩ := Option.isSome_iff_exists.1 there
  have changed := find?_kind_changeFirsts pass.keeps name (completeAll e names e.children)
  rw [found] at changed
  refine ⟨c, List.find?_some found, ?_⟩
  rw [pass.eq]
  exact changed

theorem children_normal (pass : IsPass e names special g e') :
    e'.normal.children = changeFirsts Element.localName (special.andThen Element.normal)
      (Element.normal ∘ g) (completeAll e names e.children) := by
  rw [Element.children_normal, pass.eq, map_changeFirsts]

theorem completeAll_children_normal (pass : IsPass e names special g e')
    (plain : ∀ name ∈ names, ':' ∉ name.toList) (d : Element) {names' : List String}
    (sub : ∀ name ∈ names', name ∈ names) :
    completeAll d names' e'.normal.children = e'.normal.children := by
  apply completeAll_of_hasNamed
  intro name mem
  rw [pass.children_normal, hasNamed, any_kind_changeFirsts (pass.keeps.andThen localName_normal)]
  exact hasNamed_completeAll e plain e.children name (sub name mem)

/--
A second pass over the normal form of what the first one left changes no child, if its functions
change none of those that the first one has changed.
-/
theorem normal_of_fixed (pass : IsPass e names special g e')
    (plain : ∀ name ∈ names, ':' ∉ name.toList) {names' : List String} {special' : Choice String}
    {g' : Element → Element} {e'' : Element} (again : IsPass e'.normal names' special' g' e'')
    (sub : ∀ name ∈ names', name ∈ names)
    (sub' : ∀ k, special k = none → special' k = none)
    (fixed : ∀ c ∈ completeAll e names e.children, ∀ f, special c.localName = some f →
      ((special' c.localName).getD g' (f c).normal).normal = (f c).normal)
    (others : ∀ c ∈ completeAll e names e.children, (g' (g c).normal).normal = (g c).normal) :
    e''.normal = e'.normal := by
  rw [again.eq]
  apply normal_with_children
  rw [pass.completeAll_children_normal plain _ sub, pass.children_normal, map_changeFirsts]
  refine changeFirsts_of_fixed (pass.keeps.andThen localName_normal) ?_ ?_ others
  · intro k missing
    have missing : special k = none := by simpa [Choice.andThen] using missing
    simp [Choice.andThen, sub' k missing]
  · intro c mem f found
    obtain ⟨f', chosen, rfl⟩ := Option.map_eq_some_iff.1 found
    have kept := fixed c mem f' chosen
    cases chosen' : special' c.localName with
    | none =>
      rw [chosen'] at kept
      simpa [Choice.andThen, chosen'] using kept
    | some f'' =>
      rw [chosen'] at kept
      simpa [Choice.andThen, chosen'] using kept

/-- A pass that is made again changes nothing more, if no function of it does so. -/
theorem normal_again (pass : IsPass e names special g e') {e'' : Element}
    (again : IsPass e'.normal names special g e'') (plain : ∀ name ∈ names, ':' ∉ name.toList)
    (fixed : ∀ c f, special c.localName = some f → (f (f c).normal).normal = (f c).normal)
    (others : ∀ c, (g (g c).normal).normal = (g c).normal) : e''.normal = e'.normal := by
  refine pass.normal_of_fixed plain again (fun _ mem => mem) (fun _ missing => missing) ?_
    fun c _ => others c
  intro c _ f chosen
  rw [chosen]
  exact fixed c f chosen

end IsPass

end JavaMigration.Descriptor
