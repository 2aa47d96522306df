import JavaMigration.Proofs.Descriptor.Qualifier

/-!
# The text of a child

Reading the text of a child and setting it go together like the two directions of a lens. What
setting does is said once, by where the first child of the name stands among the children; all the
laws follow from that.
-/

namespace JavaMigration.Descriptor

open Markup

variable {name : String} {e c : Element} {before after : List Element}

def Lacks (name : String) (e : Element) : Prop :=
  ∀ c ∈ e.children, c.localName ≠ name

/-- The children around the first one that has the local name. -/
structure Holds (name : String) (before : List Element) (c : Element) (after : List Element)
    (e : Element) : Prop where
  children_eq : e.children = before ++ c :: after
  earlier : ∀ d ∈ before, d.localName ≠ name
  named : c.localName = name

theorem not_isNamed (other : c.localName ≠ name) : c.isNamed name = false := by
  simp [Element.isNamed, other]

theorem isNamed_of_eq (named : c.localName = name) : c.isNamed name = true := by
  simp [Element.isNamed, named]

theorem lacks_or_holds (name : String) (e : Element) :
    Lacks name e ∨ ∃ before c after, Holds name before c after e := by
  cases found : e.child? name with
  | none =>
    left
    intro c mem named
    exact List.find?_eq_none.1 found c mem (isNamed_of_eq named)
  | some c =>
    right
    obtain ⟨named, before, after, children_eq, earlier⟩ := List.find?_eq_some_iff_append.1 found
    refine ⟨before, c, after, children_eq, fun d mem same => ?_, of_decide_eq_true named⟩
    have other := earlier d mem
    rw [isNamed_of_eq same] at other
    cases other

theorem Lacks.not_holds (lacks : Lacks name e) : ¬ Holds name before c after e := by
  intro holds
  exact lacks c (by simp [holds.children_eq]) holds.named

theorem Lacks.child?_eq (lacks : Lacks name e) : e.child? name = none := by
  rw [Element.child?, List.find?_eq_none]
  intro c mem
  simp [not_isNamed (lacks c mem)]

theorem Holds.child?_eq (holds : Holds name before c after e) : e.child? name = some c := by
  rw [Element.child?, List.find?_eq_some_iff_append]
  refine ⟨isNamed_of_eq holds.named, before, after, holds.children_eq, fun d mem => ?_⟩
  simp [not_isNamed (holds.earlier d mem)]

theorem Lacks.getOrCreateChild_eq (lacks : Lacks name e) :
    e.getOrCreateChild name = (e.push (e.newChild name), e.children.length) := by
  have absent : e.children.findIdx? (Element.isNamed name) = none := by
    rw [List.findIdx?_eq_none_iff]
    exact fun c mem => not_isNamed (lacks c mem)
  rw [Element.getOrCreateChild, absent]

theorem Holds.getOrCreateChild_eq (holds : Holds name before c after e) :
    e.getOrCreateChild name = (e, before.length) := by
  have earlier : before.findIdx? (Element.isNamed name) = none := by
    rw [List.findIdx?_eq_none_iff]
    exact fun d mem => not_isNamed (holds.earlier d mem)
  have here : e.children.findIdx? (Element.isNamed name) = some before.length := by
    rw [holds.children_eq, List.findIdx?_append, earlier]
    simp [List.findIdx?_cons, isNamed_of_eq holds.named]
  rw [Element.getOrCreateChild, here]

/-- Where no child has the name, one that is put behind the others is the first of the name. -/
theorem Lacks.holds_push (lacks : Lacks name e) (named : c.localName = name) :
    Holds name e.children c [] (e.push c) where
  children_eq := rfl
  earlier := lacks
  named := named

theorem modifyFirst_append (earlier : ∀ d ∈ before, d.localName ≠ name) (f : Element → Element)
    (cs : List Element) :
    Element.modifyFirst name f (before ++ cs) = before ++ Element.modifyFirst name f cs := by
  induction before with
  | nil => rfl
  | cons d before ih =>
    have other := not_isNamed (earlier d (.head _))
    rw [List.cons_append, Element.modifyFirst, other, List.cons_append,
      ih fun d mem => earlier d (.tail _ mem)]
    rfl

theorem Holds.updateChild_eq (holds : Holds name before c after e) (f : Element → Element) :
    e.updateChild name f = { e with children := before ++ f c :: after } := by
  have here : Element.modifyFirst name f (c :: after) = f c :: after := by
    rw [Element.modifyFirst, isNamed_of_eq holds.named, if_pos rfl]
  rw [Element.updateChild, holds.child?_eq]
  change e.modifyChild name f = _
  rw [Element.modifyChild, holds.children_eq, modifyFirst_append holds.earlier, here]

theorem Lacks.updateChild_eq (lacks : Lacks name e) (f : Element → Element) :
    e.updateChild name f = e.push (f (e.newChild name)) := by
  rw [Element.updateChild, lacks.child?_eq]

theorem Holds.modifyChildAt_eq (holds : Holds name before c after e) (f : Element → Element) :
    e.modifyChildAt before.length f = { e with children := before ++ f c :: after } := by
  rw [Element.modifyChildAt, holds.children_eq, List.modify_eq_take_drop, List.take_left,
    List.drop_left, List.modifyHead_cons]

theorem updateChild_eq_modifyChildAt (name : String) (plain : ':' ∉ name.toList)
    (f : Element → Element) (e : Element) :
    e.updateChild name f =
      (e.getOrCreateChild name).1.modifyChildAt (e.getOrCreateChild name).2 f := by
  rcases lacks_or_holds name e with lacks | ⟨before, c, after, holds⟩
  · have pushed := lacks.holds_push (localName_newChild plain e)
    rw [lacks.getOrCreateChild_eq, lacks.updateChild_eq, pushed.modifyChildAt_eq]
    rfl
  · rw [holds.getOrCreateChild_eq, holds.updateChild_eq, holds.modifyChildAt_eq]

theorem replaceChildText_eq (plain : ':' ∉ name.toList) (text : String) (e : Element) :
    e.replaceChildText name text = ((e.child? name).bind (·.text), e.setChildText name text) := by
  have changed : (e.replaceChildText name text).2 = e.setChildText name text :=
    (updateChild_eq_modifyChildAt name plain (Element.withText text) e).symm
  have previous : (e.replaceChildText name text).1 = (e.child? name).bind (·.text) := by
    rw [Element.replaceChildText]
    rcases lacks_or_holds name e with lacks | ⟨before, c, after, holds⟩
    · rw [lacks.getOrCreateChild_eq, lacks.child?_eq]
      simp [Element.push, Element.newChild]
    · rw [holds.getOrCreateChild_eq, holds.child?_eq]
      simp [holds.children_eq]
  exact Prod.ext previous changed

theorem Holds.setChildText_eq (holds : Holds name before c after e) (text : String) :
    e.setChildText name text =
      { e with children := before ++ { c with text := some text } :: after } :=
  holds.updateChild_eq (Element.withText text)

theorem Lacks.setChildText_eq (lacks : Lacks name e) (text : String) :
    e.setChildText name text = e.push (e.newTextChild name text) :=
  lacks.updateChild_eq (Element.withText text)

theorem setChildText_setChildText (plain : ':' ∉ name.toList) (a b : String) (e : Element) :
    (e.setChildText name a).setChildText name b = e.setChildText name b := by
  rcases lacks_or_holds name e with lacks | ⟨before, c, after, holds⟩
  · have pushed :
        Holds name e.children (e.newTextChild name a) [] (e.push (e.newTextChild name a)) :=
      lacks.holds_push (localName_newChild plain e)
    rw [lacks.setChildText_eq, lacks.setChildText_eq, pushed.setChildText_eq]
    rfl
  · have changed : Holds name before { c with text := some a } after
        { e with children := before ++ { c with text := some a } :: after } :=
      ⟨rfl, holds.earlier, holds.named⟩
    rw [holds.setChildText_eq, holds.setChildText_eq, changed.setChildText_eq]

theorem length_setChildText_iff (text : String) (e : Element) :
    (e.setChildText name text).children.length = e.children.length + 1 ↔ Lacks name e := by
  rcases lacks_or_holds name e with lacks | ⟨before, c, after, holds⟩
  · rw [lacks.setChildText_eq]
    simp [Element.push, lacks]
  · have kept : (e.setChildText name text).children.length = e.children.length := by
      rw [holds.setChildText_eq, holds.children_eq]
      simp
    exact ⟨fun grown => by omega, fun lacks => absurd holds lacks.not_holds⟩

/--
Where no child has the local name, setting a text appends a child of that name with the qualifier of
the parent. Otherwise it changes the text of the first one and nothing else.
-/
theorem setChildText_cases (plain : ':' ∉ name.toList) (text : String) (e : Element) :
    (Lacks name e ∧ ∃ c, c.localName = name ∧ c.qualifier? = e.qualifier? ∧
        c = { name := c.name, text := some text } ∧
        e.setChildText name text = { e with children := e.children ++ [c] }) ∨
      ∃ before c after, Holds name before c after e ∧
        e.setChildText name text =
          { e with children := before ++ { c with text := some text } :: after } := by
  rcases lacks_or_holds name e with lacks | ⟨before, c, after, holds⟩
  · exact .inl ⟨lacks, e.newTextChild name text, localName_newChild plain e,
      qualifier?_newChild plain e, rfl, lacks.setChildText_eq text⟩
  · exact .inr ⟨before, c, after, holds, holds.setChildText_eq text⟩

/--
Setting the text of a child gives back the raw text that the first child of the name had, if any.
Then that text is read, trimmed; of two texts set, the second stays; and all other children are as
they were, but for the one that is appended where there was none. It is the same as to find or
create the child and to set the text of that.
-/
theorem setChildText_lens (name : String) (plain : ':' ∉ name.toList) (e : Element)
    (a b : String) :
    e.replaceChildText name a = ((e.child? name).bind (·.text), e.setChildText name a) ∧
    (e.setChildText name a).childText? name = some (Text.trim a) ∧
    ((Lacks name e ∧ ∃ c, c.localName = name ∧ c.qualifier? = e.qualifier? ∧
        c = { name := c.name, text := some a } ∧
        e.setChildText name a = { e with children := e.children ++ [c] }) ∨
      ∃ before c after, Holds name before c after e ∧
        e.setChildText name a =
          { e with children := before ++ { c with text := some a } :: after }) ∧
    ((e.setChildText name a).children.length = e.children.length + 1 ↔ Lacks name e) ∧
    (e.setChildText name a).setChildText name b = e.setChildText name b ∧
    e.setChildText name a =
      (e.getOrCreateChild name).1.modifyChildAt (e.getOrCreateChild name).2 (Element.withText a) :=
  ⟨replaceChildText_eq plain a e, childText?_setChildText_self plain a e,
    setChildText_cases plain a e, length_setChildText_iff a e,
    setChildText_setChildText plain a b e,
    updateChild_eq_modifyChildAt name plain (Element.withText a) e⟩

/-- The first of two children is overwritten; a third one gets the prefix up to the first colon. -/
theorem setChildText_lens_prefixed :
    let e : Element :=
      { name := "m:n:project",
        children := [{ name := "x:groupId", text := some " g " }, { name := "groupId" }] }
    ':' ∉ "groupId".toList ∧ ':' ∉ "version".toList ∧
      (e.replaceChildText "groupId" "h").1 = some " g " ∧
      (e.setChildText "groupId" "h").childText? "groupId" = some (Text.trim "h") ∧
      (e.setChildText "version" " 1 ").childText? "version" = some (Text.trim " 1 ") ∧
      Lacks "version" e ∧ (e.setChildText "version" " 1 ").children.length = 3 ∧
      e.setChildText "version" " 1 " = e.push { name := "m:version", text := some " 1 " } := by
  intro e
  have plain : ':' ∉ "groupId".toList := by decide
  have plain' : ':' ∉ "version".toList := by decide
  obtain ⟨replaced, read, -⟩ := setChildText_lens "groupId" plain e "h" "i"
  obtain ⟨-, read', -, grown, -⟩ := setChildText_lens "version" plain' e " 1 " "2"
  have lacks : Lacks "version" e := by
    unfold Lacks
    decide
  have previous : (e.replaceChildText "groupId" "h").1 = some " g " := by
    rw [replaced]
    decide
  exact ⟨plain, plain', previous, read, read', lacks, grown.2 lacks, by decide⟩

end JavaMigration.Descriptor
