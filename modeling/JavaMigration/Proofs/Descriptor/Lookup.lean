import JavaMigration.Proofs.Descriptor.Project

/-!
# The children that a pass leaves

A pass leaves one child for each of its names: the first of that name there was, or a new one,
changed by what is special to the name. Where an element is new altogether, its children are the
texts that were set, in the order in which they were.
-/

namespace JavaMigration.Descriptor

open Markup

variable {s : UpgradeSettings} {c : Coordinate} {f : Element → Element} {e e' : Element}
  {name : String}

theorem find?_append_of_apart {p : Element → Bool} {new : Element} (apart : p new = false)
    (cs : List Element) : (cs ++ [new]).find? p = cs.find? p := by
  rw [List.find?_append, List.find?_singleton, apart]
  exact Option.or_none

theorem find?_complete (e : Element) {name' : String} (plain : ':' ∉ name'.toList)
    (other : name ≠ name') (cs : List Element) :
    (complete Element.localName name' (e.newChild name') cs).find?
        (fun c => decide (c.localName = name)) =
      cs.find? fun c => decide (c.localName = name) := by
  unfold complete
  split
  · rfl
  · apply find?_append_of_apart
    rw [localName_newChild plain]
    simpa using Ne.symm other

theorem find?_complete_self (e : Element) (plain : ':' ∉ name.toList) (cs : List Element) :
    (complete Element.localName name (e.newChild name) cs).find?
        (fun c => decide (c.localName = name)) =
      some ((cs.find? fun c => decide (c.localName = name)).getD (e.newChild name)) := by
  cases found : cs.find? fun c => decide (c.localName = name) with
  | some c =>
    have named := List.find?_some found
    have there : (cs.any fun c => decide (c.localName = name)) = true :=
      List.any_eq_true.2 ⟨c, List.mem_of_find?_eq_some found, named⟩
    rw [complete_of_any there, found]
    rfl
  | none =>
    have missing : ¬ (cs.any fun c => decide (c.localName = name)) = true := by
      simpa using found
    have new : [e.newChild name].find? (fun c => decide (c.localName = name)) =
        some (e.newChild name) := by
      simp [localName_newChild plain]
    rw [complete, if_neg missing, List.find?_append, found, new]
    rfl

/-- A name that is completed has a child, and the lookup of any other one is the same as before. -/
theorem find?_completeAll (e : Element) {names : List String}
    (plain : ∀ name ∈ names, ':' ∉ name.toList) (name : String) (cs : List Element) :
    (completeAll e names cs).find? (fun c => decide (c.localName = name)) =
      if name ∈ names then
        some ((cs.find? fun c => decide (c.localName = name)).getD (e.newChild name))
      else cs.find? fun c => decide (c.localName = name) := by
  induction names generalizing cs with
  | nil => rfl
  | cons name' names ih =>
    have rest := ih (fun name mem => plain name (List.mem_cons_of_mem _ mem))
    have here := plain name' List.mem_cons_self
    rw [completeAll, rest]
    by_cases same : name = name'
    · subst same
      rw [find?_complete_self e here, if_pos List.mem_cons_self]
      split <;> rfl
    · rw [find?_complete e here same]
      simp only [List.mem_cons, same, false_or]

def childOrNew (name : String) (e : Element) : Element :=
  (e.child? name).getD (e.newChild name)

theorem localName_childOrNew (plain : ':' ∉ name.toList) (e : Element) :
    (childOrNew name e).localName = name := by
  unfold childOrNew
  cases found : e.child? name with
  | none => exact localName_newChild plain e
  | some c => simpa [Element.isNamed] using List.find?_some found

namespace IsPass

variable {names : List String} {special : Choice String} {g : Element → Element}

theorem child?_eq (pass : IsPass e names special g e')
    (plain : ∀ name ∈ names, ':' ∉ name.toList) (name : String) :
    e'.child? name =
      (if name ∈ names then some (childOrNew name e) else e.child? name).map
        ((special name).getD g) := by
  have changed := find?_kind_changeFirsts pass.keeps name (completeAll e names e.children)
  rw [find?_completeAll e plain] at changed
  rw [pass.eq]
  exact changed

theorem child?_of_mem (pass : IsPass e names special g e')
    (plain : ∀ name ∈ names, ':' ∉ name.toList) (mem : name ∈ names) :
    e'.child? name = some ((special name).getD g (childOrNew name e)) := by
  rw [pass.child?_eq plain, if_pos mem]
  rfl

end IsPass

theorem child?_updateChild_self (plain : ':' ∉ name.toList)
    (kept : ∀ c : Element, (f c).localName = c.localName) (e : Element) :
    (e.updateChild name f).child? name = some (f (childOrNew name e)) := by
  have pass := (IsPass.start e).updateChild name plain (.inl rfl) kept
  have found := pass.child?_of_mem (by simpa using plain)
    (List.mem_append_right [] (List.mem_singleton_self name))
  rw [Choice.set_self] at found
  exact found

theorem child?_pinWithin (s : UpgradeSettings) (e : Element) (name : String) :
    (pinWithin s e).child? name =
      (e.child? name).map (pinChild s (e.isNamed "dependencies")) := by
  rw [pinWithin_eq]
  exact child?_map (localName_pinChild s _) e name

theorem childText?_pinWithin (s : UpgradeSettings) (e : Element) (name : String) :
    (pinWithin s e).childText? name = e.childText? name := by
  rw [pinWithin_eq]
  exact childText?_map (localName_pinChild s _) (text_pinChild s _) e name

/-- The children of an element, each by its local name and its text. -/
def contents (e : Element) : List (String × Option String) :=
  e.children.map fun c => (c.localName, c.text)

theorem contents_map {h : Element → Element} (kept : ∀ c : Element, (h c).localName = c.localName)
    (texts : ∀ c : Element, (h c).text = c.text) (e : Element) :
    contents { e with children := e.children.map h } = contents e := by
  rw [contents, List.map_map]
  apply List.map_congr_left
  intro c _
  rw [Function.comp_apply, kept, texts]

theorem contents_pinWithin (s : UpgradeSettings) (e : Element) :
    contents (pinWithin s e) = contents e := by
  rw [pinWithin_eq]
  exact contents_map (localName_pinChild s _) (text_pinChild s _) e

theorem child?_eq_none_of_contents (absent : name ∉ (contents e).map (·.1)) :
    e.child? name = none := by
  apply List.find?_eq_none.2
  intro c mem named
  apply absent
  rw [contents, List.map_map]
  exact List.mem_map.2 ⟨c, mem, by simpa [Element.isNamed] using named⟩

theorem children_updateChild_of_absent (absent : name ∉ (contents e).map (·.1)) :
    (e.updateChild name f).children = e.children ++ [f (e.newChild name)] := by
  rw [Element.updateChild, child?_eq_none_of_contents absent]
  rfl

theorem child?_updateChild_of_absent (plain : ':' ∉ name.toList)
    (kept : ∀ c : Element, (f c).localName = c.localName)
    (absent : name ∉ (contents e).map (·.1)) :
    (e.updateChild name f).child? name = some (f (e.newChild name)) := by
  rw [child?_updateChild_self plain kept, childOrNew, child?_eq_none_of_contents absent]
  rfl

theorem contents_updateChild (plain : ':' ∉ name.toList)
    (kept : ∀ c : Element, (f c).localName = c.localName)
    (absent : name ∉ (contents e).map (·.1)) :
    contents (e.updateChild name f) = contents e ++ [(name, (f (e.newChild name)).text)] := by
  rw [contents, children_updateChild_of_absent absent, List.map_append, List.map_singleton, kept,
    localName_newChild plain]
  rfl

theorem contents_setChildText (plain : ':' ∉ name.toList) (absent : name ∉ (contents e).map (·.1))
    (text : String) : contents (e.setChildText name text) = contents e ++ [(name, some text)] :=
  contents_updateChild plain (fun _ => rfl) absent

theorem text_updateChild (name : String) (f : Element → Element) (e : Element) :
    (e.updateChild name f).text = e.text := by
  unfold Element.updateChild
  split <;> rfl

def coordinateContents (c : Coordinate) : List (String × Option String) :=
  [("groupId", some c.groupId), ("artifactId", some c.artifactId), ("version", some c.version)]

theorem contents_withCoordinate (c : Coordinate) (bare : contents e = []) :
    contents (withCoordinate c e) = coordinateContents c := by
  have group : contents (e.setChildText "groupId" c.groupId) = [("groupId", some c.groupId)] := by
    rw [contents_setChildText (by decide) (by simp [bare]), bare]
    rfl
  have artifact : contents ((e.setChildText "groupId" c.groupId).setChildText "artifactId"
      c.artifactId) = [("groupId", some c.groupId), ("artifactId", some c.artifactId)] := by
    rw [contents_setChildText (by decide) (by simp [group]), group]
    rfl
  rw [withCoordinate, contents_setChildText (by decide) (by simp [artifact]), artifact]
  rfl

theorem contents_newCoordinate (c : Coordinate) (e : Element) (name : String) :
    contents (withCoordinate c (e.newChild name)) = coordinateContents c :=
  contents_withCoordinate c rfl

end JavaMigration.Descriptor
