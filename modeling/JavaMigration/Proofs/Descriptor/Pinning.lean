import JavaMigration.Proofs.Descriptor.Pass

/-!
# Pinned dependencies

Pinning sets the version of every entry that the upgrade table has. It asks for the coordinates of
an entry and changes its version only, so it finds the same entries again, or fewer where a blank
coordinate is gone, and leaves those as they are.
-/

namespace JavaMigration.Descriptor

open Markup

variable {s : UpgradeSettings} {e e' : Element} {name : String}

section Coordinates

theorem child?_map {h : Element → Element} (kept : ∀ c : Element, (h c).localName = c.localName)
    (e : Element) (name : String) :
    Element.child? { e with children := e.children.map h } name = (e.child? name).map h := by
  have same : Element.isNamed name ∘ h = Element.isNamed name := by
    funext c
    simp only [Function.comp, Element.isNamed, kept]
  simp only [Element.child?, List.find?_map, same]

theorem childText?_map {h : Element → Element} (kept : ∀ c : Element, (h c).localName = c.localName)
    (texts : ∀ c : Element, (h c).text = c.text) (e : Element) (name : String) :
    Element.childText? { e with children := e.children.map h } name = e.childText? name := by
  rw [Element.childText?, child?_map kept, Element.childText?]
  cases e.child? name with
  | none => rfl
  | some c => simp only [Option.map_some, Option.bind_some, Element.trimmedText?, texts]

theorem childText?_normal (e : Element) (name : String) :
    e.normal.childText? name = (e.childText? name).filter (· ≠ "") := by
  have children : e.normal.child? name = (e.child? name).map Element.normal := by
    rw [← child?_map localName_normal]
    simp only [Element.child?, Element.children_normal]
  rw [Element.childText?, children, Element.childText?]
  cases e.child? name with
  | none => rfl
  | some c => exact c.trimmedText?_normal

structure SameCoordinates (e e' : Element) : Prop where
  localName : e'.localName = e.localName
  groupId : e'.childText? "groupId" = e.childText? "groupId"
  artifactId : e'.childText? "artifactId" = e.childText? "artifactId"

namespace SameCoordinates

theorem trans {e'' : Element} (h : SameCoordinates e e') (h' : SameCoordinates e' e'') :
    SameCoordinates e e'' where
  localName := h'.localName.trans h.localName
  groupId := h'.groupId.trans h.groupId
  artifactId := h'.artifactId.trans h.artifactId

theorem map {h : Element → Element} (kept : ∀ c : Element, (h c).localName = c.localName)
    (texts : ∀ c : Element, (h c).text = c.text) (e : Element) :
    SameCoordinates e { e with children := e.children.map h } :=
  ⟨rfl, childText?_map kept texts e _, childText?_map kept texts e _⟩

theorem setChildText (plain : ':' ∉ name.toList) (group : name ≠ "groupId")
    (artifact : name ≠ "artifactId") (text : String) (e : Element) :
    SameCoordinates e (e.setChildText name text) where
  localName := localName_of_name (name_setChildText name text e)
  groupId := childText?_setChildText group plain text e
  artifactId := childText?_setChildText artifact plain text e

end SameCoordinates

end Coordinates

/-- The version that an entry is pinned to, if the upgrade table has it. -/
def pinVersion? (s : UpgradeSettings) (e : Element) : Option String :=
  (pinning? s e).map (·.version)

theorem pinVersion?_eq (s : UpgradeSettings) (e : Element) :
    pinVersion? s e =
      if e.isNamed "dependency" then
        (e.childText? "groupId").bind fun groupId =>
          (e.childText? "artifactId").bind fun artifactId => s.pinned? groupId artifactId
      else none := by
  unfold pinVersion? pinning?
  split
  · cases e.childText? "groupId" with
    | none => rfl
    | some groupId =>
      cases e.childText? "artifactId" with
      | none => rfl
      | some artifactId => cases h : s.pinned? groupId artifactId <;> simp [h]
  · rfl

theorem pinEntry_eq (s : UpgradeSettings) (e : Element) :
    pinEntry s e =
      match pinVersion? s e with
      | some version => e.setChildText "version" version
      | none => e := by
  unfold pinEntry pinVersion?
  cases pinning? s e <;> rfl

theorem pinVersion?_of_sameCoordinates (h : SameCoordinates e e') :
    pinVersion? s e' = pinVersion? s e := by
  simp only [pinVersion?_eq, isNamed_of_localName h.localName, h.groupId, h.artifactId]

theorem pinVersion?_normal {version : String} (h : pinVersion? s e.normal = some version) :
    pinVersion? s e = some version := by
  rw [pinVersion?_eq] at h ⊢
  simp only [isNamed_of_localName (localName_normal e), childText?_normal] at h
  split at h
  · rename_i named
    rw [if_pos named]
    obtain ⟨groupId, group, h⟩ := Option.bind_eq_some_iff.1 h
    obtain ⟨artifactId, artifact, h⟩ := Option.bind_eq_some_iff.1 h
    rw [(Option.filter_eq_some_iff.1 group).1, (Option.filter_eq_some_iff.1 artifact).1]
    exact h
  · cases h

def mapEntries (h : Element → Element) (e : Element) : Element :=
  if e.isNamed "dependencies" then { e with children := e.children.map h } else e

/-- Where all lists of dependencies are changed, an element is if its parent is such a list. -/
theorem mapEntries_mapDescendants (h : Element → Element) (e : Element) :
    mapEntries h (e.mapDescendants fun _ => mapEntries h) =
      { e with
        children := e.children.map fun c =>
          (if e.isNamed "dependencies" then h else id)
            (mapEntries h (c.mapDescendants fun _ => mapEntries h)) } := by
  have same : Element.isNamed "dependencies" (e.mapDescendants fun _ => mapEntries h) =
      e.isNamed "dependencies" := by
    rw [Element.mapDescendants_const]
    rfl
  rw [mapEntries, same, Element.mapDescendants_const]
  cases e.isNamed "dependencies" with
  | false => rfl
  | true => simp only [if_true, List.map_map, Function.comp_def]

/-- `e` with all lists of dependencies pinned that it is or contains. -/
@[irreducible]
def pinWithin (s : UpgradeSettings) (e : Element) : Element :=
  pinEntries s (e.mapDescendants fun _ => pinEntries s)

/-- What pinning makes of a child, where that is an entry if its parent is a list of them. -/
def pinChild (s : UpgradeSettings) (inList : Bool) (e : Element) : Element :=
  if inList then pinEntry s (pinWithin s e) else pinWithin s e

theorem mapDescendants_pinEntries (s : UpgradeSettings) (e : Element) :
    (e.mapDescendants fun _ => pinEntries s) =
      { e with children := e.children.map (pinWithin s) } := by
  rw [Element.mapDescendants_const]
  refine congrArg (fun cs => { e with children := cs }) ?_
  apply List.map_congr_left
  intro c _
  rw [pinWithin]

theorem pinWithin_eq (s : UpgradeSettings) (e : Element) :
    pinWithin s e =
      { e with children := e.children.map (pinChild s (e.isNamed "dependencies")) } := by
  have entries : pinEntries s = mapEntries (pinEntry s) := rfl
  rw [pinWithin, entries, mapEntries_mapDescendants]
  refine congrArg (fun cs => { e with children := cs }) (List.map_congr_left fun c _ => ?_)
  cases e.isNamed "dependencies" <;> rw [pinChild, pinWithin, entries] <;> rfl

theorem pinDependencies_eq (s : UpgradeSettings) (project : Element) :
    (pinDependencies s project).1 =
      { project with children := project.children.map (pinWithin s) } :=
  mapDescendants_pinEntries s project

@[simp]
theorem localName_pinWithin (s : UpgradeSettings) (e : Element) :
    (pinWithin s e).localName = e.localName := by
  rw [pinWithin_eq]
  rfl

@[simp]
theorem text_pinWithin (s : UpgradeSettings) (e : Element) : (pinWithin s e).text = e.text := by
  rw [pinWithin_eq]

theorem pinWithin_newChild (s : UpgradeSettings) (e : Element) (name : String) :
    pinWithin s (e.newChild name) = e.newChild name := by
  rw [pinWithin_eq]
  rfl

theorem name_pinEntry (s : UpgradeSettings) (e : Element) : (pinEntry s e).name = e.name := by
  rw [pinEntry_eq]
  split
  · exact name_setChildText _ _ e
  · rfl

theorem text_pinEntry (s : UpgradeSettings) (e : Element) : (pinEntry s e).text = e.text := by
  rw [pinEntry_eq]
  split
  · rw [Element.setChildText, updateChild_eq (by decide)]
  · rfl

theorem localName_pinChild (s : UpgradeSettings) (inList : Bool) (e : Element) :
    (pinChild s inList e).localName = e.localName := by
  unfold pinChild
  split
  · rw [localName_of_name (name_pinEntry s _), localName_pinWithin]
  · exact localName_pinWithin s e

theorem text_pinChild (s : UpgradeSettings) (inList : Bool) (e : Element) :
    (pinChild s inList e).text = e.text := by
  unfold pinChild
  split
  · rw [text_pinEntry, text_pinWithin]
  · exact text_pinWithin s e

theorem sameCoordinates_pinWithin (s : UpgradeSettings) (e : Element) :
    SameCoordinates e (pinWithin s e) := by
  rw [pinWithin_eq]
  exact .map (localName_pinChild s _) (text_pinChild s _) e

theorem pinChild_true (s : UpgradeSettings) (e : Element) :
    pinChild s true e =
      match pinVersion? s e with
      | some version => (pinWithin s e).setChildText "version" version
      | none => pinWithin s e := by
  have same := pinVersion?_of_sameCoordinates (s := s) (sameCoordinates_pinWithin s e)
  rw [pinChild, if_pos rfl, pinEntry_eq, same]

theorem sameCoordinates_pinChild (s : UpgradeSettings) (inList : Bool) (e : Element) :
    SameCoordinates e (pinChild s inList e) := by
  cases inList with
  | false => exact sameCoordinates_pinWithin s e
  | true =>
    rw [pinChild_true]
    split
    · exact (sameCoordinates_pinWithin s e).trans
        (.setChildText (by decide) (by decide) (by decide) _ _)
    · exact sameCoordinates_pinWithin s e

theorem normal_with_text (text : Option String) (e : Element) :
    Element.normal { e with text } = { e.normal with text := solidText? text } := by
  rw [Element.normal_eq, Element.normal_eq]

theorem pinWithin_with_text (s : UpgradeSettings) (text : Option String) (e : Element) :
    pinWithin s { e with text } = { pinWithin s e with text } := by
  rw [pinWithin_eq, pinWithin_eq]
  rfl

def IsPinned (s : UpgradeSettings) (e : Element) : Prop :=
  (pinWithin s e.normal).normal = e.normal

namespace IsPinned

theorem newChild (s : UpgradeSettings) (e : Element) (name : String) :
    IsPinned s (pinWithin s (e.newChild name)) := by
  have same : (e.newChild name).normal = e.newChild name := rfl
  rw [IsPinned, pinWithin_newChild, same, pinWithin_newChild, same]

theorem withText (h : IsPinned s e) (text : String) : IsPinned s (e.withText text) := by
  rw [IsPinned, Element.withText, normal_with_text, pinWithin_with_text, normal_with_text,
    solidText?_solidText?, h]

theorem withText_pinWithin (h : IsPinned s e) (text : String) :
    ((pinWithin s (e.withText text).normal).withText text).normal = (e.withText text).normal := by
  have again : (pinWithin s (e.withText text).normal).normal = (e.withText text).normal :=
    h.withText text
  rw [Element.withText, normal_with_text, again, Element.withText, normal_with_text]

end IsPinned

theorem isPinned_pinWithin
    (children : ∀ c ∈ e.children, ∀ inList,
      (pinChild s inList (pinChild s inList c).normal).normal = (pinChild s inList c).normal) :
    IsPinned s (pinWithin s e) := by
  have same : (pinWithin s e).normal.isNamed "dependencies" = e.isNamed "dependencies" :=
    isNamed_of_localName (by rw [localName_normal, localName_pinWithin]) _
  rw [IsPinned, pinWithin_eq s (pinWithin s e).normal, same, Element.normal_eq,
    Element.normal_eq (pinWithin s e)]
  have again : (((pinWithin s e).children.map Element.normal).map
      (pinChild s (e.isNamed "dependencies"))).map Element.normal =
        (pinWithin s e).children.map Element.normal := by
    rw [pinWithin_eq]
    simp only [List.map_map]
    apply List.map_congr_left
    intro c mem
    exact children c mem _
  simp only [again, solidText?_solidText?]

namespace IsPass

variable {names : List String} {special : Choice String} {g : Element → Element}

theorem pinWithin (pass : IsPass e names special g e') (noList : e.isNamed "dependencies" = false) :
    IsPass e names (special.andThen (pinWithin s)) (Descriptor.pinWithin s ∘ g)
      (Descriptor.pinWithin s e') := by
  have same : e'.isNamed "dependencies" = e.isNamed "dependencies" :=
    isNamed_of_localName (localName_of_name pass.name_eq) _
  rw [pinWithin_eq s e', same, noList]
  exact pass.map (localName_pinWithin s) (pinWithin_newChild s e)

theorem writing_pinWithin {texts : String → Option String}
    (pass : IsPass e names (writing id texts) id e') (noList : e.isNamed "dependencies" = false) :
    IsPass e names (writing (Descriptor.pinWithin s) texts) (Descriptor.pinWithin s)
      (Descriptor.pinWithin s e') := by
  have same : (writing id texts).andThen (Descriptor.pinWithin s) =
      writing (Descriptor.pinWithin s) texts := by
    funext name
    rw [Choice.andThen, writing, writing, Option.map_map]
    refine congrArg (fun f => (texts name).map f) ?_
    funext text c
    exact pinWithin_with_text s (some text) c
  have step := pass.pinWithin (s := s) noList
  rw [same] at step
  exact step

/--
A second pass that pins and sets texts changes nothing more, where each text is the same as before
or not set at all.
-/
theorem normal_of_writing {texts texts' : String → Option String} {names' : List String}
    {e'' : Element}
    (pass : IsPass e names (writing (Descriptor.pinWithin s) texts) (Descriptor.pinWithin s) e')
    (again : IsPass e'.normal names' (writing (Descriptor.pinWithin s) texts')
      (Descriptor.pinWithin s) e'')
    (plain : ∀ name ∈ names, ':' ∉ name.toList) (sub : ∀ name ∈ names', name ∈ names)
    (same : ∀ name, texts' name = texts name ∨ texts' name = none)
    (children : ∀ c ∈ e.children, IsPinned s (Descriptor.pinWithin s c)) :
    e''.normal = e'.normal := by
  have pinned : ∀ c ∈ completeAll e names e.children, IsPinned s (Descriptor.pinWithin s c) := by
    intro c mem
    rcases mem_completeAll mem with mem | ⟨name, -, rfl⟩
    · exact children c mem
    · exact .newChild s e name
  refine pass.normal_of_fixed plain again sub ?_ ?_ pinned
  · intro name missing
    have missing : texts name = none := by simpa [writing] using missing
    have missing' : texts' name = none := (same name).elim (·.trans missing) id
    rw [writing, missing', Option.map_none]
  · intro c mem f chosen
    obtain ⟨text, found, rfl⟩ := writing_eq_some chosen
    rcases same c.localName with found' | missing
    · rw [writing, found', found]
      exact (pinned c mem).withText_pinWithin text
    · rw [writing, missing]
      exact (pinned c mem).withText text

end IsPass

theorem noList_of_isNamed (named : e.isNamed name = true) (other : name ≠ "dependencies") :
    e.isNamed "dependencies" = false := by
  simp only [Element.isNamed, decide_eq_true_eq] at named
  simpa only [Element.isNamed, named, decide_eq_false_iff_not] using other

theorem isPass_pinWithin (noList : e.isNamed "dependencies" = false) :
    IsPass e [] (writing (pinWithin s) fun _ => none) (pinWithin s) (pinWithin s e) :=
  (IsPass.start e).writing_pinWithin noList

theorem pinChild_of_none (unfound : pinVersion? s e = none) :
    pinChild s true e = pinWithin s e := by
  rw [pinChild_true, unfound]

theorem isNamed_of_pinVersion? {version : String} (found : pinVersion? s e = some version) :
    e.isNamed "dependency" = true := by
  rw [pinVersion?_eq] at found
  split at found
  · assumption
  · cases found

theorem isPass_pinChild {version : String} (found : pinVersion? s e = some version) :
    IsPass e ["version"]
      (writing (pinWithin s) (Function.update (fun _ => none) "version" (some version)))
      (pinWithin s) (pinChild s true e) := by
  have noList := noList_of_isNamed (isNamed_of_pinVersion? found) (by decide)
  rw [pinChild_true, found]
  exact (isPass_pinWithin noList).setChildText "version" (by decide) (.inl rfl) version

/-- Pinned once, an entry is pinned to the same version, or not at all. -/
theorem pinVersion?_pinChild (s : UpgradeSettings) (e : Element) :
    pinVersion? s (pinChild s true e).normal = pinVersion? s e ∨
      pinVersion? s (pinChild s true e).normal = none := by
  cases found : pinVersion? s (pinChild s true e).normal with
  | none => exact .inr rfl
  | some version =>
    have same := pinVersion?_normal found
    rw [pinVersion?_of_sameCoordinates (sameCoordinates_pinChild s true e)] at same
    exact .inl same.symm

theorem pinChild_normal_of_some {version : String} (found : pinVersion? s e = some version)
    (children : ∀ c ∈ e.children, IsPinned s (pinWithin s c)) :
    (pinChild s true (pinChild s true e).normal).normal = (pinChild s true e).normal := by
  have pass := isPass_pinChild found
  rcases pinVersion?_pinChild s e with again | unfound
  · exact pass.normal_of_writing (isPass_pinChild (again.trans found)) (by decide)
      (fun _ mem => mem) (fun _ => .inl rfl) children
  · have named : (pinChild s true e).normal.isNamed "dependency" = true := by
      rw [← isNamed_of_pinVersion? found]
      exact isNamed_of_localName (by rw [localName_normal, localName_pinChild]) _
    rw [pinChild_of_none unfound]
    exact pass.normal_of_writing (isPass_pinWithin (noList_of_isNamed named (by decide)))
      (by decide) (by simp) (fun _ => .inr rfl) children

/-- Pinning what is pinned changes nothing, whether or not it is an entry of a list. -/
theorem pinChild_normal_pinChild (s : UpgradeSettings) (e : Element) (inList : Bool) :
    (pinChild s inList (pinChild s inList e).normal).normal = (pinChild s inList e).normal := by
  induction e using Element.inductionOnChildren generalizing inList with
  | step e ih =>
    have within : IsPinned s (pinWithin s e) := isPinned_pinWithin ih
    cases inList with
    | false => exact within
    | true =>
      cases found : pinVersion? s e with
      | some version => exact pinChild_normal_of_some found fun c mem => ih c mem false
      | none =>
        have still : pinVersion? s (pinChild s true e).normal = none :=
          (pinVersion?_pinChild s e).elim (·.trans found) id
        rw [pinChild_of_none found] at still ⊢
        rw [pinChild_of_none still]
        exact within

theorem IsPinned.pinWithin (s : UpgradeSettings) (e : Element) :
    IsPinned s (Descriptor.pinWithin s e) :=
  pinChild_normal_pinChild s e false

end JavaMigration.Descriptor
