import JavaMigration.Proofs.Descriptor.Pinning

/-!
# The import of the bill of materials

The entry for the bill of materials is found by its coordinates, which must not be lost where texts
are trimmed. Then the import that one upgrade leaves is the import that the next one makes.
-/

namespace JavaMigration.Descriptor

open Markup

variable {s : UpgradeSettings} {c : Coordinate} {e e' : Element}

structure IsSolid (text : String) : Prop where
  nonempty : text ≠ ""
  trimmed : Text.trim text = text

instance (text : String) : Decidable (IsSolid text) :=
  decidable_of_iff (text ≠ "" ∧ Text.trim text = text)
    ⟨fun ⟨h, h'⟩ => ⟨h, h'⟩, fun ⟨h, h'⟩ => ⟨h, h'⟩⟩

theorem childText?_normal_eq_some {name text : String} (solid : IsSolid text) :
    e.normal.childText? name = some text ↔ e.childText? name = some text := by
  rw [childText?_normal, Option.filter_eq_some_iff]
  simp [solid.nonempty]

theorem isEntryOf_of_sameCoordinates (h : SameCoordinates e e') :
    isEntryOf c e' = isEntryOf c e := by
  simp only [isEntryOf, isNamed_of_localName h.localName, h.groupId, h.artifactId]

theorem isEntryOf_normal (group : IsSolid c.groupId) (artifact : IsSolid c.artifactId)
    (e : Element) : isEntryOf c e.normal = isEntryOf c e := by
  simp only [isEntryOf, isNamed_of_localName (localName_normal e),
    childText?_normal_eq_some group, childText?_normal_eq_some artifact]

theorem sameCoordinates_asImport (c : Coordinate) (e : Element) :
    SameCoordinates e (asImport c e) :=
  (SameCoordinates.setChildText (by decide) (by decide) (by decide) c.version e).trans <|
    (SameCoordinates.setChildText (by decide) (by decide) (by decide) "pom" _).trans <|
      .setChildText (by decide) (by decide) (by decide) "import" _

theorem pinVersion?_of_isEntryOf (entry : isEntryOf c e = true) :
    pinVersion? s e = s.pinned? c.groupId c.artifactId := by
  simp only [isEntryOf, Bool.and_eq_true, decide_eq_true_eq] at entry
  obtain ⟨⟨named, group⟩, artifact⟩ := entry
  rw [pinVersion?_eq, if_pos named, group, artifact]
  rfl

def newEntry (c : Coordinate) (dependencies : Element) : Element :=
  (dependencies.newChild "dependency").setChildText "groupId" c.groupId
    |>.setChildText "artifactId" c.artifactId

theorem isEntryOf_newEntry (group : Text.trim c.groupId = c.groupId)
    (artifact : Text.trim c.artifactId = c.artifactId) (e : Element) :
    isEntryOf c (newEntry c e) = true := by
  have named : (newEntry c e).localName = "dependency" := by
    have new : (e.newChild "dependency").localName = "dependency" :=
      localName_newChild (by decide) e
    have same : (newEntry c e).name = (e.newChild "dependency").name := by
      rw [newEntry, name_setChildText, name_setChildText]
    exact (localName_of_name same).trans new
  have groupText : (newEntry c e).childText? "groupId" = some c.groupId := by
    rw [newEntry, childText?_setChildText (by decide) (by decide),
      childText?_setChildText_self (by decide), group]
  have artifactText : (newEntry c e).childText? "artifactId" = some c.artifactId := by
    rw [newEntry, childText?_setChildText_self (by decide), artifact]
  simp [isEntryOf, Element.isNamed, named, groupText, artifactText]

def importTexts (c : Coordinate) : String → Option String :=
  Function.update (Function.update (Function.update (fun _ => none) "version" (some c.version))
    "type" (some "pom")) "scope" (some "import")

theorem isPass_asImport (entry : isEntryOf c e = true) :
    IsPass e ["version", "type", "scope"] (writing (pinWithin s) (importTexts c)) (pinWithin s)
      (pinWithin s (asImport c e)) := by
  have named : e.isNamed "dependency" = true := by
    simp only [isEntryOf, Bool.and_eq_true] at entry
    exact entry.1.1
  have version := (IsPass.start_writing e).setChildText "version" (by decide) (.inl rfl) c.version
  have type := version.setChildText "type" (by decide) (.inl rfl) "pom"
  have scope := type.setChildText "scope" (by decide) (.inl rfl) "import"
  exact scope.writing_pinWithin (noList_of_isNamed named (by decide))

/-- What an import and pinning make of an entry, as a pass over its children. -/
theorem exists_isPass_pinned_asImport (s : UpgradeSettings) (c : Coordinate) :
    ∃ names texts, (∀ name ∈ names, ':' ∉ name.toList) ∧
      ∀ e, isEntryOf c e = true →
        IsPass e names (writing (pinWithin s) texts) (pinWithin s)
          (pinChild s true (asImport c e)) := by
  have version (e : Element) (entry : isEntryOf c e = true) :
      pinVersion? s (asImport c e) = s.pinned? c.groupId c.artifactId := by
    refine pinVersion?_of_isEntryOf ?_
    rw [isEntryOf_of_sameCoordinates (sameCoordinates_asImport c e), entry]
  cases pinned : s.pinned? c.groupId c.artifactId with
  | none =>
    refine ⟨["version", "type", "scope"], importTexts c, by decide, ?_⟩
    intro e entry
    rw [pinChild_of_none ((version e entry).trans pinned)]
    exact isPass_asImport entry
  | some v =>
    refine ⟨["version", "type", "scope"] ++ ["version"],
      Function.update (importTexts c) "version" (some v), by decide, ?_⟩
    intro e entry
    rw [pinChild_true, version e entry, pinned]
    exact (isPass_asImport entry).setChildText "version" (by decide)
      (.inr ⟨by decide, by decide⟩) v

theorem asImport_again (group : IsSolid c.groupId) (artifact : IsSolid c.artifactId)
    (entry : isEntryOf c e = true) :
    (pinChild s true (asImport c (pinChild s true (asImport c e)).normal)).normal =
      (pinChild s true (asImport c e)).normal := by
  obtain ⟨names, texts, plain, isPass⟩ := exists_isPass_pinned_asImport s c
  have entry' : isEntryOf c (pinChild s true (asImport c e)).normal = true := by
    rw [isEntryOf_normal group artifact,
      isEntryOf_of_sameCoordinates (sameCoordinates_pinChild s true _),
      isEntryOf_of_sameCoordinates (sameCoordinates_asImport c e), entry]
  exact (isPass e entry).normal_of_writing (isPass _ entry') plain (fun _ mem => mem)
    (fun _ => .inl rfl) fun d _ => .pinWithin s d

theorem importInto_eq (group : IsSolid c.groupId) (artifact : IsSolid c.artifactId) (e : Element) :
    importInto c e =
      { e with
        children := changeFirsts (isEntryOf c) (Choice.plain.set true (asImport c)) id
          (complete (isEntryOf c) true (newEntry c e) e.children) } := by
  have asKind : (fun x => decide (isEntryOf c x = true)) = isEntryOf c := by
    funext x
    exact Bool.decide_eq_true
  have changed := modifyFirstWhere_complete
    (isEntryOf_newEntry group.trimmed artifact.trimmed e) (asImport c) e.children
  have pass := modifyFirstWhere_changeFirsts (f := asImport c)
    (KeepsKind.plain fun x => (rfl : isEntryOf c (id x) = isEntryOf c x)) true
    (complete (isEntryOf c) true (newEntry c e) e.children)
  rw [changeFirsts_plain, List.map_id] at pass
  rw [pass, asKind] at changed
  refine Eq.trans ?_ (congrArg (fun cs => { e with children := cs }) changed).symm
  unfold importInto
  split
  · rfl
  · rfl

theorem localName_importInto (c : Coordinate) (e : Element) :
    (importInto c e).localName = e.localName := by
  unfold importInto
  split <;> rfl

theorem pinWithin_importInto (group : IsSolid c.groupId) (artifact : IsSolid c.artifactId)
    (named : e.isNamed "dependencies" = true) :
    pinWithin s (importInto c e) =
      { e with
        children := changeFirsts (isEntryOf c)
          (Choice.plain.set true (pinChild s true ∘ asImport c)) (pinChild s true)
          (complete (isEntryOf c) true (newEntry c e) e.children) } := by
  have named' : (importInto c e).isNamed "dependencies" = true := by
    rw [isNamed_of_localName (localName_importInto c e), named]
  rw [pinWithin_eq, named', importInto_eq group artifact, map_changeFirsts, Choice.andThen_set,
    Choice.andThen_plain, Function.comp_id]

/-- A list of dependencies to which the import was added is left as it is by the next upgrade. -/
theorem importInto_again (group : IsSolid c.groupId) (artifact : IsSolid c.artifactId)
    (named : e.isNamed "dependencies" = true) :
    (pinWithin s (importInto c (pinWithin s (importInto c e)).normal)).normal =
      (pinWithin s (importInto c e)).normal := by
  have keeps : KeepsKind (isEntryOf c) (Choice.plain.set true (pinChild s true ∘ asImport c))
      (pinChild s true) := by
    refine (KeepsKind.plain ?_).set ?_
    · intro x
      exact isEntryOf_of_sameCoordinates (sameCoordinates_pinChild s true x)
    · intro x entry
      exact (isEntryOf_of_sameCoordinates
        ((sameCoordinates_asImport c x).trans (sameCoordinates_pinChild s true _))).trans entry
  have keeps' := keeps.andThen (isEntryOf_normal group artifact)
  have named' : (pinWithin s (importInto c e)).normal.isNamed "dependencies" = true := by
    rw [← named]
    refine isNamed_of_localName ?_ _
    rw [localName_normal, localName_pinWithin, localName_importInto]
  have children : (pinWithin s (importInto c e)).normal.children =
      changeFirsts (isEntryOf c)
        ((Choice.plain.set true (pinChild s true ∘ asImport c)).andThen Element.normal)
        (Element.normal ∘ pinChild s true)
        (complete (isEntryOf c) true (newEntry c e) e.children) := by
    rw [Element.children_normal, pinWithin_importInto group artifact named, map_changeFirsts]
  have present : ((pinWithin s (importInto c e)).normal.children.any fun x =>
      decide (isEntryOf c x = true)) = true := by
    rw [children, any_kind_changeFirsts keeps']
    exact any_complete_self (isEntryOf_newEntry group.trimmed artifact.trimmed e) e.children
  rw [pinWithin_importInto group artifact named']
  apply normal_with_children
  rw [map_changeFirsts, complete_of_any present, children]
  refine changeFirsts_of_fixed keeps' (fun _ missing => missing) ?_ ?_
  · intro x mem f found
    cases entry : isEntryOf c x with
    | false =>
      rw [entry] at found
      cases found
    | true =>
      rw [entry] at found
      cases found
      exact asImport_again group artifact entry
  · intro x mem
    exact pinChild_normal_pinChild s x true

def importManaged (c : Coordinate) (management : Element) : Element :=
  management.updateChild "dependencies" (importInto c)

theorem isPass_importManaged (c : Coordinate) (noList : e.isNamed "dependencies" = false) :
    IsPass e ["dependencies"] (Choice.plain.set "dependencies" (pinWithin s ∘ importInto c))
      (pinWithin s) (pinWithin s (importManaged c e)) := by
  have step := (IsPass.start e).updateChild (f := importInto c) "dependencies" (by decide)
    (.inl rfl) (localName_importInto c)
  have pinned := step.pinWithin (s := s) noList
  rw [Choice.andThen_set] at pinned
  exact pinned

theorem importManaged_again (group : IsSolid c.groupId) (artifact : IsSolid c.artifactId)
    (noList : e.isNamed "dependencies" = false) :
    (pinWithin s (importManaged c (pinWithin s (importManaged c e)).normal)).normal =
      (pinWithin s (importManaged c e)).normal := by
  have pass := isPass_importManaged (s := s) c noList
  have noList' := (pass.isNamed_normal "dependencies").trans noList
  refine pass.normal_again (isPass_importManaged c noList') (by decide) ?_
    (IsPinned.pinWithin s)
  intro d f chosen
  rcases Choice.of_set chosen with ⟨named, rfl⟩ | chosen
  · exact importInto_again group artifact (decide_eq_true named)
  · cases chosen

end JavaMigration.Descriptor
