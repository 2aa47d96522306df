import JavaMigration.Proofs.Descriptor.Guarantees
import JavaMigration.Proofs.Descriptor.Targets

/-!
# The listed dependencies of a project

The dependencies that the upgrade table has, over all lists below an element and in document order.
Setting properties, putting in a parent and importing a bill of materials that the table lacks leave
them as they are, and pinning changes each of them in its place.
-/

namespace JavaMigration.Descriptor

open Markup

variable {s : UpgradeSettings} {f g : Element → Element} {e c : Element} {cs : List Element}
  {name : String}

def listedEntries (s : UpgradeSettings) (e : Element) : List Element :=
  if e.isNamed "dependencies" then e.children.filter (isListed s) else []

/-- The listed entries of all lists below `e`, list by list in document order. -/
def listed (s : UpgradeSettings) (e : Element) : List Element :=
  e.descendants.flatMap (listedEntries s)

def listedWithin (s : UpgradeSettings) (e : Element) : List Element :=
  listedEntries s e ++ listed s e

theorem listed_eq (s : UpgradeSettings) (e : Element) :
    listed s e = e.children.flatMap (listedWithin s) := by
  rw [listed, Element.descendants_eq, List.flatMap_assoc]
  rfl

theorem listedWithin_of_noList (noList : e.isNamed "dependencies" = false) :
    listedWithin s e = listed s e := by
  rw [listedWithin, listedEntries, noList]
  exact List.nil_append _

theorem listedWithin_of_localName (named : e.localName = name) (other : name ≠ "dependencies") :
    listedWithin s e = listed s e := by
  apply listedWithin_of_noList
  simpa only [Element.isNamed, named, decide_eq_false_iff_not] using other

theorem listed_newChild (s : UpgradeSettings) (e : Element) (name : String) :
    listed s (e.newChild name) = [] :=
  listed_eq s _

theorem listedWithin_newChild (s : UpgradeSettings) (e : Element) (name : String) :
    listedWithin s (e.newChild name) = [] := by
  rw [listedWithin, listed_newChild, listedEntries]
  split <;> rfl

theorem listedWithin_withText (s : UpgradeSettings) (text : String) (e : Element) :
    listedWithin s (e.withText text) = listedWithin s e := by
  rw [listedWithin, listed_eq, listedWithin, listed_eq s e]
  rfl

theorem flatMap_modifyFirst {F : Element → List Element}
    (same : ∀ c, c.isNamed name = true → F (f c) = F (g c)) (cs : List Element) :
    (Element.modifyFirst name f cs).flatMap F = (Element.modifyFirst name g cs).flatMap F := by
  induction cs with
  | nil => rfl
  | cons c cs ih =>
    by_cases named : c.isNamed name = true
    · simp only [Element.modifyFirst, if_pos named, List.flatMap_cons, same c named]
    · simp only [Element.modifyFirst, if_neg named, List.flatMap_cons, ih]

theorem flatMap_modifyFirstWhere {p : Element → Bool} {F : Element → List Element}
    (same : ∀ c, p c = true → F (f c) = F c) (cs : List Element) :
    (modifyFirstWhere p f cs).flatMap F = cs.flatMap F := by
  induction cs with
  | nil => rfl
  | cons c cs ih =>
    by_cases here : p c = true
    · rw [modifyFirstWhere_cons_of_pos here, List.flatMap_cons, List.flatMap_cons, same c here]
    · rw [modifyFirstWhere_cons_of_neg here, List.flatMap_cons, List.flatMap_cons, ih]

/-- Where a child is new it has nothing listed, and where it is not, `g` leaves the same. -/
theorem listed_updateChild_of_modifyChild
    (same : ∀ c, c.isNamed name = true → listedWithin s (f c) = listedWithin s (g c))
    (new : listedWithin s (f (e.newChild name)) = []) :
    listed s (e.updateChild name f) = listed s (e.modifyChild name g) := by
  rw [listed_eq, listed_eq]
  unfold Element.updateChild
  split
  · exact flatMap_modifyFirst same e.children
  · rename_i missing
    rw [modifyChild_of_none missing, Element.push, List.flatMap_append, List.flatMap_singleton,
      new, List.append_nil]

theorem listed_modifyChild
    (same : ∀ c, c.isNamed name = true → listedWithin s (f c) = listedWithin s c) (e : Element) :
    listed s (e.modifyChild name f) = listed s e := by
  rw [listed_eq, listed_eq, Element.modifyChild, modifyFirst_eq]
  exact flatMap_modifyFirstWhere same e.children

theorem listed_updateChild (plain : ':' ∉ name.toList)
    (same : ∀ c, c.isNamed name = true → listedWithin s (f c) = listedWithin s c) (e : Element) :
    listed s (e.updateChild name f) = listed s e := by
  have named : (e.newChild name).isNamed name = true := by
    simp [Element.isNamed, localName_newChild plain]
  have new : listedWithin s (f (e.newChild name)) = [] :=
    (same _ named).trans (listedWithin_newChild s e name)
  exact (listed_updateChild_of_modifyChild (fun _ _ => rfl) new).trans (listed_modifyChild same e)

theorem listed_setChildText (plain : ':' ∉ name.toList) (text : String) (e : Element) :
    listed s (e.setChildText name text) = listed s e :=
  listed_updateChild plain (fun c _ => listedWithin_withText s text c) e

theorem listed_withCoordinate (c : Coordinate) (e : Element) :
    listed s (withCoordinate c e) = listed s e := by
  simp only [withCoordinate]
  rw [listed_setChildText (by decide), listed_setChildText (by decide),
    listed_setChildText (by decide)]

theorem listedWithin_newCoordinate (plain : ':' ∉ name.toList) (other : name ≠ "dependencies")
    (c : Coordinate) (e : Element) : listedWithin s (withCoordinate c (e.newChild name)) = [] := by
  rw [listedWithin_of_localName (localName_withCoordinate c _)
    (by rwa [localName_newChild plain]), listed_withCoordinate, listed_newChild]

theorem listed_installParent (s : UpgradeSettings) (project : Element) :
    listed s (installParent s project) = listed s (orphaned project) := by
  have new : listedWithin s (parentFor s project) = [] :=
    listedWithin_newCoordinate (by decide) (by decide) s.parent project
  have whole : installParent s project = (orphaned project).insertFirst (parentFor s project) := rfl
  rw [whole, listed_eq, listed_eq, Element.insertFirst, List.flatMap_cons, new, List.nil_append]

theorem isListed_of_isEntryOf {bom : Coordinate}
    (foreign : s.pinned? bom.groupId bom.artifactId = none) (entry : isEntryOf bom e = true) :
    isListed s e = false := by
  rw [isListed_eq, pinVersion?_of_isEntryOf entry, foreign]
  rfl

theorem listedWithin_asImport {bom : Coordinate} (entry : isEntryOf bom e = true) :
    listedWithin s (asImport bom e) = listedWithin s e := by
  have dependency : e.localName = "dependency" := by
    simp only [isEntryOf, Bool.and_eq_true, Element.isNamed, decide_eq_true_eq] at entry
    exact entry.1.1
  have same : (asImport bom e).localName = "dependency" :=
    (sameCoordinates_asImport bom e).localName.trans dependency
  rw [listedWithin_of_localName same (by decide), listedWithin_of_localName dependency (by decide)]
  simp only [asImport]
  rw [listed_setChildText (by decide), listed_setChildText (by decide),
    listed_setChildText (by decide)]

/-- What a bill of materials has to be like for its import to be no listed dependency. -/
structure IsForeign (s : UpgradeSettings) (bom : Coordinate) : Prop where
  group : Text.trim bom.groupId = bom.groupId
  artifact : Text.trim bom.artifactId = bom.artifactId
  unpinned : s.pinned? bom.groupId bom.artifactId = none

theorem listedWithin_importInto {bom : Coordinate} (foreign : IsForeign s bom)
    (list : e.isNamed "dependencies" = true) :
    listedWithin s (importInto bom e) = listedWithin s e := by
  have hidden (c : Element) (entry : isEntryOf bom c = true) : isListed s c = false :=
    isListed_of_isEntryOf foreign.unpinned entry
  have kept (c : Element) (entry : isEntryOf bom c = true) :
      isEntryOf bom (asImport bom c) = true :=
    (isEntryOf_asImport bom c).trans entry
  have list' : (importInto bom e).isNamed "dependencies" = true :=
    (isNamed_of_localName (localName_importInto bom e) _).trans list
  rw [listedWithin, listedEntries, if_pos list', listed_eq, listedWithin, listedEntries,
    if_pos list, listed_eq s e]
  unfold importInto
  split
  · refine congrArg₂ (· ++ ·) ?_ (flatMap_modifyFirstWhere (fun c => listedWithin_asImport) _)
    have gone := filter_map_modifyFirstWhere (f := asImport bom) (g := id)
      (fun c entry => ⟨hidden _ (kept c entry), hidden c entry⟩) e.children
    simpa only [List.map_id] using gone
  · have new : isEntryOf bom (newEntry bom e) = true :=
      isEntryOf_newEntry foreign.group foreign.artifact e
    have named : (newEntry bom e).localName = "dependency" := by
      simp only [isEntryOf, Bool.and_eq_true, Element.isNamed, decide_eq_true_eq] at new
      exact new.1.1
    have bare : listedWithin s (asImport bom (newEntry bom e)) = [] := by
      rw [listedWithin_asImport new, listedWithin_of_localName named (by decide), newEntry,
        listed_setChildText (by decide), listed_setChildText (by decide), listed_newChild]
    change (e.children ++ [asImport bom (newEntry bom e)]).filter _ ++
      (e.children ++ [asImport bom (newEntry bom e)]).flatMap _ = _
    rw [List.filter_append, List.filter_cons_of_neg (by simp [hidden _ (kept _ new)]),
      List.filter_nil, List.append_nil, List.flatMap_append, List.flatMap_singleton, bare,
      List.append_nil]

theorem listedWithin_importManaged {bom : Coordinate} (foreign : IsForeign s bom)
    (named : e.isNamed "dependencyManagement" = true) :
    listedWithin s (importManaged bom e) = listedWithin s e := by
  have noList := noList_of_isNamed named (by decide)
  have kept := isNamed_of_localName
    (localName_of_name (name_updateChild "dependencies" (importInto bom) e)) "dependencies"
  rw [listedWithin_of_noList (e := importManaged bom e) (kept.trans noList),
    listedWithin_of_noList noList]
  exact listed_updateChild (by decide) (fun _ list => listedWithin_importInto foreign list) e

theorem listed_importBom (foreign : IsForeign s s.bom) (project : Element) :
    listed s (importBom s project) = listed s project :=
  listed_updateChild (by decide) (fun _ named => listedWithin_importManaged foreign named) project

theorem listed_setProperties (plain : ∀ key ∈ s.javaProperties, ':' ∉ key.toList) (e : Element) :
    listed s (setProperties s e).1 = listed s e := by
  have java (keys : List String) (plain : ∀ key ∈ keys, ':' ∉ key.toList) (e : Element) :
      listed s (setJavaProperties s.targetJavaVersion keys e).1 = listed s e := by
    induction keys generalizing e with
    | nil => rfl
    | cons key keys ih =>
      refine (ih (fun key mem => plain key (List.mem_cons_of_mem _ mem)) _).trans ?_
      exact listed_setChildText (plain key List.mem_cons_self) s.targetJavaVersion e
  have framework (overrides : List PropertyOverride) (e : Element) :
      listed s (setFrameworkProperties overrides e).1 = listed s e := by
    induction overrides generalizing e with
    | nil => rfl
    | cons o overrides ih =>
      simp only [setFrameworkProperties]
      split
      · exact ih e
      · refine (ih _).trans ?_
        exact listed_modifyChild (fun c _ => listedWithin_withText s o.value c) e
  exact (framework s.frameworkProperties _).trans (java s.javaProperties plain e)

theorem listedWithin_setProperties (plain : ∀ key ∈ s.javaProperties, ':' ∉ key.toList)
    (named : e.isNamed "properties" = true) :
    listedWithin s (setProperties s e).1 = listedWithin s e := by
  have noList := noList_of_isNamed named (by decide)
  have kept := isNamed_of_localName (localName_setProperties s e) "dependencies"
  rw [listedWithin_of_noList (kept.trans noList), listedWithin_of_noList noList,
    listed_setProperties plain]

theorem listed_upgradeProperties (plain : ∀ key ∈ s.javaProperties, ':' ∉ key.toList)
    (project : Element) : listed s (upgradeProperties s project).1 = listed s project :=
  listed_updateChild (by decide) (fun _ named => listedWithin_setProperties plain named) project

theorem listedEntries_pinWithin (s : UpgradeSettings) (e : Element) :
    listedEntries s (pinWithin s e) = (listedEntries s e).map (pinChild s true) := by
  have same : isListed s ∘ pinChild s true = isListed s := by
    funext c
    exact isListed_of_sameCoordinates (sameCoordinates_pinChild s true c)
  rw [listedEntries, isNamed_of_localName (localName_pinWithin s e), listedEntries, pinWithin_eq]
  split
  · rename_i list
    rw [list, List.filter_map, same]
  · rfl

theorem listedWithin_pinWithin (below : listed s (pinWithin s e) =
    (listed s e).map (pinChild s true)) :
    listedWithin s (pinWithin s e) = (listedWithin s e).map (pinChild s true) := by
  rw [listedWithin, listedEntries_pinWithin, below, listedWithin, List.map_append]

theorem listed_pinWithin (s : UpgradeSettings) (e : Element) :
    listed s (pinWithin s e) = (listed s e).map (pinChild s true) := by
  induction e using Element.inductionOnChildren with
  | step e ih =>
    have within (c : Element) (mem : c ∈ e.children) :
        listedWithin s (pinWithin s c) = (listedWithin s c).map (pinChild s true) :=
      listedWithin_pinWithin (ih c mem)
    have child (c : Element) (mem : c ∈ e.children) (inList : Bool) :
        listedWithin s (pinChild s inList c) = (listedWithin s c).map (pinChild s true) := by
      cases inList with
      | false => exact within c mem
      | true =>
        cases found : pinVersion? s c with
        | none =>
          rw [pinChild_of_none found]
          exact within c mem
        | some version =>
          -- An entry that is pinned is no list itself.
          have noList := noList_of_isNamed (isNamed_of_pinVersion? found)
            (by decide : "dependency" ≠ "dependencies")
          have noList' : (pinChild s true c).isNamed "dependencies" = false :=
            (isNamed_of_localName (localName_pinChild s true c) _).trans noList
          rw [listedWithin_of_noList noList', listedWithin_of_noList noList, pinChild_true, found]
          exact (listed_setChildText (by decide) version _).trans (ih c mem)
    rw [listed_eq, pinWithin_eq, List.flatMap_map, listed_eq s e, List.map_flatMap]
    exact List.flatMap_congr fun c mem => child c mem _

theorem listed_pinDependencies (s : UpgradeSettings) (project : Element) :
    listed s (pinDependencies s project).1 = (listed s project).map (pinChild s true) := by
  rw [pinDependencies_eq, listed_eq, List.flatMap_map, listed_eq s project, List.map_flatMap]
  exact List.flatMap_congr fun c _ => listedWithin_pinWithin (listed_pinWithin s c)

theorem listedWithin_configure (s' : UpgradeSettings) (processors : List Coordinate)
    (named : e.localName = "configuration") :
    listedWithin s (configure s' processors e) = listedWithin s e := by
  have paths (c : Element) (named : c.isNamed "annotationProcessorPaths" = true) :
      listedWithin s (addProcessors processors c) = listedWithin s c := by
    have noList := noList_of_isNamed named (by decide)
    have new : (processors.map fun p => withCoordinate p (c.newChild "path")).flatMap
        (listedWithin s) = [] := by
      simp [List.flatMap_map, listedWithin_newCoordinate]
    rw [listedWithin_of_noList noList, listedWithin_of_noList (e := addProcessors _ _) noList,
      listed_eq, addProcessors, List.flatMap_append, new, List.append_nil, listed_eq]
  have args (c : Element) (named : c.isNamed "compilerArgs" = true) :
      listedWithin s (addArguments s'.compilerPlugin.compilerArgs c) = listedWithin s c := by
    have noList := noList_of_isNamed named (by decide)
    have new : (s'.compilerPlugin.compilerArgs.map fun arg => c.newTextChild "arg" arg).flatMap
        (listedWithin s) = [] := by
      have leaf (arg : String) : listedWithin s (c.newTextChild "arg" arg) = [] :=
        (listedWithin_withText s arg (c.newChild "arg")).trans (listedWithin_newChild s c "arg")
      simp [List.flatMap_map, leaf]
    rw [listedWithin_of_noList noList, listedWithin_of_noList (e := addArguments _ _) noList,
      listed_eq, addArguments, List.flatMap_append, new, List.append_nil, listed_eq]
  have kept : (configure s' processors e).localName = "configuration" :=
    (localName_of_name (name_configure s' processors e)).trans named
  rw [listedWithin_of_localName kept (by decide), listedWithin_of_localName named (by decide),
    configure_eq, listed_updateChild (by decide) args, listed_updateChild (by decide) paths,
    configureTarget, listed_setChildText (by decide), listed_setChildText (by decide),
    listed_setChildText (by decide), listed_setChildText (by decide)]

theorem listedWithin_pluginFor (s' : UpgradeSettings) (processors : List Coordinate)
    (e : Element) : listedWithin s (pluginFor s' processors e) = [] := by
  have named : (pluginFor s' processors e).localName = "plugin" := by
    rw [localName_of_name (name_pluginFor s' processors e), localName_newChild (by decide)]
  rw [listedWithin_of_localName named (by decide), pluginFor, listed_updateChild (by decide) _,
    listed_withCoordinate, listed_newChild]
  intro c named
  exact listedWithin_configure s' processors (by simpa [Element.isNamed] using named)

def dropPlugins (s : UpgradeSettings) (project : Element) : Element :=
  project.modifyChild "build" fun build =>
    build.modifyChild "plugins" fun plugins => plugins.removeChildren (isCompilerPlugin s)

theorem listed_installPlugin (s : UpgradeSettings) (processors : List Coordinate)
    (project : Element) :
    listed s (installPlugin s processors project) = listed s (dropPlugins s project) := by
  have plugins (p : Element) (named : p.isNamed "plugins" = true) :
      listedWithin s (replacePlugin s processors p) =
        listedWithin s (p.removeChildren (isCompilerPlugin s)) := by
    have noList := noList_of_isNamed named (by decide)
    rw [listedWithin_of_noList (e := replacePlugin _ _ _) noList,
      listedWithin_of_noList (e := p.removeChildren _) noList, listed_eq, listed_eq, replacePlugin,
      Element.replaceChildren, Element.push, List.flatMap_append, List.flatMap_singleton,
      listedWithin_pluginFor, List.append_nil]
  have noPlugins (build : Element) :
      listedWithin s (replacePlugin s processors (build.newChild "plugins")) = [] := by
    rw [plugins _ (by simp [Element.isNamed, localName_newChild])]
    exact listedWithin_newChild s build "plugins"
  have builds (b : Element) (named : b.isNamed "build" = true) :
      listedWithin s (configureBuild s processors b) =
        listedWithin s (b.modifyChild "plugins" fun plugins =>
          plugins.removeChildren (isCompilerPlugin s)) := by
    have noList := noList_of_isNamed named (by decide)
    have kept := isNamed_of_localName
      (localName_of_name (name_updateChild "plugins" (replacePlugin s processors) b)) "dependencies"
    rw [listedWithin_of_noList (e := configureBuild _ _ _) (kept.trans noList),
      listedWithin_of_noList (e := b.modifyChild _ _) noList]
    exact listed_updateChild_of_modifyChild plugins (noPlugins b)
  refine listed_updateChild_of_modifyChild builds ?_
  refine (builds _ (by simp [Element.isNamed, localName_newChild])).trans ?_
  exact listedWithin_newChild s project "build"

theorem modifyFirst_map {h : Element → Element}
    (kept : ∀ c : Element, (h c).localName = c.localName)
    (swap : ∀ c, c.isNamed name = true → f (h c) = h (f c)) (cs : List Element) :
    Element.modifyFirst name f (cs.map h) = (Element.modifyFirst name f cs).map h := by
  induction cs with
  | nil => rfl
  | cons c cs ih =>
    by_cases named : c.isNamed name = true
    · have named' : (h c).isNamed name = true := (isNamed_of_localName (kept c) name).trans named
      simp only [List.map_cons, Element.modifyFirst, if_pos named, if_pos named', swap c named]
    · have named' : ¬ (h c).isNamed name = true := by rwa [isNamed_of_localName (kept c) name]
      simp only [List.map_cons, Element.modifyFirst, if_neg named, if_neg named', ih]

theorem flatMap_modifyFirst_other {name' : String} (other : name ≠ name')
    {F : Element → List Element} (kept : ∀ c : Element, (f c).localName = c.localName)
    (same : ∀ c, c.isNamed name = true → F (f c) = F c) (cs : List Element) :
    (Element.modifyFirst name' g (Element.modifyFirst name f cs)).flatMap F =
      (Element.modifyFirst name' g cs).flatMap F := by
  induction cs with
  | nil => rfl
  | cons c cs ih =>
    by_cases named : c.isNamed name = true
    · have apart : ¬ c.isNamed name' = true := by
        simp only [Element.isNamed, decide_eq_true_eq] at named ⊢
        exact fun named' => other (named.symm.trans named')
      have apart' : ¬ (f c).isNamed name' = true := by
        rwa [isNamed_of_localName (kept c) name']
      simp only [Element.modifyFirst, if_pos named, if_neg apart, if_neg apart', List.flatMap_cons,
        same c named]
    · by_cases named' : c.isNamed name' = true
      · have rest : (Element.modifyFirst name f cs).flatMap F = cs.flatMap F := by
          rw [modifyFirst_eq]
          exact flatMap_modifyFirstWhere same cs
        simp only [Element.modifyFirst, if_neg named, if_pos named', List.flatMap_cons, rest]
      · simp only [Element.modifyFirst, if_neg named, if_neg named', List.flatMap_cons, ih]

theorem modifyFirst_append_of_other {new : Element} (other : new.isNamed name = false)
    (cs : List Element) :
    Element.modifyFirst name f (cs ++ [new]) = Element.modifyFirst name f cs ++ [new] := by
  induction cs with
  | nil => simp [Element.modifyFirst, other]
  | cons c cs ih =>
    by_cases named : c.isNamed name = true
    · simp only [List.cons_append, Element.modifyFirst, if_pos named]
    · simp only [List.cons_append, Element.modifyFirst, if_neg named, ih]

/-- What is listed apart from the compiler plugins is left alone by a step that leaves all of it. -/
theorem listed_dropPlugins_updateChild (plain : ':' ∉ name.toList) (other : name ≠ "build")
    (kept : ∀ c : Element, (f c).localName = c.localName)
    (same : ∀ c, c.isNamed name = true → listedWithin s (f c) = listedWithin s c) (e : Element) :
    listed s (dropPlugins s (e.updateChild name f)) = listed s (dropPlugins s e) := by
  rw [listed_eq, listed_eq]
  unfold Element.updateChild
  split
  · exact flatMap_modifyFirst_other other kept same e.children
  · have named : (f (e.newChild name)).localName = name :=
      (kept _).trans (localName_newChild plain e)
    have apart : (f (e.newChild name)).isNamed "build" = false := by
      simpa only [Element.isNamed, named, decide_eq_false_iff_not] using other
    have new : listedWithin s (f (e.newChild name)) = [] := by
      rw [same _ (by simp [Element.isNamed, localName_newChild plain])]
      exact listedWithin_newChild s e name
    change (Element.modifyFirst _ _ (e.children ++ [f (e.newChild name)])).flatMap _ = _
    rw [modifyFirst_append_of_other apart, List.flatMap_append, List.flatMap_singleton, new,
      List.append_nil]
    rfl

theorem pinWithin_of_noList (noList : e.isNamed "dependencies" = false) :
    pinWithin s e = { e with children := e.children.map (pinWithin s) } := by
  rw [pinWithin_eq, noList]
  rfl

theorem dropPlugins_pinDependencies (s : UpgradeSettings) (project : Element) :
    dropPlugins s (pinDependencies s project).1 =
      (pinDependencies s (dropPlugins s project)).1 := by
  have plugins (p : Element) (named : p.isNamed "plugins" = true) :
      (pinWithin s p).removeChildren (isCompilerPlugin s) =
        pinWithin s (p.removeChildren (isCompilerPlugin s)) := by
    have noList := noList_of_isNamed named (by decide)
    rw [pinWithin_of_noList noList, pinWithin_of_noList (e := p.removeChildren _) noList]
    refine congrArg (fun cs => { p with children := cs }) ?_
    simp only [Element.removeChildren, List.filter_map, Function.comp_def,
      isCompilerPlugin_pinWithin]
  have builds (b : Element) (named : b.isNamed "build" = true) :
      (pinWithin s b).modifyChild "plugins" (·.removeChildren (isCompilerPlugin s)) =
        pinWithin s (b.modifyChild "plugins" (·.removeChildren (isCompilerPlugin s))) := by
    have noList := noList_of_isNamed named (by decide)
    rw [pinWithin_of_noList noList, pinWithin_of_noList (e := b.modifyChild _ _) noList]
    exact congrArg (fun cs => { b with children := cs })
      (modifyFirst_map (f := (·.removeChildren (isCompilerPlugin s))) (localName_pinWithin s)
        plugins b.children)
  rw [pinDependencies_eq, pinDependencies_eq]
  exact congrArg (fun cs => { project with children := cs })
    (modifyFirst_map (f := (·.modifyChild "plugins" (·.removeChildren (isCompilerPlugin s))))
      (localName_pinWithin s) builds project.children)

/-- The part of a project that an upgrade leaves in the end. -/
def remaining (s : UpgradeSettings) : Strategy → Element → Element
  | .parentInheritance => orphaned
  | .bomImport => dropPlugins s

def pinnedPart : Strategy → Element → Element
  | .parentInheritance => orphaned
  | .bomImport => id

theorem listed_wired (foreign : IsForeign s s.bom)
    (plain : ∀ key ∈ s.javaProperties, ':' ∉ key.toList) (strategy : Strategy) (project : Element) :
    listed s (upgradeProperties s (wirePlatform s strategy project)).1 =
      listed s (pinnedPart strategy project) := by
  rw [listed_upgradeProperties plain]
  cases strategy with
  | parentInheritance => exact listed_installParent s project
  | bomImport => exact listed_importBom foreign project

/-- The listed dependencies of an upgraded project are those of the part that is left, pinned. -/
theorem listed_upgradeRoot (foreign : IsForeign s s.bom)
    (plain : ∀ key ∈ s.javaProperties, ':' ∉ key.toList) (strategy : Strategy)
    (processors : List Coordinate) (project : Element) :
    listed s (upgradeRoot s strategy processors project) =
      (listed s (remaining s strategy project)).map (pinChild s true) := by
  cases strategy with
  | parentInheritance =>
    have wired := listed_wired foreign plain .parentInheritance project
    exact (listed_pinDependencies s _).trans (congrArg (List.map _) wired)
  | bomImport =>
    have managed := listed_dropPlugins_updateChild (e := project) (by decide) (by decide)
      (fun c => localName_of_name (name_updateChild "dependencies" (importInto s.bom) c))
      fun _ named => listedWithin_importManaged foreign named
    have properties := listed_dropPlugins_updateChild (e := importBom s project) (by decide)
      (by decide) (localName_setProperties s) fun _ named => listedWithin_setProperties plain named
    rw [upgradeRoot, listed_installPlugin, upgradeCommon, dropPlugins_pinDependencies,
      listed_pinDependencies]
    exact congrArg (List.map _) (properties.trans managed)

end JavaMigration.Descriptor
