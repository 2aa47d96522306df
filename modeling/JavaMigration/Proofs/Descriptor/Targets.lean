import JavaMigration.Proofs.Descriptor.Project
import JavaMigration.Proofs.Descriptor.Reduction
import Mathlib.Data.List.Dedup

/-!
# The targets of an upgrade

An upgrade sets properties and versions, puts in a parent, or an import and a plugin, and changes
nothing else. Where these targets are erased, together with the sections that are empty without
them, an upgraded document is the same as before.
-/

namespace JavaMigration.Descriptor

open Markup Reduction

variable {s : UpgradeSettings} {strategy : Strategy} {processors : List Coordinate} {e e' : Element}

def isListed (s : UpgradeSettings) (e : Element) : Bool :=
  e.isNamed "dependency" &&
    ((e.childText? "groupId").bind fun groupId =>
      (e.childText? "artifactId").bind fun artifactId => s.pinned? groupId artifactId).isSome

def withoutVersion (s : UpgradeSettings) (e : Element) : Element :=
  if isListed s e then reduce [.away "version"] e else e

def eraseVersions (s : UpgradeSettings) : Element → Element :=
  mapEntries (withoutVersion s)

def propertyKeys (s : UpgradeSettings) : List String :=
  s.javaProperties ++ s.frameworkProperties.map (·.key)

def eraseProperties (s : UpgradeSettings) : Element → Element :=
  reduce ((propertyKeys s).dedup.map .away)

def eraseImport (s : UpgradeSettings) (strategy : Strategy) : Element → Element :=
  reduce [.inside "dependencies" fun dependencies =>
    dependencies.removeChildren fun c => decide (strategy = .bomImport) && isEntryOf s.bom c]

def erasePlugin (s : UpgradeSettings) (strategy : Strategy) : Element → Element :=
  reduce [.inside "plugins" fun plugins =>
    plugins.removeChildren fun c => decide (strategy = .bomImport) && isCompilerPlugin s c]

def sections (s : UpgradeSettings) (strategy : Strategy) : List Reduction :=
  [.inside "properties" (eraseProperties s),
    .inside "dependencyManagement" (eraseImport s strategy),
    .inside "build" (erasePlugin s strategy)]

/-- The project without all that an upgrade of this strategy is after. -/
def eraseTargets (s : UpgradeSettings) (strategy : Strategy) (project : Element) : Element :=
  (reduce (sections s strategy) (project.mapDescendants fun _ => eraseVersions s)).removeChildren
    fun c => decide (strategy = .parentInheritance) && c.isNamed "parent"

theorem isListed_eq (s : UpgradeSettings) (e : Element) :
    isListed s e = (pinVersion? s e).isSome := by
  rw [isListed, pinVersion?_eq]
  cases e.isNamed "dependency" <;> rfl

theorem isListed_of_sameCoordinates (h : SameCoordinates e e') : isListed s e' = isListed s e := by
  rw [isListed_eq, isListed_eq, pinVersion?_of_sameCoordinates h]

theorem independent_version : Independent [.away "version"] :=
  independent_away (List.nodup_singleton "version")

theorem childText?_reduce_version {name : String} (other : "version" ≠ name) (e : Element) :
    (reduce [.away "version"] e).childText? name = e.childText? name := by
  have same : (reduce [.away "version"] e).child? name = e.child? name :=
    Reduction.find?_run (r := .away "version") other nofun e.children
  rw [Element.childText?, same, Element.childText?]

theorem sameCoordinates_withoutVersion (s : UpgradeSettings) (e : Element) :
    SameCoordinates e (withoutVersion s e) := by
  unfold withoutVersion
  split
  · exact ⟨rfl, childText?_reduce_version (by decide) e, childText?_reduce_version (by decide) e⟩
  · exact ⟨rfl, rfl, rfl⟩

theorem text_withoutVersion (s : UpgradeSettings) (e : Element) :
    (withoutVersion s e).text = e.text := by
  unfold withoutVersion
  split <;> rfl

@[irreducible]
def eraseWithin (s : UpgradeSettings) (e : Element) : Element :=
  eraseVersions s (e.mapDescendants fun _ => eraseVersions s)

def eraseChild (s : UpgradeSettings) (inList : Bool) (e : Element) : Element :=
  if inList then withoutVersion s (eraseWithin s e) else eraseWithin s e

theorem eraseWithin_eq (s : UpgradeSettings) (e : Element) :
    eraseWithin s e = mapChildren (eraseChild s (e.isNamed "dependencies")) e := by
  rw [eraseWithin, eraseVersions, mapEntries_mapDescendants]
  refine congrArg (fun cs => { e with children := cs }) (List.map_congr_left fun c _ => ?_)
  cases e.isNamed "dependencies" <;> rw [eraseChild, eraseWithin, eraseVersions] <;> rfl

theorem eraseWithin_of_noList (noList : e.isNamed "dependencies" = false) :
    eraseWithin s e = mapChildren (eraseWithin s) e := by
  rw [eraseWithin_eq, noList]
  rfl

theorem localName_eraseWithin (s : UpgradeSettings) (e : Element) :
    (eraseWithin s e).localName = e.localName := by
  rw [eraseWithin_eq]
  rfl

theorem eraseWithin_newChild (s : UpgradeSettings) (name : String) (e : Element) :
    eraseWithin s (e.newChild name) = e.newChild name := by
  rw [eraseWithin_eq]
  rfl

theorem localName_eraseChild (s : UpgradeSettings) (inList : Bool) (e : Element) :
    (eraseChild s inList e).localName = e.localName := by
  unfold eraseChild
  split
  · rw [(sameCoordinates_withoutVersion s _).localName, localName_eraseWithin]
  · exact localName_eraseWithin s e

theorem text_eraseChild (s : UpgradeSettings) (inList : Bool) (e : Element) :
    (eraseChild s inList e).text = e.text := by
  have within : (eraseWithin s e).text = e.text := by
    rw [eraseWithin_eq]
    rfl
  unfold eraseChild
  split
  · rw [text_withoutVersion, within]
  · exact within

theorem sameCoordinates_eraseWithin (s : UpgradeSettings) (e : Element) :
    SameCoordinates e (eraseWithin s e) := by
  rw [eraseWithin_eq]
  exact .map (localName_eraseChild s _) (text_eraseChild s _) e

theorem sameCoordinates_eraseChild (s : UpgradeSettings) (inList : Bool) (e : Element) :
    SameCoordinates e (eraseChild s inList e) := by
  cases inList with
  | false => exact sameCoordinates_eraseWithin s e
  | true =>
    exact (sameCoordinates_eraseWithin s e).trans (sameCoordinates_withoutVersion s _)

theorem withoutVersion_setVersion {version : String} (listed : isListed s e = true) :
    withoutVersion s (eraseWithin s (e.setChildText "version" version)) =
      withoutVersion s (eraseWithin s e) := by
  have noList : e.isNamed "dependencies" = false := by
    simp only [isListed, Bool.and_eq_true] at listed
    exact noList_of_isNamed listed.1 (by decide)
  have same : SameCoordinates e (e.setChildText "version" version) :=
    .setChildText (by decide) (by decide) (by decide) version e
  have noList' : (e.setChildText "version" version).isNamed "dependencies" = false := by
    rw [isNamed_of_localName same.localName, noList]
  have listed' : isListed s (eraseWithin s e) = true := by
    rw [isListed_of_sameCoordinates (sameCoordinates_eraseWithin s e), listed]
  have listed'' : isListed s (eraseWithin s (e.setChildText "version" version)) = true := by
    rw [isListed_of_sameCoordinates (same.trans (sameCoordinates_eraseWithin s _)), listed]
  rw [withoutVersion, if_pos listed'', withoutVersion, if_pos listed',
    eraseWithin_of_noList noList', eraseWithin_of_noList noList]
  exact reduce_updateChild independent_version (r := .away "version") (by simp) (by decide)
    (localName_eraseWithin s) (fun _ => rfl) (fun _ _ => rfl) rfl

/-- Where versions are erased, pinning cannot be seen. -/
theorem eraseChild_pinChild (s : UpgradeSettings) (e : Element) (inList : Bool) :
    eraseChild s inList (pinChild s inList e) = eraseChild s inList e := by
  induction e using Element.inductionOnChildren generalizing inList with
  | step e ih =>
    have within : eraseWithin s (pinWithin s e) = eraseWithin s e := by
      have same := isNamed_of_localName (localName_pinWithin s e) "dependencies"
      rw [eraseWithin_eq, same, pinWithin_eq, eraseWithin_eq s e, mapChildren, List.map_map]
      exact congrArg (fun cs => { e with children := cs })
        (List.map_congr_left fun c mem => ih c mem _)
    cases inList with
    | false => exact within
    | true =>
      simp only [eraseChild, if_true]
      rw [pinChild_true]
      cases found : pinVersion? s e with
      | none => exact congrArg (withoutVersion s) within
      | some version =>
        have listed : isListed s (pinWithin s e) = true := by
          rw [isListed_of_sameCoordinates (sameCoordinates_pinWithin s e), isListed_eq, found]
          rfl
        rw [withoutVersion_setVersion listed, within]

theorem eraseWithin_pinWithin (s : UpgradeSettings) (e : Element) :
    eraseWithin s (pinWithin s e) = eraseWithin s e :=
  eraseChild_pinChild s e false

theorem independent_properties (s : UpgradeSettings) :
    Independent ((propertyKeys s).dedup.map .away) :=
  independent_away (List.nodup_dedup _)

theorem away_mem_properties {key : String} (mem : key ∈ propertyKeys s) :
    Reduction.away key ∈ (propertyKeys s).dedup.map .away :=
  List.mem_map_of_mem (List.mem_dedup.2 mem)

theorem eraseProperties_setJavaProperties (target : String) {keys : List String}
    (sub : ∀ key ∈ keys, key ∈ propertyKeys s) (plain : ∀ key ∈ keys, ':' ∉ key.toList)
    (e : Element) :
    eraseProperties s (mapChildren (eraseWithin s) (setJavaProperties target keys e).1) =
      eraseProperties s (mapChildren (eraseWithin s) e) := by
  induction keys generalizing e with
  | nil => rfl
  | cons key keys ih =>
    have step := reduce_updateChild (g := Element.withText target) (e := e)
      (independent_properties s) (away_mem_properties (sub key (by simp))) (plain key (by simp))
      (localName_eraseWithin s) (fun _ => rfl) (fun _ _ => rfl) rfl
    exact (ih (fun key mem => sub key (by simp [mem])) (fun key mem => plain key (by simp [mem]))
      (e.setChildText key target)).trans step

theorem eraseProperties_setFrameworkProperties {overrides : List PropertyOverride}
    (sub : ∀ o ∈ overrides, o.key ∈ propertyKeys s) (e : Element) :
    eraseProperties s (mapChildren (eraseWithin s) (setFrameworkProperties overrides e).1) =
      eraseProperties s (mapChildren (eraseWithin s) e) := by
  induction overrides generalizing e with
  | nil => rfl
  | cons o overrides ih =>
    have ih := ih fun o mem => sub o (by simp [mem])
    cases found : e.child? o.key with
    | none =>
      simp only [setFrameworkProperties, found]
      exact ih e
    | some old =>
      have step := reduce_modifyChild (g := Element.withText o.value) (e := e)
        (independent_properties s) (away_mem_properties (sub o (by simp)))
        (localName_eraseWithin s) (fun _ => rfl) (fun _ _ => rfl)
      simp only [setFrameworkProperties, found]
      exact (ih (e.modifyChild o.key (Element.withText o.value))).trans step

theorem eraseProperties_setProperties (plain : ∀ key ∈ s.javaProperties, ':' ∉ key.toList)
    (noList : e.isNamed "dependencies" = false) :
    eraseProperties s (eraseWithin s (setProperties s e).1) =
      eraseProperties s (eraseWithin s e) := by
  have noList' : (setProperties s e).1.isNamed "dependencies" = false := by
    rw [isNamed_of_localName (localName_of_name (isPass_setProperties plain e).name_eq), noList]
  have java : ∀ key ∈ s.javaProperties, key ∈ propertyKeys s := by
    simp +contextual [propertyKeys]
  have framework : ∀ o ∈ s.frameworkProperties, o.key ∈ propertyKeys s := by
    intro o mem
    exact List.mem_append_right _ (List.mem_map_of_mem mem)
  rw [eraseWithin_of_noList noList', eraseWithin_of_noList noList]
  exact (eraseProperties_setFrameworkProperties framework _).trans
    (eraseProperties_setJavaProperties s.targetJavaVersion java plain e)

theorem filter_map_modifyFirstWhere {p q : Element → Bool} {f g : Element → Element}
    (hidden : ∀ c, p c = true → q (g (f c)) = false ∧ q (g c) = false) (cs : List Element) :
    ((modifyFirstWhere p f cs).map g).filter q = (cs.map g).filter q := by
  induction cs with
  | nil => rfl
  | cons c cs ih =>
    by_cases here : p c = true
    · obtain ⟨after, before⟩ := hidden c here
      rw [modifyFirstWhere_cons_of_pos here, List.map_cons, List.map_cons,
        List.filter_cons_of_neg (by simp [after]), List.filter_cons_of_neg (by simp [before])]
    · rw [modifyFirstWhere_cons_of_neg here, List.map_cons, List.map_cons, List.filter_cons,
        List.filter_cons, ih]

theorem removeChildren_importInto (group : Text.trim s.bom.groupId = s.bom.groupId)
    (artifact : Text.trim s.bom.artifactId = s.bom.artifactId)
    (list : e.isNamed "dependencies" = true) :
    (eraseWithin s (importInto s.bom e)).removeChildren (isEntryOf s.bom) =
      (eraseWithin s e).removeChildren (isEntryOf s.bom) := by
  have entry (c : Element) : isEntryOf s.bom (eraseChild s true c) = isEntryOf s.bom c :=
    isEntryOf_of_sameCoordinates (sameCoordinates_eraseChild s true c)
  have imported (c : Element) : isEntryOf s.bom (asImport s.bom c) = isEntryOf s.bom c :=
    isEntryOf_of_sameCoordinates (sameCoordinates_asImport s.bom c)
  rw [eraseWithin_eq, isNamed_of_localName (localName_importInto s.bom e), eraseWithin_eq, list]
  unfold importInto
  split
  · refine congrArg (fun cs => { e with children := cs }) (filter_map_modifyFirstWhere ?_ _)
    intro c here
    simp only [entry, imported, here, Bool.not_true, and_self]
  · have new : isEntryOf s.bom (eraseChild s true (asImport s.bom (newEntry s.bom e))) = true := by
      rw [entry, imported, isEntryOf_newEntry group artifact]
    refine congrArg (fun cs => { e with children := cs }) ?_
    change ((e.children ++ [asImport s.bom (newEntry s.bom e)]).map _).filter _ = _
    rw [List.map_append, List.filter_append, List.map_singleton,
      List.filter_cons_of_neg (by simp [new]), List.filter_nil, List.append_nil]
    rfl

theorem eraseImport_importManaged (group : Text.trim s.bom.groupId = s.bom.groupId)
    (artifact : Text.trim s.bom.artifactId = s.bom.artifactId)
    (noList : e.isNamed "dependencies" = false) :
    eraseImport s .bomImport (eraseWithin s (importManaged s.bom e)) =
      eraseImport s .bomImport (eraseWithin s e) := by
  have kept := localName_of_name (name_updateChild "dependencies" (importInto s.bom) e)
  have noList' : (importManaged s.bom e).isNamed "dependencies" = false :=
    (isNamed_of_localName kept _).trans noList
  rw [eraseWithin_of_noList noList', eraseWithin_of_noList noList]
  refine reduce_updateInside (independent_inside fun _ => rfl) (List.mem_singleton_self _)
    (by decide) (localName_eraseWithin s) (localName_importInto s.bom) ?_ ?_
  · intro c named
    exact removeChildren_importInto group artifact (decide_eq_true named)
  · rw [eraseWithin_newChild]
    exact isBare_newChild "dependencies" e

theorem removeChildren_replacePlugin
    (artifact : Text.trim s.compilerPlugin.artifactId = s.compilerPlugin.artifactId)
    (noList : e.isNamed "dependencies" = false) :
    (eraseWithin s (replacePlugin s processors e)).removeChildren (isCompilerPlugin s) =
      (eraseWithin s e).removeChildren (isCompilerPlugin s) := by
  have plugin (c : Element) : isCompilerPlugin s (eraseWithin s c) = isCompilerPlugin s c :=
    isCompilerPlugin_of_sameCoordinates (sameCoordinates_eraseWithin s c)
  have new : isCompilerPlugin s (eraseWithin s (pluginFor s processors e)) = true := by
    rw [plugin, isCompilerPlugin_pluginFor artifact]
  have noList' : (replacePlugin s processors e).isNamed "dependencies" = false := noList
  rw [eraseWithin_of_noList noList', eraseWithin_of_noList noList]
  refine congrArg (fun cs => { e with children := cs }) ?_
  change ((e.children.filter _ ++ [pluginFor s processors e]).map _).filter _ = _
  rw [List.map_append, List.filter_append, List.map_singleton,
    List.filter_cons_of_neg (by simp [new]), List.filter_nil, List.append_nil]
  have others : (e.children.map (eraseWithin s)).filter (fun c => !isCompilerPlugin s c) =
      (e.children.filter fun c => !isCompilerPlugin s c).map (eraseWithin s) := by
    simp only [List.filter_map, Function.comp_def, plugin]
  change _ = (e.children.map (eraseWithin s)).filter fun c => !isCompilerPlugin s c
  rw [others, List.filter_map]
  simp only [Function.comp_def, plugin, List.filter_filter, Bool.and_self]

theorem erasePlugin_configureBuild
    (artifact : Text.trim s.compilerPlugin.artifactId = s.compilerPlugin.artifactId)
    (noList : e.isNamed "dependencies" = false) :
    erasePlugin s .bomImport (eraseWithin s (configureBuild s processors e)) =
      erasePlugin s .bomImport (eraseWithin s e) := by
  have kept := localName_of_name (name_updateChild "plugins" (replacePlugin s processors) e)
  have noList' : (configureBuild s processors e).isNamed "dependencies" = false :=
    (isNamed_of_localName kept _).trans noList
  rw [eraseWithin_of_noList noList', eraseWithin_of_noList noList]
  refine reduce_updateInside (independent_inside fun _ => rfl) (List.mem_singleton_self _)
    (by decide) (localName_eraseWithin s) (localName_replacePlugin s processors) ?_ ?_
  · intro c named
    have named : c.isNamed "plugins" = true := decide_eq_true named
    exact removeChildren_replacePlugin artifact (noList_of_isNamed named (by decide))
  · rw [eraseWithin_newChild]
    exact isBare_newChild "plugins" e

theorem independent_sections (s : UpgradeSettings) (strategy : Strategy) :
    Independent (sections s strategy) where
  distinct := by
    have names : (sections s strategy).map (·.name) =
        ["properties", "dependencyManagement", "build"] := rfl
    rw [names]
    decide
  keepsName := by
    intro r mem
    simp only [sections, List.mem_cons, List.not_mem_nil, or_false] at mem
    rcases mem with rfl | rfl | rfl
    · exact keepsName_inside fun _ => rfl
    · exact keepsName_inside fun _ => rfl
    · exact keepsName_inside fun _ => rfl

theorem eraseTargets_eq (s : UpgradeSettings) (strategy : Strategy) (project : Element) :
    eraseTargets s strategy project =
      (reduce (sections s strategy) (mapChildren (eraseWithin s) project)).removeChildren
        fun c => decide (strategy = .parentInheritance) && c.isNamed "parent" := by
  have below : (project.mapDescendants fun _ => eraseVersions s) =
      mapChildren (eraseWithin s) project := by
    rw [Element.mapDescendants_const]
    refine congrArg (fun cs => { project with children := cs }) (List.map_congr_left fun c _ => ?_)
    rw [eraseWithin]
  rw [eraseTargets, below]

/-- A step that fills a section is not seen where that is taken from the section again. -/
theorem eraseTargets_updateChild {name : String} {f g : Element → Element}
    (mem : .inside name f ∈ sections s strategy) (plain : ':' ∉ name.toList)
    (kept : ∀ c, (g c).localName = c.localName)
    (absorbed : ∀ c, c.localName = name → f (eraseWithin s (g c)) = f (eraseWithin s c))
    (bare : ∀ c : Element, f (c.newChild name) = c.newChild name) (project : Element) :
    eraseTargets s strategy (project.updateChild name g) = eraseTargets s strategy project := by
  have gone : isBare (f (eraseWithin s (project.newChild name))) = true := by
    rw [eraseWithin_newChild, bare, isBare_newChild]
  rw [eraseTargets_eq, eraseTargets_eq, reduce_updateInside (independent_sections s strategy) mem
    plain (localName_eraseWithin s) kept absorbed gone]

theorem eraseTargets_importBom (group : Text.trim s.bom.groupId = s.bom.groupId)
    (artifact : Text.trim s.bom.artifactId = s.bom.artifactId) (project : Element) :
    eraseTargets s .bomImport (importBom s project) = eraseTargets s .bomImport project := by
  refine eraseTargets_updateChild (f := eraseImport s .bomImport) (by simp [sections]) (by decide)
    (fun c => localName_of_name (name_updateChild _ _ c)) ?_ (reduce_newChild _ _) project
  intro c named
  have named : c.isNamed "dependencyManagement" = true := decide_eq_true named
  exact eraseImport_importManaged group artifact (noList_of_isNamed named (by decide))

theorem eraseTargets_installPlugin
    (artifact : Text.trim s.compilerPlugin.artifactId = s.compilerPlugin.artifactId)
    (processors : List Coordinate) (project : Element) :
    eraseTargets s .bomImport (installPlugin s processors project) =
      eraseTargets s .bomImport project := by
  refine eraseTargets_updateChild (f := erasePlugin s .bomImport) (by simp [sections]) (by decide)
    (fun c => localName_of_name (name_updateChild _ _ c)) ?_ (reduce_newChild _ _) project
  intro c named
  have named : c.isNamed "build" = true := decide_eq_true named
  exact erasePlugin_configureBuild artifact (noList_of_isNamed named (by decide))

theorem eraseTargets_upgradeCommon (plain : ∀ key ∈ s.javaProperties, ':' ∉ key.toList)
    (project : Element) :
    eraseTargets s strategy (upgradeCommon s project) = eraseTargets s strategy project := by
  have pinned (project : Element) : eraseTargets s strategy (mapChildren (pinWithin s) project) =
      eraseTargets s strategy project := by
    have same : eraseWithin s ∘ pinWithin s = eraseWithin s := funext (eraseWithin_pinWithin s)
    rw [eraseTargets_eq, eraseTargets_eq, mapChildren, mapChildren, List.map_map, same]
    rfl
  rw [upgradeCommon_eq]
  refine (pinned _).trans (eraseTargets_updateChild (f := eraseProperties s) (by simp [sections])
    (by decide) ?_ ?_ (reduce_newChild _ _) project)
  · intro c
    exact localName_of_name (isPass_setProperties plain c).name_eq
  · intro c named
    have named : c.isNamed "properties" = true := decide_eq_true named
    exact eraseProperties_setProperties plain (noList_of_isNamed named (by decide))

theorem eraseTargets_installParent (s : UpgradeSettings) (project : Element) :
    eraseTargets s .parentInheritance (installParent s project) =
      eraseTargets s .parentInheritance project := by
  have spared : ∀ r ∈ sections s .parentInheritance, ∀ c : Element, c.localName = r.name →
      (!c.isNamed "parent") = true := by
    intro r mem c named
    simp only [sections, List.mem_cons, List.not_mem_nil, or_false] at mem
    rcases mem with rfl | rfl | rfl <;> simp [Element.isNamed, named, inside]
  have left (cs : List Element) := filter_runAll (independent_sections s .parentInheritance)
    (fun c d same => congrArg (! ·) (isNamed_of_localName same "parent")) spared cs
  have kept (c : Element) : (eraseWithin s c).isNamed "parent" = c.isNamed "parent" :=
    isNamed_of_localName (localName_eraseWithin s c) "parent"
  have new : (eraseWithin s (parentFor s project)).isNamed "parent" = true := by
    rw [kept, Element.isNamed, localName_parentFor]
    rfl
  have others : ((parentFor s project :: project.children.filter fun c => !c.isNamed "parent").map
      (eraseWithin s)).filter (fun c => !c.isNamed "parent") =
        (project.children.map (eraseWithin s)).filter fun c => !c.isNamed "parent" := by
    rw [List.map_cons, List.filter_cons_of_neg (by simp [new])]
    simp only [List.filter_map, Function.comp_def, kept, List.filter_filter, Bool.and_self]
  rw [eraseTargets_eq, eraseTargets_eq]
  refine congrArg (fun cs => { project with children := cs }) ?_
  exact (left _).trans ((congrArg (runAll _) others).trans (left _).symm)

theorem eraseTargets_upgradeRoot (plain : ∀ key ∈ s.javaProperties, ':' ∉ key.toList)
    (group : Text.trim s.bom.groupId = s.bom.groupId)
    (artifact : Text.trim s.bom.artifactId = s.bom.artifactId)
    (plugin : Text.trim s.compilerPlugin.artifactId = s.compilerPlugin.artifactId)
    (strategy : Strategy) (processors : List Coordinate) (project : Element) :
    eraseTargets s strategy (upgradeRoot s strategy processors project) =
      eraseTargets s strategy project := by
  cases strategy with
  | parentInheritance =>
    rw [upgradeRoot, eraseTargets_upgradeCommon plain, eraseTargets_installParent]
  | bomImport =>
    rw [upgradeRoot, eraseTargets_installPlugin plugin, eraseTargets_upgradeCommon plain,
      eraseTargets_importBom group artifact]

/-- An upgrade of a document changes nothing but its targets. -/
theorem upgradeDocument_selective (s : UpgradeSettings)
    (plain : ∀ key ∈ s.javaProperties, ':' ∉ key.toList)
    (group : Text.trim s.bom.groupId = s.bom.groupId)
    (artifact : Text.trim s.bom.artifactId = s.bom.artifactId)
    (plugin : Text.trim s.compilerPlugin.artifactId = s.compilerPlugin.artifactId)
    (strategy : Strategy) {d d' : Document} {changes : Changes}
    (upgraded : upgradeDocument s strategy d = .ok (d', changes)) :
    { d' with root := eraseTargets s strategy d'.root } =
      { d with root := eraseTargets s strategy d.root } := by
  rw [upgradeDocument_eq] at upgraded
  cases found : processorsFor s strategy with
  | error e =>
    rw [found] at upgraded
    cases upgraded
  | ok processors =>
    rw [found] at upgraded
    cases upgraded
    exact congrArg (fun root => { d with root })
      (eraseTargets_upgradeRoot plain group artifact plugin strategy processors d.root)

/-- A project with a prefix that keeps a property, a scope, a comment and a dependency. -/
theorem upgradeDocument_selective_prefixed :
    let unlisted : Element :=
      { name := "m:dependency", leading := [" kept "],
        children :=
          [{ name := "m:groupId", text := some "org.apache.commons" },
           { name := "m:artifactId", text := some "commons-lang3" },
           { name := "m:version", text := some "3.9" }] }
    let listed (version : List Element) : Element :=
      { name := "m:dependency",
        children :=
          [{ name := "m:groupId", text := some " org.projectlombok " },
           { name := "m:artifactId", text := some "lombok" }] ++ version ++
          [{ name := "m:scope", text := some "provided" }] }
    let kept : Element := { name := "m:skipTests", text := some "true" }
    let d : Document :=
      { root :=
          { name := "m:project",
            children :=
              [{ name := "m:properties",
                 children := [kept, { name := "m:java.version", text := some "8" }] },
               { name := "m:dependencies",
                 children := [listed [{ name := "m:version", text := some "1.18.20" }],
                   unlisted] }] } }
    ∃ d' changes, upgradeDocument .builtIn .bomImport d = .ok (d', changes) ∧
      eraseTargets .builtIn .bomImport d'.root =
        { name := "m:project",
          children :=
            [{ name := "m:properties", children := [kept] },
             { name := "m:dependencies", children := [listed [], unlisted] }] } := by
  intro unlisted listed kept d
  have found : processorsFor .builtIn .bomImport =
      .ok [⟨"org.projectlombok", "lombok", "1.18.36"⟩,
        ⟨"org.mapstruct", "mapstruct-processor", "1.5.5.Final"⟩] := by decide +kernel
  have upgraded := (upgradeDocument_eq .builtIn .bomImport d).trans (congrArg (Except.map _) found)
  have same := upgradeDocument_selective .builtIn (by decide) (by decide) (by decide) (by decide)
    .bomImport upgraded
  exact ⟨_, _, upgraded, (congrArg (·.root) same).trans (by decide +kernel)⟩

end JavaMigration.Descriptor
