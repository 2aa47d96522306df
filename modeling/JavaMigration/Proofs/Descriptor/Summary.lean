import JavaMigration.Proofs.Descriptor.Listing

/-!
# The summary of an upgrade

What an upgrade reports against what it has changed. Every reported dependency was there and is
pinned as reported, and every listed dependency that is left has its report. There is more in the
report than is left exactly where a compiler plugin with listed dependencies was replaced.
-/

namespace JavaMigration.Descriptor

open Markup

variable {s : UpgradeSettings} {f : Element → Element} {e c before after : Element}
  {cs : List Element} {name : String}

theorem flatMap_filter_sublist {F : Element → List Element} (p : Element → Bool)
    (cs : List Element) : ((cs.filter p).flatMap F).Sublist (cs.flatMap F) := by
  induction cs with
  | nil => exact .slnil
  | cons c cs ih =>
    by_cases kept : p c = true
    · rw [List.filter_cons_of_pos kept, List.flatMap_cons, List.flatMap_cons]
      exact (List.Sublist.refl (F c)).append ih
    · rw [List.filter_cons_of_neg kept, List.flatMap_cons]
      exact ih.trans (List.sublist_append_right ..)

theorem flatMap_filter_eq_iff {F : Element → List Element} {p : Element → Bool}
    {cs : List Element} :
    (cs.filter p).flatMap F = cs.flatMap F ↔ ∀ c ∈ cs, ¬ p c = true → F c = [] := by
  induction cs with
  | nil => simp
  | cons c cs ih =>
    rw [List.forall_mem_cons, ← ih]
    by_cases kept : p c = true
    · simp [List.filter_cons_of_pos kept, kept]
    · rw [List.filter_cons_of_neg kept, List.flatMap_cons]
      constructor
      · intro same
        have shorter := (flatMap_filter_sublist (F := F) p cs).length_le
        have total := congrArg List.length same
        rw [List.length_append] at total
        have empty : F c = [] := List.length_eq_zero_iff.1 (by omega)
        rw [empty, List.nil_append] at same
        exact ⟨fun _ => empty, same⟩
      · rintro ⟨empty, same⟩
        rw [empty kept, List.nil_append, same]

theorem flatMap_modifyFirst_sublist {F : Element → List Element}
    (less : ∀ c, c.isNamed name = true → (F (f c)).Sublist (F c)) (cs : List Element) :
    ((Element.modifyFirst name f cs).flatMap F).Sublist (cs.flatMap F) := by
  induction cs with
  | nil => exact .slnil
  | cons c cs ih =>
    by_cases named : c.isNamed name = true
    · simp only [Element.modifyFirst, if_pos named, List.flatMap_cons]
      exact (less c named).append (.refl _)
    · simp only [Element.modifyFirst, if_neg named, List.flatMap_cons]
      exact (List.Sublist.refl _).append ih

theorem flatMap_modifyFirst_eq_iff {F : Element → List Element} {cs : List Element} :
    (Element.modifyFirst name f cs).flatMap F = cs.flatMap F ↔
      ∀ c, cs.find? (Element.isNamed name) = some c → F (f c) = F c := by
  induction cs with
  | nil => simp [Element.modifyFirst]
  | cons c cs ih =>
    by_cases named : c.isNamed name = true
    · simp [Element.modifyFirst, named]
    · simp only [Element.modifyFirst, if_neg named, List.flatMap_cons, List.append_cancel_left_eq,
        ih, List.find?_cons_of_neg named]

theorem listed_orphaned_sublist (s : UpgradeSettings) (project : Element) :
    (listed s (orphaned project)).Sublist (listed s project) := by
  rw [listed_eq, listed_eq]
  exact flatMap_filter_sublist _ project.children

theorem listed_modifyChild_sublist
    (less : ∀ c, c.isNamed name = true → (listedWithin s (f c)).Sublist (listedWithin s c))
    (e : Element) : (listed s (e.modifyChild name f)).Sublist (listed s e) := by
  rw [listed_eq, listed_eq]
  exact flatMap_modifyFirst_sublist less e.children

theorem listed_modifyChild_eq_iff :
    listed s (e.modifyChild name f) = listed s e ↔
      ∀ c, e.child? name = some c → listedWithin s (f c) = listedWithin s c := by
  rw [listed_eq, listed_eq]
  exact flatMap_modifyFirst_eq_iff

theorem isNamed_of_child? (found : e.child? name = some c) : c.isNamed name = true :=
  List.find?_some found

theorem listed_dropPlugins_sublist (s : UpgradeSettings) (project : Element) :
    (listed s (dropPlugins s project)).Sublist (listed s project) := by
  refine listed_modifyChild_sublist ?_ project
  intro build named
  have noList := noList_of_isNamed named (by decide)
  rw [listedWithin_of_noList (e := build.modifyChild _ _) noList, listedWithin_of_noList noList]
  refine listed_modifyChild_sublist ?_ build
  intro plugins named
  have noList := noList_of_isNamed named (by decide)
  rw [listedWithin_of_noList (e := plugins.removeChildren _) noList, listedWithin_of_noList noList,
    listed_eq, listed_eq]
  exact flatMap_filter_sublist _ plugins.children

def replacedPlugins (s : UpgradeSettings) (project : Element) : List Element :=
  match (project.child? "build").bind (·.child? "plugins") with
  | some plugins => plugins.children.filter (isCompilerPlugin s)
  | none => []

theorem mem_replacedPlugins {project plugin : Element} :
    plugin ∈ replacedPlugins s project ↔
      ∃ build plugins, project.child? "build" = some build ∧
        build.child? "plugins" = some plugins ∧ plugin ∈ plugins.children ∧
          isCompilerPlugin s plugin = true := by
  unfold replacedPlugins
  split
  · rename_i plugins found
    obtain ⟨build, own, inner⟩ := Option.bind_eq_some_iff.1 found
    simp [own, inner]
  · rename_i missing
    simp only [List.not_mem_nil, false_iff]
    rintro ⟨build, plugins, own, inner, -⟩
    simp [own, inner] at missing

theorem listed_dropPlugins_eq_iff (s : UpgradeSettings) (project : Element) :
    listed s (dropPlugins s project) = listed s project ↔
      ∀ plugin ∈ replacedPlugins s project, listed s plugin = [] := by
  have plugins (p : Element) (named : p.isNamed "plugins" = true) :
      listedWithin s (p.removeChildren (isCompilerPlugin s)) = listedWithin s p ↔
        ∀ c ∈ p.children, isCompilerPlugin s c = true → listed s c = [] := by
    have noList := noList_of_isNamed named (by decide)
    rw [listedWithin_of_noList (e := p.removeChildren _) noList, listedWithin_of_noList noList,
      listed_eq, listed_eq]
    refine flatMap_filter_eq_iff.trans (forall₂_congr fun c _ => ?_)
    rw [Bool.not_eq_true', Bool.not_eq_false]
    refine forall_congr' fun compiles => ?_
    have named : c.isNamed "plugin" = true := by
      simp only [isCompilerPlugin, Bool.and_eq_true] at compiles
      exact compiles.1
    rw [listedWithin_of_noList (noList_of_isNamed named (by decide))]
  have builds (b : Element) (named : b.isNamed "build" = true) :
      listedWithin s (b.modifyChild "plugins" (·.removeChildren (isCompilerPlugin s))) =
          listedWithin s b ↔
        ∀ p, b.child? "plugins" = some p →
          ∀ c ∈ p.children, isCompilerPlugin s c = true → listed s c = [] := by
    have noList := noList_of_isNamed named (by decide)
    rw [listedWithin_of_noList (e := b.modifyChild _ _) noList, listedWithin_of_noList noList,
      listed_modifyChild_eq_iff]
    exact forall₂_congr fun p found => plugins p (isNamed_of_child? found)
  rw [dropPlugins, listed_modifyChild_eq_iff,
    forall₂_congr fun b found => builds b (isNamed_of_child? found)]
  simp only [mem_replacedPlugins]
  constructor
  · rintro none plugin ⟨build, plugins, own, inner, mem, compiles⟩
    exact none build own plugins inner plugin mem compiles
  · intro none build own plugins inner plugin mem compiles
    exact none plugin ⟨build, plugins, own, inner, mem, compiles⟩

/-- The change names the entry, its version text before, and its version after. -/
structure Reports (before after : Element) (change : DependencyChange) : Prop where
  groupId : after.childText? "groupId" = some change.groupId
  artifactId : after.childText? "artifactId" = some change.artifactId
  version : after.childText? "version" = some change.version
  previous : change.previous = (before.child? "version").bind (·.text)

theorem exists_pinning? (entry : isListed s e = true) :
    ∃ change, pinning? s e = some change ∧ e.childText? "groupId" = some change.groupId ∧
      e.childText? "artifactId" = some change.artifactId ∧
      s.pinned? change.groupId change.artifactId = some change.version ∧
      change.previous = (e.child? "version").bind (·.text) := by
  simp only [isListed, Bool.and_eq_true, Option.isSome_iff_exists] at entry
  obtain ⟨named, version, found⟩ := entry
  obtain ⟨groupId, group, found⟩ := Option.bind_eq_some_iff.1 found
  obtain ⟨artifactId, artifact, found⟩ := Option.bind_eq_some_iff.1 found
  refine ⟨⟨groupId, artifactId, (e.child? "version").bind (·.text), version⟩, ?_, group, artifact,
    found, rfl⟩
  simp [pinning?, named, group, artifact, found]

theorem pinning?_eq_none (other : ¬ isListed s e = true) : pinning? s e = none := by
  rw [isListed_eq, pinVersion?] at other
  simpa using other

theorem filterMap_pinning? (s : UpgradeSettings) (cs : List Element) :
    cs.filterMap (pinning? s) = (cs.filter (isListed s)).filterMap (pinning? s) := by
  induction cs with
  | nil => rfl
  | cons c cs ih =>
    by_cases entry : isListed s c = true
    · simp only [List.filter_cons_of_pos entry, List.filterMap_cons, ih]
    · rw [List.filter_cons_of_neg entry, List.filterMap_cons_none (pinning?_eq_none entry), ih]

/-- The steps of an upgrade report the listed entries of the tree that they pin. -/
theorem reported_eq (s : UpgradeSettings) (project : Element) :
    (pinDependencies s project).2 = (listed s project).filterMap (pinning? s) := by
  rw [pinDependencies, listed, List.filterMap_flatMap]
  refine List.flatMap_congr fun e _ => ?_
  rw [pinnings, listedEntries]
  split
  · exact filterMap_pinning? s e.children
  · rfl

theorem isListed_of_mem_listed (mem : c ∈ listed s e) : isListed s c = true := by
  obtain ⟨d, -, mem⟩ := List.mem_flatMap.1 mem
  unfold listedEntries at mem
  split at mem
  · exact (List.mem_filter.1 mem).2
  · cases mem

theorem reports_pinChild (trimmed : ∀ c ∈ s.dependencyUpgrades, Text.trim c.version = c.version)
    (entry : isListed s e = true) :
    ∃ change, pinning? s e = some change ∧ Reports e (pinChild s true e) change := by
  obtain ⟨change, found, group, artifact, pinned, previous⟩ := exists_pinning? entry
  have same := sameCoordinates_pinChild s true e
  have version : pinVersion? s e = some change.version := by
    rw [pinVersion?, found]
    rfl
  obtain ⟨c, mem, text⟩ := Option.map_eq_some_iff.1 pinned
  refine ⟨change, found, same.groupId.trans group, same.artifactId.trans artifact, ?_, previous⟩
  rw [pinChild_true, version]
  refine (childText?_setChildText_self (by decide) change.version _).trans ?_
  rw [← text, trimmed c (List.mem_of_find?_eq_some mem)]

/-- The reports of listed entries, in their order, are true of the entries after they are pinned. -/
theorem forall₂_reports (trimmed : ∀ c ∈ s.dependencyUpgrades, Text.trim c.version = c.version)
    (entries : ∀ c ∈ cs, isListed s c = true) :
    List.Forall₂ (fun e change => Reports e (pinChild s true e) change) cs
      (cs.filterMap (pinning? s)) := by
  induction cs with
  | nil => exact .nil
  | cons c cs ih =>
    obtain ⟨here, rest⟩ := List.forall_mem_cons.1 entries
    obtain ⟨change, found, reports⟩ := reports_pinChild trimmed here
    rw [List.filterMap_cons_some found]
    exact .cons reports (ih rest)

/--
The changes report the listed dependencies of the tree `after`, in its order: each is one of those
before, pinned, and has its one report.
-/
def IsFaithful (s : UpgradeSettings) (before after : Element) (changes : List DependencyChange) :
    Prop :=
  ∃ entries, entries.Sublist (listed s before) ∧
    listed s after = entries.map (pinChild s true) ∧
      List.Forall₂ (fun e change => Reports e (pinChild s true e) change) entries changes

/--
The changes name the properties that were set, in order and once each, with their texts before and
after, and all other properties are as they were, but for dependencies in them.
-/
structure ReportsProperties (s : UpgradeSettings) (before after : Element)
    (changes : List PropertyChange) : Prop where
  order : changes.map (·.key) = s.javaProperties ++
    (s.frameworkProperties.map (·.key)).filter fun key => (before.child? key).isSome
  distinct : (changes.map (·.key)).Nodup
  set : ∀ change ∈ changes, ∃ c, after.child? change.key = some c ∧ c.text = some change.value
  previous : ∀ change ∈ changes, change.previous = (before.child? change.key).bind (·.text)
  others : ∀ key, key ∉ changes.map (·.key) →
    after.child? key = (before.child? key).map (pinWithin s)

theorem child?_modifyChild {name' : String} (other : name' ≠ name)
    (kept : ∀ c : Element, (f c).localName = c.localName) (e : Element) :
    (e.modifyChild name' f).child? name = e.child? name := by
  rw [Element.modifyChild, modifyFirst_eq, Element.child?]
  apply find?_modifyFirstWhere
  intro c named
  have named : c.localName = name' := of_decide_eq_true named
  simp [Element.isNamed, kept, named, other]

theorem child?_setChildText {name' : String} (other : name' ≠ name) (plain : ':' ∉ name'.toList)
    (text : String) (e : Element) : (e.setChildText name' text).child? name = e.child? name :=
  child?_updateChild (f := Element.withText text) other plain (fun _ => rfl) e

theorem child?_setJavaProperties (target : String) {keys : List String} (other : name ∉ keys)
    (plain : ∀ key ∈ keys, ':' ∉ key.toList) (e : Element) :
    (setJavaProperties target keys e).1.child? name = e.child? name := by
  induction keys generalizing e with
  | nil => rfl
  | cons key keys ih =>
    obtain ⟨here, rest⟩ := List.forall_mem_cons.1 plain
    simp only [List.mem_cons, not_or] at other
    refine (ih other.2 rest _).trans ?_
    exact child?_setChildText (Ne.symm other.1) here target e

theorem changes_setJavaProperties (target : String) {keys : List String} (distinct : keys.Nodup)
    (plain : ∀ key ∈ keys, ':' ∉ key.toList) (e : Element) :
    (setJavaProperties target keys e).2 =
      keys.map fun key => ⟨key, (e.child? key).bind (·.text), target⟩ := by
  induction keys generalizing e with
  | nil => rfl
  | cons key keys ih =>
    obtain ⟨here, rest⟩ := List.forall_mem_cons.1 plain
    obtain ⟨fresh, distinct⟩ := List.nodup_cons.1 distinct
    simp only [setJavaProperties, List.map_cons]
    refine congrArg (List.cons _) ((ih distinct rest _).trans (List.map_congr_left ?_))
    intro key' mem
    have other : key ≠ key' := fun same => fresh (same ▸ mem)
    rw [child?_setChildText other here]

theorem changes_setFrameworkProperties {overrides : List PropertyOverride}
    (distinct : (overrides.map (·.key)).Nodup) (e : Element) :
    (setFrameworkProperties overrides e).2 =
      (overrides.filter fun o => (e.child? o.key).isSome).map fun o =>
        ⟨o.key, (e.child? o.key).bind (·.text), o.value⟩ := by
  induction overrides generalizing e with
  | nil => rfl
  | cons o overrides ih =>
    obtain ⟨fresh, distinct⟩ := List.nodup_cons.1 distinct
    cases found : e.child? o.key with
    | none =>
      simp only [setFrameworkProperties, found]
      rw [List.filter_cons_of_neg (by simp [found]), ih distinct]
    | some old =>
      have same (o' : PropertyOverride) (mem : o' ∈ overrides) :
          (e.modifyChild o.key (Element.withText o.value)).child? o'.key = e.child? o'.key := by
        have other : o.key ≠ o'.key := fun clash =>
          fresh (List.mem_map.2 ⟨o', mem, clash.symm⟩)
        exact child?_modifyChild (f := Element.withText o.value) other (fun _ => rfl) e
      simp only [setFrameworkProperties, found]
      rw [List.filter_cons_of_pos (by simp [found]), List.map_cons, found, ih distinct]
      refine congrArg (List.cons _) ?_
      rw [List.filter_congr fun o' mem => congrArg Option.isSome (same o' mem)]
      apply List.map_congr_left
      intro o' mem
      rw [same o' (List.mem_filter.1 mem).1]

theorem changes_setProperties (plain : ∀ key ∈ s.javaProperties, ':' ∉ key.toList)
    (distinct : (s.javaProperties ++ s.frameworkProperties.map (·.key)).Nodup) (e : Element) :
    (setProperties s e).2 =
      (s.javaProperties.map fun key => ⟨key, (e.child? key).bind (·.text), s.targetJavaVersion⟩) ++
        (s.frameworkProperties.filter fun o => (e.child? o.key).isSome).map fun o =>
          ⟨o.key, (e.child? o.key).bind (·.text), o.value⟩ := by
  obtain ⟨java, framework, apart⟩ := List.nodup_append.1 distinct
  have same (o : PropertyOverride) (mem : o ∈ s.frameworkProperties) :
      (setJavaProperties s.targetJavaVersion s.javaProperties e).1.child? o.key =
        e.child? o.key := by
    apply child?_setJavaProperties _ _ plain
    intro clash
    exact apart o.key clash o.key (List.mem_map_of_mem mem) rfl
  simp only [setProperties, changes_setJavaProperties _ java plain,
    changes_setFrameworkProperties framework]
  refine congrArg (_ ++ ·) ?_
  rw [List.filter_congr fun o mem => congrArg Option.isSome (same o mem)]
  apply List.map_congr_left
  intro o mem
  rw [same o (List.mem_filter.1 mem).1]

theorem override?_of_mem (distinct : (s.frameworkProperties.map (·.key)).Nodup)
    {o : PropertyOverride} (mem : o ∈ s.frameworkProperties) :
    override? s o.key = some o.value := by
  have found : ((s.frameworkProperties.reverse.find? fun o' => o'.key = o.key)).isSome = true := by
    rw [List.find?_isSome]
    exact ⟨o, List.mem_reverse.2 mem, by simp⟩
  obtain ⟨o', found⟩ := Option.isSome_iff_exists.1 found
  have there : o' ∈ s.frameworkProperties := List.mem_reverse.1 (List.mem_of_find?_eq_some found)
  have same : o'.key = o.key := by simpa using List.find?_some found
  rw [override?, found, List.inj_on_of_nodup_map distinct there mem same]
  rfl

theorem override?_eq_none {key : String} (absent : key ∉ s.frameworkProperties.map (·.key)) :
    override? s key = none := by
  rw [override?, Option.map_eq_none_iff, List.find?_eq_none]
  intro o mem clash
  exact absent (List.mem_map.2 ⟨o, List.mem_reverse.1 mem, by simpa using clash⟩)

structure IsReportable (s : UpgradeSettings) : Prop where
  foreign : IsForeign s s.bom
  plain : ∀ key ∈ s.javaProperties, ':' ∉ key.toList
  distinct : (s.javaProperties ++ s.frameworkProperties.map (·.key)).Nodup
  trimmed : ∀ c ∈ s.dependencyUpgrades, Text.trim c.version = c.version

section Properties

variable {key : String} (h : IsReportable s) (named : e.isNamed "properties" = true)

include h

theorem child?_pinned_setProperties (named : e.isNamed "properties" = true) (key : String) :
    (pinWithin s (setProperties s e).1).child? key =
      ((if key ∈ s.javaProperties then some (childOrNew key e) else e.child? key).map
        ((writing id (propertyTexts s) key).getD id)).map (pinWithin s) := by
  have noList : (setProperties s e).1.isNamed "dependencies" = false :=
    (isNamed_of_localName (localName_setProperties s e) _).trans
      (noList_of_isNamed named (by decide))
  rw [child?_pinWithin, noList, child?_setProperties h.plain]
  rfl

theorem propertyTexts_of_java (java : key ∈ s.javaProperties) :
    propertyTexts s key = some s.targetJavaVersion := by
  have unlisted : key ∉ s.frameworkProperties.map (·.key) := fun listed =>
    (List.nodup_append.1 h.distinct).2.2 key java key listed rfl
  rw [propertyTexts_eq, override?_eq_none unlisted, if_pos java]
  rfl

theorem propertyTexts_of_override {o : PropertyOverride} (listed : o ∈ s.frameworkProperties) :
    propertyTexts s o.key = some o.value := by
  rw [propertyTexts_eq, override?_of_mem (List.nodup_append.1 h.distinct).2.1 listed]
  rfl

include named

theorem exists_child?_of_java (java : key ∈ s.javaProperties) :
    ∃ c, (pinWithin s (setProperties s e).1).child? key = some c ∧
      c.text = some s.targetJavaVersion := by
  refine ⟨pinWithin s ((childOrNew key e).withText s.targetJavaVersion), ?_, text_pinWithin s _⟩
  rw [child?_pinned_setProperties h named, if_pos java, writing, propertyTexts_of_java h java]
  rfl

theorem exists_child?_of_override {o : PropertyOverride} (listed : o ∈ s.frameworkProperties)
    (declared : (e.child? o.key).isSome = true) :
    ∃ c, (pinWithin s (setProperties s e).1).child? o.key = some c ∧ c.text = some o.value := by
  have other : o.key ∉ s.javaProperties := fun java =>
    (List.nodup_append.1 h.distinct).2.2 o.key java o.key (List.mem_map_of_mem listed) rfl
  obtain ⟨old, found⟩ := Option.isSome_iff_exists.1 declared
  refine ⟨pinWithin s (old.withText o.value), ?_, text_pinWithin s _⟩
  rw [child?_pinned_setProperties h named, if_neg other, found, writing,
    propertyTexts_of_override h listed]
  rfl

theorem child?_of_unset (other : key ∉ s.javaProperties)
    (unset : key ∈ s.frameworkProperties.map (·.key) → e.child? key = none) :
    (pinWithin s (setProperties s e).1).child? key = (e.child? key).map (pinWithin s) := by
  rw [child?_pinned_setProperties h named, if_neg other]
  by_cases listed : key ∈ s.frameworkProperties.map (·.key)
  · rw [unset listed]
    rfl
  · have unwritten : writing id (propertyTexts s) key = none := by
      rw [writing, propertyTexts_eq, override?_eq_none listed, if_neg other]
      rfl
    rw [unwritten, Option.getD_none, Option.map_id]
    rfl

theorem reportsProperties_setProperties :
    ReportsProperties s e (pinWithin s (setProperties s e).1) (setProperties s e).2 := by
  have changes := changes_setProperties h.plain h.distinct e
  have order : (setProperties s e).2.map (·.key) = s.javaProperties ++
      (s.frameworkProperties.map (·.key)).filter fun key => (e.child? key).isSome := by
    rw [changes, List.map_append, List.map_map, List.map_map, List.filter_map]
    simp [Function.comp_def]
  have cases (change : PropertyChange) (mem : change ∈ (setProperties s e).2) :
      (∃ key ∈ s.javaProperties,
        change = ⟨key, (e.child? key).bind (·.text), s.targetJavaVersion⟩) ∨
      ∃ o ∈ s.frameworkProperties, (e.child? o.key).isSome = true ∧
        change = ⟨o.key, (e.child? o.key).bind (·.text), o.value⟩ := by
    rw [changes, List.mem_append, List.mem_map, List.mem_map] at mem
    rcases mem with ⟨key, java, rfl⟩ | ⟨o, kept, rfl⟩
    · exact .inl ⟨key, java, rfl⟩
    · exact .inr ⟨o, (List.mem_filter.1 kept).1, (List.mem_filter.1 kept).2, rfl⟩
  refine ⟨order, ?_, ?_, ?_, ?_⟩
  · rw [order]
    exact h.distinct.sublist ((List.Sublist.refl _).append List.filter_sublist)
  · intro change mem
    rcases cases change mem with ⟨key, java, rfl⟩ | ⟨o, listed, declared, rfl⟩
    · exact exists_child?_of_java h named java
    · exact exists_child?_of_override h named listed declared
  · intro change mem
    rcases cases change mem with ⟨key, -, rfl⟩ | ⟨o, -, -, rfl⟩
    · rfl
    · rfl
  · intro key unset
    rw [order, List.mem_append, not_or] at unset
    refine child?_of_unset h named unset.1 fun listed => ?_
    simpa [listed] using fun declared => unset.2 (List.mem_filter.2 ⟨listed, declared⟩)

end Properties

theorem isReportable_builtIn : IsReportable .builtIn where
  foreign := ⟨by decide, by decide, by decide⟩
  plain := by decide
  distinct := by decide
  trimmed := by decide

theorem dependencies_changesOf (h : IsReportable s) (strategy : Strategy) (project : Element) :
    (changesOf s strategy project).dependencies =
      (listed s (pinnedPart strategy project)).filterMap (pinning? s) := by
  rw [← listed_wired h.foreign h.plain strategy project]
  exact reported_eq s _

theorem forall₂_reports_changesOf (h : IsReportable s) (strategy : Strategy) (project : Element) :
    List.Forall₂ (fun e change => Reports e (pinChild s true e) change)
      (listed s (pinnedPart strategy project)) (changesOf s strategy project).dependencies := by
  rw [dependencies_changesOf h]
  exact forall₂_reports h.trimmed fun c mem => isListed_of_mem_listed mem

theorem listed_pinnedPart_sublist (s : UpgradeSettings) (strategy : Strategy) (project : Element) :
    (listed s (pinnedPart strategy project)).Sublist (listed s project) := by
  cases strategy with
  | parentInheritance => exact listed_orphaned_sublist s project
  | bomImport => exact .refl _

theorem listed_remaining_sublist (s : UpgradeSettings) (strategy : Strategy) (project : Element) :
    (listed s (remaining s strategy project)).Sublist
      (listed s (pinnedPart strategy project)) := by
  cases strategy with
  | parentInheritance => exact .refl _
  | bomImport => exact listed_dropPlugins_sublist s project

theorem listed_remaining_eq_iff (s : UpgradeSettings) (strategy : Strategy) (project : Element) :
    listed s (remaining s strategy project) = listed s (pinnedPart strategy project) ↔
      strategy = .parentInheritance ∨
        ∀ plugin ∈ replacedPlugins s project, listed s plugin = [] := by
  cases strategy with
  | parentInheritance => exact iff_of_true rfl (.inl rfl)
  | bomImport => exact (listed_dropPlugins_eq_iff s project).trans (by simp)

/-- The report is faithful exactly where what is left has as many listed dependencies as reports. -/
theorem isFaithful_iff (h : IsReportable s) (strategy : Strategy) (processors : List Coordinate)
    (project : Element) :
    IsFaithful s project (upgradeRoot s strategy processors project)
        (changesOf s strategy project).dependencies ↔
      strategy = .parentInheritance ∨
        ∀ plugin ∈ replacedPlugins s project, listed s plugin = [] := by
  have left := listed_upgradeRoot h.foreign h.plain strategy processors project
  have reports := forall₂_reports_changesOf h strategy project
  rw [← listed_remaining_eq_iff]
  constructor
  · rintro ⟨entries, -, same, faithful⟩
    apply (listed_remaining_sublist s strategy project).eq_of_length
    rw [left] at same
    have count := congrArg List.length same
    rw [List.length_map, List.length_map] at count
    rw [count, faithful.length_eq, reports.length_eq]
  · intro same
    refine ⟨_, listed_pinnedPart_sublist s strategy project, ?_, reports⟩
    rw [left, same]

theorem childOrNew_wirePlatform (s : UpgradeSettings) (strategy : Strategy) (project : Element) :
    childOrNew "properties" (wirePlatform s strategy project) =
      childOrNew "properties" project := by
  cases strategy with
  | parentInheritance =>
    have other : (parentFor s project).isNamed "properties" = false := by
      rw [Element.isNamed, localName_parentFor]
      decide
    have found : (installParent s project).child? "properties" = project.child? "properties" :=
      (List.find?_cons_of_neg (a := parentFor s project) (by simp [other])).trans
        (child?_orphaned (by decide) project)
    rw [wirePlatform, childOrNew, found]
    rfl
  | bomImport =>
    have kept (c : Element) : (importManaged s.bom c).localName = c.localName :=
      localName_of_name (name_updateChild _ _ c)
    have found : (importBom s project).child? "properties" = project.child? "properties" :=
      child?_updateChild (f := importManaged s.bom) (by decide) (by decide) kept project
    have new := newChild_of_name (name_updateChild "dependencyManagement" (importManaged s.bom)
      project) "properties"
    rw [wirePlatform, childOrNew, found, childOrNew]
    exact congrArg _ new

theorem reportsProperties_upgradeRoot (h : IsReportable s) (strategy : Strategy)
    (processors : List Coordinate) (project : Element) :
    ∃ properties,
      (upgradeRoot s strategy processors project).child? "properties" = some properties ∧
        ReportsProperties s (childOrNew "properties" project) properties
          (changesOf s strategy project).properties := by
  have named : (childOrNew "properties" project).isNamed "properties" = true := by
    rw [Element.isNamed, localName_childOrNew (by decide)]
    rfl
  have changes : (changesOf s strategy project).properties =
      (setProperties s (childOrNew "properties" project)).2 := by
    rw [← childOrNew_wirePlatform s strategy project]
    rfl
  refine ⟨_, child?_properties_upgradeRoot s strategy processors project, ?_⟩
  rw [changes]
  exact reportsProperties_setProperties h named

/--
What an upgrade with the built-in settings reports. Each listed dependency that it pins has one
report, in document order, and the report is true of it. The upgraded project has these dependencies
without those in replaced compiler plugins, so the reports are of what it has exactly where none of
those plugins has a listed dependency. The properties are reported as they were set.
-/
theorem summary_faithful_iff (strategy : Strategy) {xml : String} {d : Document}
    (read : Document.parse xml = .ok d) :
    ∃ y changes root properties, upgradeText .builtIn strategy xml = .ok (y, changes) ∧
      upgradeProject .builtIn strategy d.root = .ok (root, changes) ∧
      List.Forall₂ (fun e change => Reports e (pinChild .builtIn true e) change)
        (listed .builtIn (pinnedPart strategy d.root)) changes.dependencies ∧
      listed .builtIn root =
        (listed .builtIn (remaining .builtIn strategy d.root)).map (pinChild .builtIn true) ∧
      (IsFaithful .builtIn d.root root changes.dependencies ↔
        strategy = .parentInheritance ∨
          ∀ plugin ∈ replacedPlugins .builtIn d.root, listed .builtIn plugin = []) ∧
      root.child? "properties" = some properties ∧
      ReportsProperties .builtIn (childOrNew "properties" d.root) properties
        changes.properties := by
  obtain ⟨processors, found⟩ := exists_processors_builtIn strategy
  have h := isReportable_builtIn
  obtain ⟨properties, own, reports⟩ := reportsProperties_upgradeRoot h strategy processors d.root
  refine ⟨_, changesOf .builtIn strategy d.root, _, properties,
    upgradeText_eq_ok.2 ⟨d, processors, read, found, rfl, rfl⟩, ?_,
    forall₂_reports_changesOf h strategy d.root,
    listed_upgradeRoot h.foreign h.plain strategy processors d.root,
    isFaithful_iff h strategy processors d.root, own, reports⟩
  rw [upgradeProject_eq, found]
  rfl

/-- A project with a listed dependency within a parent, and one in a prefix with a version. -/
theorem summary_faithful_iff_parent :
    let x := "<m:project><parent><dependencies><dependency><groupId>com.google.guava</groupId>" ++
      "<artifactId>guava</artifactId></dependency></dependencies></parent>" ++
      "<m:dependencies><m:dependency><m:groupId>org.projectlombok</m:groupId>" ++
      "<m:artifactId> lombok </m:artifactId><m:version>1.18.20</m:version></m:dependency>" ++
      "</m:dependencies></m:project>"
    ∃ d y changes root, Document.parse x = .ok d ∧
      upgradeText .builtIn .parentInheritance x = .ok (y, changes) ∧
      upgradeProject .builtIn .parentInheritance d.root = .ok (root, changes) ∧
      IsFaithful .builtIn d.root root changes.dependencies ∧ changes.dependencies.length = 1 := by
  intro x
  let listed (p groupId artifactId : String) (version : List Element) : Element :=
    { name := p ++ "dependencies",
      children :=
        [{ name := p ++ "dependency",
           children :=
            [{ name := p ++ "groupId", text := some groupId },
             { name := p ++ "artifactId", text := some artifactId }] ++ version }] }
  let d : Document :=
    { root :=
        { name := "m:project",
          children :=
            [{ name := "parent", children := [listed "" "com.google.guava" "guava" []] },
             listed "m:" "org.projectlombok" "lombok"
              [{ name := "m:version", text := some "1.18.20" }]] } }
  have read : Document.parse x = .ok d := by
    dsimp only [x]
    -- Each literal becomes a list by a lemma: the kernel is slow to decode it.
    rw [Document.parse, events, String.toList_append, String.toList_append, String.toList_append,
      String.toList_append]
    repeat rw [String.toList_ofList]
    decide +kernel
  obtain ⟨y, changes, root, -, upgraded, changed, reports, -, faithful, -, -⟩ :=
    summary_faithful_iff .parentInheritance read
  have count : (Descriptor.listed .builtIn (pinnedPart .parentInheritance d.root)).length = 1 := by
    decide +kernel
  exact ⟨d, y, changes, root, read, upgraded, changed, faithful.2 (.inl rfl),
    reports.length_eq.symm.trans count⟩

/-- A listed dependency of an old compiler plugin is reported, and leaves with the plugin. -/
theorem summary_reports_replaced :
    let x := "<project><build><plugins><plugin><artifactId>maven-compiler-plugin</artifactId>" ++
      "<dependencies><dependency><groupId>org.projectlombok</groupId>" ++
      "<artifactId>lombok</artifactId><version>1.18.0</version></dependency></dependencies>" ++
      "</plugin></plugins></build></project>"
    ∃ d y changes root, Document.parse x = .ok d ∧
      upgradeText .builtIn .bomImport x = .ok (y, changes) ∧
      upgradeProject .builtIn .bomImport d.root = .ok (root, changes) ∧
      changes.dependencies = [⟨"org.projectlombok", "lombok", some "1.18.0", "1.18.36"⟩] ∧
      listed .builtIn root = [] ∧ ¬ IsFaithful .builtIn d.root root changes.dependencies := by
  intro x
  let entry : Element :=
    { name := "dependency",
      children :=
        [{ name := "groupId", text := some "org.projectlombok" },
         { name := "artifactId", text := some "lombok" },
         { name := "version", text := some "1.18.0" }] }
  let plugin : Element :=
    { name := "plugin",
      children :=
        [{ name := "artifactId", text := some "maven-compiler-plugin" },
         { name := "dependencies", children := [entry] }] }
  let d : Document :=
    { root :=
        { name := "project",
          children :=
            [{ name := "build", children := [{ name := "plugins", children := [plugin] }] }] } }
  let processors : List Coordinate := [⟨"org.projectlombok", "lombok", "1.18.36"⟩,
    ⟨"org.mapstruct", "mapstruct-processor", "1.5.5.Final"⟩]
  have read : Document.parse x = .ok d := by
    dsimp only [x]
    rw [Document.parse, events, String.toList_append, String.toList_append, String.toList_append]
    repeat rw [String.toList_ofList]
    decide +kernel
  have found : processorsFor .builtIn .bomImport = .ok processors := processorsFor_builtIn
  have h := isReportable_builtIn
  have changed : upgradeProject .builtIn .bomImport d.root =
      .ok (upgradeRoot .builtIn .bomImport processors d.root,
        changesOf .builtIn .bomImport d.root) := by
    rw [upgradeProject_eq, found]
    rfl
  refine ⟨d, _, changesOf .builtIn .bomImport d.root, _, read,
    upgradeText_eq_ok.2 ⟨d, processors, read, found, rfl, rfl⟩, changed, ?_, ?_, ?_⟩
  · rw [dependencies_changesOf h]
    decide +kernel
  · rw [listed_upgradeRoot h.foreign h.plain]
    decide +kernel
  · rw [isFaithful_iff h]
    decide +kernel

end JavaMigration.Descriptor
