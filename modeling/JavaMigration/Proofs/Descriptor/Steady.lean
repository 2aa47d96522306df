import JavaMigration.Proofs.Descriptor.Project

/-!
# What the steps of an upgrade keep

A step sets texts, takes children away, and adds new ones with names of its own. So a property of
elements stays with all of them if it is not lost where such a text is set, where children leave and
where such children come.
-/

namespace JavaMigration

variable {texts : String → Prop}

structure Coordinate.Fits (texts : String → Prop) (c : Coordinate) : Prop where
  groupId : texts c.groupId
  artifactId : texts c.artifactId
  version : texts c.version

/-- All texts that an upgrade takes from its settings fit, but for those in annotation processors. -/
structure UpgradeSettings.Fits (texts : String → Prop) (s : UpgradeSettings) : Prop where
  target : texts s.targetJavaVersion
  parent : s.parent.Fits texts
  bom : s.bom.Fits texts
  overrides : ∀ o ∈ s.frameworkProperties, texts o.value
  pins : ∀ c ∈ s.dependencyUpgrades, texts c.version
  plugin : Coordinate.Fits texts
    ⟨s.compilerPlugin.groupId, s.compilerPlugin.artifactId, s.compilerPlugin.version⟩
  args : ∀ arg ∈ s.compilerPlugin.compilerArgs, texts arg

theorem Coordinate.fits_any (c : Coordinate) : c.Fits fun _ => True :=
  ⟨trivial, trivial, trivial⟩

theorem UpgradeSettings.fits_any (s : UpgradeSettings) : s.Fits fun _ => True :=
  ⟨trivial, s.parent.fits_any, s.bom.fits_any, fun _ _ => trivial, fun _ _ => trivial,
    Coordinate.fits_any _, fun _ _ => trivial⟩

theorem UpgradeSettings.Fits.pinned {s : UpgradeSettings} (h : s.Fits texts)
    {groupId artifactId version : String} (found : s.pinned? groupId artifactId = some version) :
    texts version := by
  obtain ⟨c, listed, rfl⟩ := Option.map_eq_some_iff.1 found
  exact h.pins c (List.mem_of_find?_eq_some listed)

end JavaMigration

namespace JavaMigration.Descriptor

open Markup

variable {P : Element → Prop} {fits texts : String → Prop} {s : UpgradeSettings}
  {f g : Element → Element} {e : Element} {name text : String} {c : Coordinate}
  {processors : List Coordinate}

def stepNames : List String :=
  ["parent", "groupId", "artifactId", "version", "dependencyManagement", "dependencies",
    "dependency", "type", "scope", "properties", "build", "plugins", "plugin", "configuration",
    "source", "target", "release", "fork", "annotationProcessorPaths", "path", "compilerArgs",
    "arg"]

def stepTexts : List String :=
  ["import", "pom", "true", "false"]

theorem plain_of_mem_stepNames (mem : name ∈ stepNames) : ':' ∉ name.toList := by
  have plain : ∀ name ∈ stepNames, ':' ∉ name.toList := by decide
  exact plain name mem

def NamesFit (fits : String → Prop) (old new : List Element) : Prop :=
  ∀ c ∈ new, (∃ d ∈ old, c.localName = d.localName) ∨ fits c.localName

/-- The property is kept where fitting texts are set, children leave, and fitting children come. -/
structure IsSteady (P : Element → Prop) (fits texts : String → Prop) : Prop where
  withText : ∀ (e : Element) (text : String), P e → texts text → P (e.withText text)
  newChild : ∀ (e : Element) (name : String), P e → fits name → P (e.newChild name)
  withChildren : ∀ (e : Element) (cs : List Element), P e → NamesFit fits e.children cs →
    P { e with children := cs }
  names : ∀ name ∈ stepNames, fits name
  literals : ∀ text ∈ stepTexts, texts text

def Keeps (P : Element → Prop) (f : Element → Element) : Prop :=
  ∀ e : Element, e.All P → (f e).All P

theorem localName_withCoordinate (c : Coordinate) (e : Element) :
    (withCoordinate c e).localName = e.localName := by
  apply localName_of_name
  simp only [withCoordinate, name_setChildText]

theorem fits_newChild (fit : fits name) (plain : ':' ∉ name.toList) (e : Element) :
    fits (e.newChild name).localName := by
  rwa [localName_newChild plain]

theorem Keeps.comp (hf : Keeps P f) (hg : Keeps P g) : Keeps P (f ∘ g) :=
  fun e h => hf _ (hg e h)

theorem mem_modifyFirstWhere {p : Element → Bool} {c : Element} {cs : List Element}
    (h : c ∈ modifyFirstWhere p f cs) : ∃ d ∈ cs, c = d ∨ c = f d := by
  induction cs with
  | nil => cases h
  | cons d cs ih =>
    rw [modifyFirstWhere] at h
    split at h
    · rcases List.mem_cons.1 h with rfl | mem
      · exact ⟨d, by simp, .inr rfl⟩
      · exact ⟨c, by simp [mem], .inl rfl⟩
    · rcases List.mem_cons.1 h with rfl | mem
      · exact ⟨c, by simp, .inl rfl⟩
      · obtain ⟨d', mem', same⟩ := ih mem
        exact ⟨d', by simp [mem'], same⟩

theorem pinned?_of_pinning? {change : DependencyChange} (h : pinning? s e = some change) :
    s.pinned? change.groupId change.artifactId = some change.version := by
  unfold pinning? at h
  split at h
  · obtain ⟨groupId, -, h⟩ := Option.bind_eq_some_iff.1 h
    obtain ⟨artifactId, -, h⟩ := Option.bind_eq_some_iff.1 h
    obtain ⟨version, found, h⟩ := Option.bind_eq_some_iff.1 h
    cases h
    exact found
  · cases h

namespace IsSteady

variable (steady : IsSteady P fits texts)

include steady

theorem all_with_children (h : e.All P) {cs : List Element} (below : ∀ c ∈ cs, c.All P)
    (named : NamesFit fits e.children cs) : Element.All P { e with children := cs } :=
  Element.all_iff.2 ⟨steady.withChildren e cs h.self named, below⟩

theorem all_newChild (h : e.All P) (fit : fits name) : (e.newChild name).All P :=
  Element.all_iff.2 ⟨steady.newChild e name h.self fit, fun _ mem => nomatch mem⟩

theorem keeps_withText (set : texts text) : Keeps P (Element.withText text) :=
  fun e h => Element.all_iff.2 ⟨steady.withText e text h.self set, fun _ mem => h.child mem⟩

theorem all_modifyFirstWhere (hf : Keeps P f) (kept : ∀ c : Element, (f c).localName = c.localName)
    (p : Element → Bool) (h : e.All P) :
    Element.All P { e with children := modifyFirstWhere p f e.children } := by
  apply steady.all_with_children h
  · intro c mem
    obtain ⟨d, present, rfl | rfl⟩ := mem_modifyFirstWhere mem
    · exact h.child present
    · exact hf d (h.child present)
  · intro c mem
    obtain ⟨d, present, rfl | rfl⟩ := mem_modifyFirstWhere mem
    · exact .inl ⟨_, present, rfl⟩
    · exact .inl ⟨d, present, kept d⟩

theorem keeps_modifyChild (hf : Keeps P f) (kept : ∀ c : Element, (f c).localName = c.localName)
    (name : String) : Keeps P (Element.modifyChild name f) := by
  intro e h
  rw [Element.modifyChild, modifyFirst_eq]
  exact steady.all_modifyFirstWhere hf kept _ h

theorem all_append (h : e.All P) {cs : List Element} (below : ∀ c ∈ cs, c.All P)
    (named : ∀ c ∈ cs, fits c.localName) :
    Element.All P { e with children := e.children ++ cs } := by
  apply steady.all_with_children h
  · intro c mem
    rcases List.mem_append.1 mem with mem | mem
    · exact h.child mem
    · exact below c mem
  · intro c mem
    rcases List.mem_append.1 mem with mem | mem
    · exact .inl ⟨c, mem, rfl⟩
    · exact .inr (named c mem)

theorem all_push {c : Element} (h : e.All P) (new : c.All P) (named : fits c.localName) :
    (e.push c).All P :=
  steady.all_append h (by simpa using new) (by simpa using named)

theorem all_filter (h : e.All P) (p : Element → Bool) :
    Element.All P { e with children := e.children.filter p } := by
  apply steady.all_with_children h
  · intro c mem
    exact h.child (List.mem_filter.1 mem).1
  · intro c mem
    exact .inl ⟨c, (List.mem_filter.1 mem).1, rfl⟩

theorem keeps_updateChild (hf : Keeps P f) (kept : ∀ c : Element, (f c).localName = c.localName)
    (fit : fits name) (shown : ∀ e : Element, fits (e.newChild name).localName) :
    Keeps P (Element.updateChild name f) := by
  intro e h
  unfold Element.updateChild
  split
  · exact steady.keeps_modifyChild hf kept name e h
  · apply steady.all_push h
    · exact hf _ (steady.all_newChild h fit)
    · rw [kept]
      exact shown e

theorem keeps_setChildText (fit : fits name)
    (shown : ∀ e : Element, fits (e.newChild name).localName) (set : texts text) :
    Keeps P (Element.setChildText name text) :=
  steady.keeps_updateChild (steady.keeps_withText set) (fun _ => rfl) fit shown

theorem keeps_updateChild_own (hf : Keeps P f)
    (kept : ∀ c : Element, (f c).localName = c.localName) (mem : name ∈ stepNames) :
    Keeps P (Element.updateChild name f) :=
  steady.keeps_updateChild hf kept (steady.names name mem)
    (fits_newChild (steady.names name mem) (plain_of_mem_stepNames mem))

theorem keeps_setChildText_own (mem : name ∈ stepNames) (set : texts text) :
    Keeps P (Element.setChildText name text) :=
  steady.keeps_updateChild_own (steady.keeps_withText set) (fun _ => rfl) mem

theorem keeps_withCoordinate (set : c.Fits texts) : Keeps P (withCoordinate c) :=
  (steady.keeps_setChildText_own (by decide) set.version).comp
    ((steady.keeps_setChildText_own (by decide) set.artifactId).comp
      (steady.keeps_setChildText_own (by decide) set.groupId))

theorem keeps_pinEntry (set : s.Fits texts) : Keeps P (pinEntry s) := by
  intro e h
  unfold pinEntry
  split
  · rename_i change found
    apply steady.keeps_setChildText_own (by decide) _ e h
    exact set.pinned (pinned?_of_pinning? found)
  · exact h

theorem keeps_pinWithin (set : s.Fits texts) : Keeps P (pinWithin s) := by
  intro e h
  induction e using Element.inductionOnChildren with
  | step e ih =>
    rw [pinWithin_eq]
    apply steady.all_with_children h
    · intro c mapped
      obtain ⟨d, mem, rfl⟩ := List.mem_map.1 mapped
      have within := ih d mem (h.child mem)
      unfold pinChild
      split
      · exact steady.keeps_pinEntry set _ within
      · exact within
    · intro c mapped
      obtain ⟨d, mem, rfl⟩ := List.mem_map.1 mapped
      exact .inl ⟨d, mem, localName_pinChild s _ d⟩

theorem keeps_asImport (set : c.Fits texts) : Keeps P (asImport c) :=
  (steady.keeps_setChildText_own (by decide) (steady.literals "import" (by decide))).comp
    ((steady.keeps_setChildText_own (by decide) (steady.literals "pom" (by decide))).comp
      (steady.keeps_setChildText_own (by decide) set.version))

theorem keeps_importInto (set : c.Fits texts) : Keeps P (importInto c) := by
  have kept : ∀ d : Element, (asImport c d).localName = d.localName := by
    intro d
    apply localName_of_name
    simp only [asImport, name_setChildText]
  intro e h
  unfold importInto
  split
  · exact steady.all_modifyFirstWhere (steady.keeps_asImport set) kept _ h
  · apply steady.all_push h
    · apply steady.keeps_asImport set
      apply steady.keeps_setChildText_own (by decide) set.artifactId
      apply steady.keeps_setChildText_own (by decide) set.groupId
      exact steady.all_newChild h (steady.names _ (by decide))
    · rw [kept, localName_of_name (name_setChildText _ _ _),
        localName_of_name (name_setChildText _ _ _), localName_newChild (by decide)]
      exact steady.names _ (by decide)

theorem keeps_importManaged (set : c.Fits texts) : Keeps P (importManaged c) :=
  steady.keeps_updateChild_own (steady.keeps_importInto set) (localName_importInto c) (by decide)

variable (set : s.Fits texts) (chosen : ∀ p ∈ processors, p.Fits texts)

section Plugin

include set chosen

theorem keeps_configure : Keeps P (configure s processors) := by
  have paths : Keeps P fun paths => { paths with
      children := paths.children ++
        processors.map fun p => withCoordinate p (paths.newChild "path") } := by
    intro e h
    apply steady.all_append h
    · intro c mem
      obtain ⟨p, listed, rfl⟩ := List.mem_map.1 mem
      apply steady.keeps_withCoordinate (chosen p listed)
      exact steady.all_newChild h (steady.names _ (by decide))
    · intro c mem
      obtain ⟨p, -, rfl⟩ := List.mem_map.1 mem
      rw [localName_withCoordinate, localName_newChild (by decide)]
      exact steady.names _ (by decide)
  have args : Keeps P fun args => { args with
      children := args.children ++
        s.compilerPlugin.compilerArgs.map fun arg => args.newTextChild "arg" arg } := by
    intro e h
    apply steady.all_append h
    · intro c mem
      obtain ⟨arg, listed, rfl⟩ := List.mem_map.1 mem
      have new := steady.all_newChild h (steady.names "arg" (by decide))
      exact steady.keeps_withText (set.args arg listed) _ new
    · intro c mem
      obtain ⟨arg, -, rfl⟩ := List.mem_map.1 mem
      have named : (e.newTextChild "arg" arg).localName = "arg" :=
        localName_newChild (by decide) e
      rw [named]
      exact steady.names _ (by decide)
  have fork : texts (if s.compilerPlugin.fork then "true" else "false") := by
    split
    · exact steady.literals "true" (by decide)
    · exact steady.literals "false" (by decide)
  intro e h
  unfold configure
  apply steady.keeps_updateChild_own args (fun _ => rfl) (by decide)
  apply steady.keeps_updateChild_own paths (fun _ => rfl) (by decide)
  apply steady.keeps_setChildText_own (by decide) fork
  apply steady.keeps_setChildText_own (by decide) set.target
  apply steady.keeps_setChildText_own (by decide) set.target
  exact steady.keeps_setChildText_own (by decide) set.target e h

theorem keeps_replacePlugin : Keeps P (replacePlugin s processors) := by
  have kept : ∀ c : Element, (configure s processors c).localName = c.localName := fun c =>
    localName_of_name (name_configure s processors c)
  intro e h
  have plugin : (pluginFor s processors e).All P := by
    unfold pluginFor
    apply steady.keeps_updateChild_own (steady.keeps_configure set chosen) kept (by decide)
    apply steady.keeps_withCoordinate set.plugin
    exact steady.all_newChild h (steady.names _ (by decide))
  unfold replacePlugin Element.replaceChildren Element.removeChildren
  apply steady.all_push (steady.all_filter h _) plugin
  rw [localName_of_name (name_pluginFor s processors e), localName_newChild (by decide)]
  exact steady.names _ (by decide)

theorem keeps_configureBuild : Keeps P (configureBuild s processors) :=
  steady.keeps_updateChild_own (steady.keeps_replacePlugin set chosen)
    (localName_replacePlugin s processors) (by decide)

end Plugin

section

include set

theorem keeps_parentFor : Keeps P (parentFor s) := by
  intro e h
  apply steady.keeps_withCoordinate set.parent
  exact steady.all_newChild h (steady.names _ (by decide))

omit set in
theorem keeps_orphaned : Keeps P orphaned :=
  fun _ h => steady.all_filter h fun c => !c.isNamed "parent"

theorem keeps_installParent : Keeps P (installParent s) := by
  intro e h
  have orphan := steady.keeps_orphaned e h
  have installed : installParent s e =
      { orphaned e with children := parentFor s e :: (orphaned e).children } := rfl
  rw [installed]
  apply steady.all_with_children orphan
  · rw [List.forall_mem_cons]
    exact ⟨steady.keeps_parentFor set e h, fun c mem => orphan.child mem⟩
  · intro c mem
    rcases List.mem_cons.1 mem with new | mem
    · rw [new, localName_parentFor]
      exact .inr (steady.names _ (by decide))
    · exact .inl ⟨c, mem, rfl⟩

end

theorem keeps_setJavaProperties {target : String} (set : texts target) {keys : List String}
    (fit : ∀ key ∈ keys, fits key)
    (shown : ∀ key ∈ keys, ∀ e : Element, fits (e.newChild key).localName) :
    Keeps P fun e => (setJavaProperties target keys e).1 := by
  induction keys with
  | nil => exact fun _ h => h
  | cons key keys ih =>
    intro e h
    apply ih (fun key mem => fit key (by simp [mem])) (fun key mem => shown key (by simp [mem]))
    exact steady.keeps_setChildText (fit key (by simp)) (shown key (by simp)) set e h

theorem keeps_setFrameworkProperties {overrides : List PropertyOverride}
    (set : ∀ o ∈ overrides, texts o.value) :
    Keeps P fun e => (setFrameworkProperties overrides e).1 := by
  induction overrides with
  | nil => exact fun _ h => h
  | cons o overrides ih =>
    obtain ⟨own, set⟩ := List.forall_mem_cons.1 set
    intro e h
    simp only [setFrameworkProperties]
    split
    · exact ih set e h
    · apply ih set
      exact steady.keeps_modifyChild (steady.keeps_withText own) (fun _ => rfl) o.key e h

variable (fit : ∀ key ∈ s.javaProperties, fits key)
  (shown : ∀ key ∈ s.javaProperties, ∀ e : Element, fits (e.newChild key).localName)

include set fit shown

theorem keeps_setProperties : Keeps P fun e => (setProperties s e).1 := by
  intro e h
  apply steady.keeps_setFrameworkProperties set.overrides
  exact steady.keeps_setJavaProperties set.target fit shown e h

theorem keeps_upgradeCommon : Keeps P (upgradeCommon s) := by
  intro e h
  have updated := steady.keeps_updateChild_own (steady.keeps_setProperties set fit shown)
    (localName_setProperties s)
    (by decide : "properties" ∈ stepNames) e h
  rw [upgradeCommon_eq]
  apply steady.all_with_children updated
  · intro c mapped
    obtain ⟨d, mem, rfl⟩ := List.mem_map.1 mapped
    exact steady.keeps_pinWithin set d (updated.child mem)
  · intro c mapped
    obtain ⟨d, mem, rfl⟩ := List.mem_map.1 mapped
    exact .inl ⟨d, mem, localName_pinWithin s d⟩

include chosen

theorem keeps_upgradeRoot (strategy : Strategy) : Keeps P (upgradeRoot s strategy processors) := by
  have common := steady.keeps_upgradeCommon set fit shown
  cases strategy with
  | parentInheritance => exact common.comp (steady.keeps_installParent set)
  | bomImport =>
    have managed : Keeps P (importBom s) :=
      steady.keeps_updateChild_own (steady.keeps_importManaged set.bom)
        (fun c => localName_of_name (name_updateChild _ _ c)) (by decide)
    have built : Keeps P (installPlugin s processors) :=
      steady.keeps_updateChild_own (steady.keeps_configureBuild set chosen)
        (fun c => localName_of_name (name_updateChild _ _ c)) (by decide)
    exact built.comp (common.comp managed)

end IsSteady

end JavaMigration.Descriptor
