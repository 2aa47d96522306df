import JavaMigration.Proofs.Descriptor.Steady

/-!
# Pins that stay

An upgrade pins the dependencies before it puts in the compiler plugin. What comes after, and what
the pins themselves put in, adds no dependency to a list, so all that the upgrade table has is
pinned in the end.
-/

namespace JavaMigration.Descriptor

open Markup

variable {s : UpgradeSettings} {f g : Element → Element} {c e : Element} {cs : List Element}
  {name : String}

theorem mem_modifyFirstWhere_cases {p : Element → Bool} (h : c ∈ modifyFirstWhere p f cs) :
    c ∈ cs ∨ ∃ d ∈ cs, p d = true ∧ c = f d := by
  induction cs with
  | nil => cases h
  | cons d cs ih =>
    rw [modifyFirstWhere] at h
    split at h
    · rename_i here
      rcases List.mem_cons.1 h with rfl | mem
      · exact .inr ⟨d, List.mem_cons_self, here, rfl⟩
      · exact .inl (List.mem_cons_of_mem d mem)
    · rcases List.mem_cons.1 h with rfl | mem
      · exact .inl List.mem_cons_self
      · rcases ih mem with old | ⟨d', mem', here, rfl⟩
        · exact .inl (List.mem_cons_of_mem d old)
        · exact .inr ⟨d', List.mem_cons_of_mem d mem', here, rfl⟩

theorem mem_updateChild (plain : ':' ∉ name.toList) (h : c ∈ (e.updateChild name f).children) :
    c ∈ e.children ∨
      ∃ d, (d ∈ e.children ∨ d = e.newChild name) ∧ d.localName = name ∧ c = f d := by
  unfold Element.updateChild at h
  split at h
  · rw [Element.modifyChild, modifyFirst_eq] at h
    rcases mem_modifyFirstWhere_cases h with old | ⟨d, mem, named, rfl⟩
    · exact .inl old
    · exact .inr ⟨d, .inl mem, by simpa using named, rfl⟩
  · rcases List.mem_append.1 h with old | new
    · exact .inl old
    · exact .inr ⟨_, .inr rfl, localName_newChild plain e, List.mem_singleton.1 new⟩

theorem mem_changeFirsts {κ : Type} [DecidableEq κ] {kind : Element → κ} {special : Choice κ}
    {y : Element} (h : y ∈ changeFirsts kind special g cs) :
    ∃ c ∈ cs, y = g c ∨ ∃ f, special (kind c) = some f ∧ y = f c := by
  induction cs generalizing special with
  | nil => cases h
  | cons c cs ih =>
    cases chosen : special (kind c) with
    | some f =>
      rw [changeFirsts_cons_of_some chosen] at h
      rcases List.mem_cons.1 h with rfl | mem
      · exact ⟨c, List.mem_cons_self, .inr ⟨f, chosen, rfl⟩⟩
      · obtain ⟨d, mem', same⟩ := ih mem
        refine ⟨d, List.mem_cons_of_mem c mem', same.imp_right ?_⟩
        rintro ⟨f', found, rfl⟩
        exact ⟨f', (Choice.of_forget found).2, rfl⟩
    | none =>
      rw [changeFirsts_cons_of_none chosen] at h
      rcases List.mem_cons.1 h with rfl | mem
      · exact ⟨c, List.mem_cons_self, .inl rfl⟩
      · obtain ⟨d, mem', same⟩ := ih mem
        exact ⟨d, List.mem_cons_of_mem c mem', same⟩

/-- The entries of the list have the versions that they are pinned to, if the element is a list. -/
def HoldsPins (s : UpgradeSettings) (e : Element) : Prop :=
  e.isNamed "dependencies" = true → ∀ entry ∈ e.children, ∀ version,
    pinVersion? s entry = some version → entry.childText? "version" = some (Text.trim version)

namespace HoldsPins

theorem all_newChild (s : UpgradeSettings) (e : Element) (name : String) :
    (e.newChild name).All (HoldsPins s) :=
  Element.all_iff.2 ⟨fun _ _ mem => (nomatch mem), fun _ mem => nomatch mem⟩

theorem keeps_withText (s : UpgradeSettings) (text : String) :
    Keeps (HoldsPins s) (Element.withText text) :=
  fun _ h => Element.all_iff.2 ⟨h.self, fun _ mem => h.child mem⟩

/-- Children that are no dependencies come and go, without an effect on the pins of a list. -/
theorem all_with_children (h : e.All (HoldsPins s)) (below : ∀ c ∈ cs, c.All (HoldsPins s))
    (old : ∀ c ∈ cs, c.isNamed "dependency" = true → c ∈ e.children) :
    Element.All (HoldsPins s) { e with children := cs } := by
  refine Element.all_iff.2 ⟨?_, below⟩
  intro list entry mem version found
  exact h.self list entry (old entry mem (isNamed_of_pinVersion? found)) version found

theorem all_append (h : e.All (HoldsPins s)) (below : ∀ c ∈ cs, c.All (HoldsPins s))
    (other : ∀ c ∈ cs, c.isNamed "dependency" = false) :
    Element.All (HoldsPins s) { e with children := e.children ++ cs } := by
  apply all_with_children h
  · intro c mem
    rcases List.mem_append.1 mem with mem | mem
    · exact h.child mem
    · exact below c mem
  · intro c mem named
    rcases List.mem_append.1 mem with mem | mem
    · exact mem
    · rw [other c mem] at named
      cases named

theorem keeps_updateChild (hf : Keeps (HoldsPins s) f)
    (kept : ∀ c : Element, (f c).localName = c.localName) (plain : ':' ∉ name.toList)
    (other : name ≠ "dependency") : Keeps (HoldsPins s) (Element.updateChild name f) := by
  intro e h
  have whole : e.updateChild name f = { e with children := (e.updateChild name f).children } := by
    rw [updateChild_eq plain]
  rw [whole]
  apply all_with_children h
  · intro c mem
    rcases mem_updateChild plain mem with old | ⟨d, old | rfl, -, rfl⟩
    · exact h.child old
    · exact hf d (h.child old)
    · exact hf _ (all_newChild s e name)
  · intro c mem dependency
    rcases mem_updateChild plain mem with old | ⟨d, -, named, rfl⟩
    · exact old
    · have dependency : (f d).localName = "dependency" := by
        simpa only [Element.isNamed, decide_eq_true_eq] using dependency
      exact absurd (named.symm.trans ((kept d).symm.trans dependency)) other

theorem keeps_setChildText (plain : ':' ∉ name.toList) (other : name ≠ "dependency")
    (text : String) : Keeps (HoldsPins s) (Element.setChildText name text) :=
  keeps_updateChild (keeps_withText s text) (fun _ => rfl) plain other

theorem keeps_withCoordinate (c : Coordinate) : Keeps (HoldsPins s) (withCoordinate c) :=
  (keeps_setChildText (by decide) (by decide) c.version).comp
    ((keeps_setChildText (by decide) (by decide) c.artifactId).comp
      (keeps_setChildText (by decide) (by decide) c.groupId))

theorem pinChild_of_pinWithin (within : (pinWithin s e).All (HoldsPins s)) (inList : Bool) :
    (pinChild s inList e).All (HoldsPins s) := by
  cases inList with
  | false => exact within
  | true =>
    rw [pinChild_true]
    split
    · exact keeps_setChildText (by decide) (by decide) _ _ within
    · exact within

theorem all_pinWithin (s : UpgradeSettings) (e : Element) : (pinWithin s e).All (HoldsPins s) := by
  induction e using Element.inductionOnChildren with
  | step e ih =>
    rw [pinWithin_eq, Element.all_iff]
    constructor
    · intro list entry mem version found
      have list : e.isNamed "dependencies" = true := list
      obtain ⟨c, -, rfl⟩ := List.mem_map.1 mem
      rw [list] at found ⊢
      rw [pinVersion?_of_sameCoordinates (sameCoordinates_pinChild s true c)] at found
      rw [pinChild_true, found]
      exact childText?_setChildText_self (by decide) version _
    · intro y mem
      obtain ⟨c, old, rfl⟩ := List.mem_map.1 mem
      exact pinChild_of_pinWithin (ih c old) _

theorem keeps_configure (s' : UpgradeSettings) (processors : List Coordinate) :
    Keeps (HoldsPins s) (configure s' processors) := by
  have foreign {c : Element} (name : String) (named : c.localName = name)
      (other : name ≠ "dependency") : c.isNamed "dependency" = false := by
    simpa only [Element.isNamed, named, decide_eq_false_iff_not] using other
  have paths : Keeps (HoldsPins s) fun paths => { paths with
      children := paths.children ++
        processors.map fun p => withCoordinate p (paths.newChild "path") } := by
    intro e h
    apply all_append h
    · intro c mem
      obtain ⟨p, -, rfl⟩ := List.mem_map.1 mem
      exact keeps_withCoordinate p _ (all_newChild s e "path")
    · intro c mem
      obtain ⟨p, -, rfl⟩ := List.mem_map.1 mem
      apply foreign "path" _ (by decide)
      rw [localName_withCoordinate, localName_newChild (by decide)]
  have args : Keeps (HoldsPins s) fun args => { args with
      children := args.children ++
        s'.compilerPlugin.compilerArgs.map fun arg => args.newTextChild "arg" arg } := by
    intro e h
    apply all_append h
    · intro c mem
      obtain ⟨arg, -, rfl⟩ := List.mem_map.1 mem
      exact keeps_withText s arg _ (all_newChild s e "arg")
    · intro c mem
      obtain ⟨arg, -, rfl⟩ := List.mem_map.1 mem
      exact foreign "arg" (localName_newChild (by decide) e) (by decide)
  intro e h
  unfold configure
  apply keeps_updateChild args (fun _ => rfl) (by decide) (by decide)
  apply keeps_updateChild paths (fun _ => rfl) (by decide) (by decide)
  apply keeps_setChildText (by decide) (by decide)
  apply keeps_setChildText (by decide) (by decide)
  apply keeps_setChildText (by decide) (by decide)
  exact keeps_setChildText (by decide) (by decide) _ e h

theorem all_pluginFor (s' : UpgradeSettings) (processors : List Coordinate) (e : Element) :
    (pluginFor s' processors e).All (HoldsPins s) := by
  have kept (c : Element) : (configure s' processors c).localName = c.localName :=
    localName_of_name (name_configure s' processors c)
  unfold pluginFor
  apply keeps_updateChild (keeps_configure s' processors) kept (by decide) (by decide)
  exact keeps_withCoordinate _ _ (all_newChild s e "plugin")

theorem keeps_configureBuild (s' : UpgradeSettings) (processors : List Coordinate) :
    Keeps (HoldsPins s) (configureBuild s' processors) := by
  refine keeps_updateChild ?_ (localName_replacePlugin s' processors) (by decide) (by decide)
  intro e h
  have left : (e.removeChildren (isCompilerPlugin s')).All (HoldsPins s) :=
    all_with_children h (fun c mem => h.child (List.mem_filter.1 mem).1)
      fun c mem _ => (List.mem_filter.1 mem).1
  have named : (pluginFor s' processors e).localName = "plugin" := by
    rw [localName_of_name (name_pluginFor s' processors e), localName_newChild (by decide)]
  apply all_append left
  · exact List.forall_mem_singleton.2 (all_pluginFor s' processors e)
  · refine List.forall_mem_singleton.2 ?_
    rw [Element.isNamed, named]
    decide

end HoldsPins

/-- Below the root of an upgraded project every list holds its pins. -/
theorem holdsPins_upgradeRoot (s : UpgradeSettings) (strategy : Strategy)
    (processors : List Coordinate) (project : Element) :
    ∀ list ∈ (upgradeRoot s strategy processors project).descendants, HoldsPins s list := by
  have below {root : Element} (children : ∀ c ∈ root.children, c.All (HoldsPins s)) :
      ∀ list ∈ root.descendants, HoldsPins s list := by
    rw [Element.descendants_eq, List.forall_mem_flatMap]
    exact children
  have pinned := HoldsPins.all_pinWithin s
  apply below
  cases strategy with
  | bomImport =>
    intro y mem
    rw [(isPass_bomImport s processors project).eq] at mem
    obtain ⟨c, -, rfl | ⟨f, chosen, rfl⟩⟩ := mem_changeFirsts mem
    · exact pinned c
    rcases Choice.of_set chosen with ⟨-, rfl⟩ | chosen
    · exact HoldsPins.keeps_configureBuild s processors _ (pinned c)
    rcases Choice.of_set chosen with ⟨-, rfl⟩ | chosen
    · exact pinned _
    rcases Choice.of_set chosen with ⟨-, rfl⟩ | chosen
    · exact pinned _
    · cases chosen
  | parentInheritance =>
    rw [upgradeRoot_parentInheritance, Element.insertFirst, upgradeCommon_eq]
    intro y mem
    rcases List.mem_cons.1 mem with rfl | mem
    · exact pinned _
    · obtain ⟨c, -, rfl⟩ := List.mem_map.1 mem
      exact pinned c

end JavaMigration.Descriptor
