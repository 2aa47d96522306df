import JavaMigration.Proofs.Descriptor.Convergence

/-!
# How often a project has a section

An upgrade looks for the first section of a name and adds one where there is none. So it leaves no
section out that it is to bring in, and it leaves a second one of a name where it stands: only the
parents, which it takes away before it puts in its own, are one for certain.
-/

namespace JavaMigration.Descriptor

open Markup

variable {s : UpgradeSettings} {f : Element → Element} {e : Element} {name name' : String}

/-- How many children of an element have a local name. -/
def copies (name : String) (e : Element) : Nat :=
  (e.childrenNamed name).length

theorem copies_eq_count (name : String) (e : Element) :
    copies name e = (e.children.map Element.localName).count name := by
  have named : ((· == name) ∘ Element.localName) = Element.isNamed name := by
    funext c
    rw [Function.comp_apply, Element.isNamed, beq_eq_decide]
  rw [copies, Element.childrenNamed, ← List.countP_eq_length_filter, List.count, List.countP_map,
    named]

theorem copies_of_localNames {e e' : Element}
    (h : e'.children.map Element.localName = e.children.map Element.localName) (name : String) :
    copies name e' = copies name e := by
  rw [copies_eq_count, copies_eq_count, h]

theorem copies_map {h : Element → Element} (kept : ∀ c : Element, (h c).localName = c.localName)
    (name : String) (e : Element) :
    copies name { e with children := e.children.map h } = copies name e := by
  apply copies_of_localNames
  rw [List.map_map]
  exact List.map_congr_left fun c _ => kept c

theorem copies_normal (name : String) (e : Element) : copies name e.normal = copies name e := by
  apply copies_of_localNames
  rw [Element.children_normal, List.map_map]
  exact List.map_congr_left fun c _ => localName_normal c

theorem localNames_modifyFirstWhere (kept : ∀ c : Element, (f c).localName = c.localName)
    (p : Element → Bool) (cs : List Element) :
    (modifyFirstWhere p f cs).map Element.localName = cs.map Element.localName := by
  induction cs with
  | nil => rfl
  | cons c cs ih =>
    by_cases here : p c = true
    · rw [modifyFirstWhere_cons_of_pos here, List.map_cons, List.map_cons, kept]
    · rw [modifyFirstWhere_cons_of_neg here, List.map_cons, List.map_cons, ih]

theorem count_complete {new : Element} (called : new.localName = name') (cs : List Element)
    (name : String) :
    ((complete Element.localName name' new cs).map Element.localName).count name =
      if name = name' then max 1 ((cs.map Element.localName).count name)
      else (cs.map Element.localName).count name := by
  unfold complete
  split
  · rename_i there
    split
    · rename_i same
      subst same
      have positive : 0 < (cs.map Element.localName).count name := by
        rw [List.count_pos_iff]
        simpa using there
      exact (max_eq_right positive).symm
    · rfl
  · rename_i missing
    rw [List.map_append, List.count_append, List.map_singleton, called]
    by_cases same : name = name'
    · subst same
      have absent : (cs.map Element.localName).count name = 0 := by
        rw [List.count_eq_zero]
        simpa using missing
      rw [absent, List.count_singleton_self, if_pos rfl]
      rfl
    · have other : [name'].count name = 0 := by
        rw [List.count_eq_zero]
        simpa using same
      rw [other, if_neg same, Nat.add_zero]

theorem copies_updateChild (plain : ':' ∉ name'.toList)
    (kept : ∀ c : Element, (f c).localName = c.localName) (name : String) (e : Element) :
    copies name (e.updateChild name' f) =
      if name = name' then max 1 (copies name e) else copies name e := by
  rw [copies_eq_count, copies_eq_count, updateChild_eq plain, localNames_modifyFirstWhere kept,
    count_complete (localName_newChild plain e)]

theorem copies_upgradeCommon (s : UpgradeSettings) (name : String) (e : Element) :
    copies name (upgradeCommon s e) =
      if name = "properties" then max 1 (copies name e) else copies name e := by
  rw [upgradeCommon_eq, copies_map (localName_pinWithin s),
    copies_updateChild (by decide) (localName_setProperties s)]

theorem copies_importBom (s : UpgradeSettings) (name : String) (e : Element) :
    copies name (importBom s e) =
      if name = "dependencyManagement" then max 1 (copies name e) else copies name e :=
  copies_updateChild (by decide) (fun c => localName_of_name (name_updateChild _ _ c)) name e

theorem copies_installPlugin (s : UpgradeSettings) (processors : List Coordinate) (name : String)
    (e : Element) :
    copies name (installPlugin s processors e) =
      if name = "build" then max 1 (copies name e) else copies name e :=
  copies_updateChild (by decide) (fun c => localName_of_name (name_updateChild _ _ c)) name e

theorem localNames_orphaned (e : Element) :
    (orphaned e).children.map Element.localName =
      (e.children.map Element.localName).filter fun name => !decide (name = "parent") := by
  rw [List.filter_map]
  rfl

/-- All parents go, whatever their number, and one comes. -/
theorem copies_installParent (s : UpgradeSettings) (name : String) (e : Element) :
    copies name (installParent s e) = if name = "parent" then 1 else copies name e := by
  have whole : (installParent s e).children.map Element.localName =
      "parent" :: (e.children.map Element.localName).filter fun name =>
        !decide (name = "parent") := by
    rw [← localNames_orphaned, ← localName_parentFor s e]
    rfl
  rw [copies_eq_count, whole]
  by_cases same : name = "parent"
  · rw [if_pos same, same, List.count_cons_self, List.count_eq_zero.2]
    intro mem
    simpa using (List.mem_filter.1 mem).2
  · rw [if_neg same, List.count_cons_of_ne (Ne.symm same), List.count_filter (by simpa using same),
      copies_eq_count]

def sectionsOf : Strategy → List String
  | .parentInheritance => ["properties"]
  | .bomImport => ["dependencyManagement", "properties", "build"]

theorem copies_upgradeRoot (s : UpgradeSettings) (strategy : Strategy)
    (processors : List Coordinate) (name : String) (e : Element) :
    copies name (upgradeRoot s strategy processors e) =
      if strategy = .parentInheritance ∧ name = "parent" then 1
      else if name ∈ sectionsOf strategy then max 1 (copies name e)
      else copies name e := by
  cases strategy with
  | parentInheritance =>
    rw [upgradeRoot, copies_upgradeCommon, copies_installParent]
    by_cases parent : name = "parent"
    · subst parent
      rfl
    · simp only [parent, sectionsOf, List.mem_singleton, and_false, if_false]
  | bomImport =>
    rw [upgradeRoot, copies_installPlugin, copies_upgradeCommon, copies_importBom]
    -- The sections have different names, so every step counts for its own one only.
    simp only [sectionsOf, List.mem_cons, List.not_mem_nil, or_false, reduceCtorEq, false_and,
      if_false]
    by_cases build : name = "build"
    · subst build
      rfl
    by_cases properties : name = "properties"
    · subst properties
      rfl
    simp only [build, properties, or_false, if_false]

/--
An upgrade leaves one parent and one list of properties exactly where there was no second list of
properties, and no second parent unless the strategy replaces them all.
-/
theorem copies_upgradeRoot_le_one_iff (s : UpgradeSettings) (strategy : Strategy)
    (processors : List Coordinate) (e : Element) :
    copies "parent" (upgradeRoot s strategy processors e) ≤ 1 ∧
        copies "properties" (upgradeRoot s strategy processors e) ≤ 1 ↔
      copies "properties" e ≤ 1 ∧ (strategy = .parentInheritance ∨ copies "parent" e ≤ 1) := by
  have properties : copies "properties" (upgradeRoot s strategy processors e) =
      max 1 (copies "properties" e) := by
    rw [copies_upgradeRoot, if_neg (by simp), if_pos (by cases strategy <;> decide)]
  have parents : copies "parent" (upgradeRoot s strategy processors e) =
      if strategy = .parentInheritance then 1 else copies "parent" e := by
    have foreign : "parent" ∉ sectionsOf strategy := by
      cases strategy <;> decide
    rw [copies_upgradeRoot, if_neg foreign]
    simp only [and_true]
  rw [properties, parents]
  cases strategy with
  | parentInheritance =>
    simp only [if_true, true_or, and_true]
    omega
  | bomImport =>
    simp only [reduceCtorEq, if_false, false_or]
    omega

theorem exists_parse_upgradeAt (stable : IsStable s) (strategy : Strategy)
    (processors : List Coordinate) {d : Document} (h : d.IsReadable) :
    ∃ d', Document.parse (upgradeAt s strategy processors d).render = .ok d' ∧
      ∀ name, copies name d'.root = copies name (upgradeRoot s strategy processors d.root) := by
  refine ⟨_, Document.parse_render_reread (isReadable_upgradeAt stable strategy processors h), ?_⟩
  intro name
  exact copies_normal name _

/--
How often the root of an upgraded document has a child of each name: the configured parent stands
alone where it is installed, a section that the strategy sees to is there, and all else is as often
there as it was. So the root has at most one parent and at most one list of properties exactly where
the document did, the parents that one strategy replaces apart. Where the settings are stable and
the names proper, this is so of what is read from the text that the upgrade writes.
-/
theorem upgrade_keeps_copies (s : UpgradeSettings) (strategy : Strategy) {x y : String}
    {d : Document} {changes : Changes} (read : Document.parse x = .ok d)
    (upgraded : upgradeText s strategy x = .ok (y, changes)) :
    ∃ d', upgradeDocument s strategy d = .ok (d', changes) ∧ y = d'.render ∧
      (∀ name, copies name d'.root =
        if strategy = .parentInheritance ∧ name = "parent" then 1
        else if name ∈ sectionsOf strategy then max 1 (copies name d.root)
        else copies name d.root) ∧
      (copies "parent" d'.root ≤ 1 ∧ copies "properties" d'.root ≤ 1 ↔
        copies "properties" d.root ≤ 1 ∧
          (strategy = .parentInheritance ∨ copies "parent" d.root ≤ 1)) ∧
      (IsStable s → (d.root.All fun e => IsName e.name ∧ ∀ a ∈ e.attributes, IsName a.1) →
        ∃ d'', Document.parse y = .ok d'' ∧ ∀ name, copies name d''.root = copies name d'.root) := by
  obtain ⟨d', processors, read', found, rfl, rfl⟩ := upgradeText_eq_ok.1 upgraded
  obtain rfl : d' = d := Except.ok.inj (read'.symm.trans read)
  refine ⟨upgradeAt s strategy processors d', ?_, rfl, ?_, ?_, ?_⟩
  · rw [upgradeDocument_eq, found]
    rfl
  · exact fun name => copies_upgradeRoot s strategy processors name d'.root
  · exact copies_upgradeRoot_le_one_iff s strategy processors d'.root
  · intro stable names
    exact exists_parse_upgradeAt stable strategy processors
      (Document.isReadable_of_parse read names)

/-- A project with two parents, which the upgrade makes one, and a list of properties in a prefix. -/
theorem upgrade_keeps_copies_parents :
    let x := "<m:project><parent/><m:properties/><parent/></m:project>"
    ∃ d d' y changes, Document.parse x = .ok d ∧
      upgradeText .builtIn .parentInheritance x = .ok (y, changes) ∧ Document.parse y = .ok d' ∧
      copies "parent" d.root = 2 ∧ copies "parent" d'.root = 1 ∧
      copies "properties" d'.root = 1 := by
  intro x
  let d : Document :=
    { root :=
        { name := "m:project",
          children := [{ name := "parent" }, { name := "m:properties" }, { name := "parent" }] } }
  have read : Document.parse x = .ok d := by decide +kernel
  have names : d.root.All fun e => IsName e.name ∧ ∀ a ∈ e.attributes, IsName a.1 := by decide
  have found : processorsFor .builtIn .parentInheritance = .ok [] := rfl
  have upgraded := upgradeText_eq_ok.2 ⟨d, [], read, found, rfl, rfl⟩
  obtain ⟨root, -, -, counts, -, reads⟩ :=
    upgrade_keeps_copies .builtIn .parentInheritance read upgraded
  obtain ⟨d', read', same⟩ := reads (by decide) names
  refine ⟨d, d', _, _, read, upgraded, read', by decide, ?_, ?_⟩
  · rw [same, counts]
    rfl
  · rw [same, counts]
    decide

/-- A project with two lists of properties and two parents keeps them through an upgrade. -/
theorem upgrade_leaves_copies :
    let x := "<project><parent/><parent/><properties/><properties/></project>"
    ∀ strategy, ∃ d d' y changes, Document.parse x = .ok d ∧
      upgradeText .builtIn strategy x = .ok (y, changes) ∧ Document.parse y = .ok d' ∧
      copies "properties" d'.root = 2 ∧ (strategy = .bomImport → copies "parent" d'.root = 2) := by
  intro x strategy
  let d : Document :=
    { root :=
        { name := "project",
          children := [{ name := "parent" }, { name := "parent" }, { name := "properties" },
            { name := "properties" }] } }
  have read : Document.parse x = .ok d := by decide +kernel
  have names : d.root.All fun e => IsName e.name ∧ ∀ a ∈ e.attributes, IsName a.1 := by decide
  have found : ∃ processors, processorsFor .builtIn strategy = .ok processors := by
    cases strategy with
    | parentInheritance => exact ⟨[], rfl⟩
    | bomImport =>
      exact ⟨[⟨"org.projectlombok", "lombok", "1.18.36"⟩,
        ⟨"org.mapstruct", "mapstruct-processor", "1.5.5.Final"⟩], by decide +kernel⟩
  obtain ⟨processors, found⟩ := found
  have upgraded := upgradeText_eq_ok.2 ⟨d, processors, read, found, rfl, rfl⟩
  obtain ⟨d', read', same⟩ := exists_parse_upgradeAt (by decide : IsStable .builtIn) strategy
    processors (Document.isReadable_of_parse read names)
  refine ⟨d, d', _, _, read, upgraded, read', ?_, ?_⟩
  · rw [same, copies_upgradeRoot]
    cases strategy <;> decide
  · rintro rfl
    rw [same, copies_upgradeRoot]
    decide

end JavaMigration.Descriptor
