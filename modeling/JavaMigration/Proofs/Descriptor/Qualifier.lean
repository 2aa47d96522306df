import JavaMigration.Proofs.Descriptor.Steady

/-!
# One spelling of the namespace

A new element takes the qualifier of the one that it is made for, so an upgrade brings in no
qualifier that the project does not have. A project that spells its namespace in one way is spelled
in that way afterwards.
-/

namespace JavaMigration.Descriptor

open Markup

variable {e : Element} {name : String}

theorem qualifier?_of_plain (plain : ':' ∉ e.name.toList) : e.qualifier? = none := by
  have whole : e.name.toList.dropWhile (· ≠ ':') = [] := by
    rw [List.dropWhile_eq_nil_iff]
    intro c mem
    simpa using fun same : c = ':' => plain (same ▸ mem)
  rw [Element.qualifier?, whole]

theorem qualifier?_of_qualified {q name : List Char} (plain : ':' ∉ q)
    (written : e.name.toList = q ++ ':' :: name) : e.qualifier? = some (String.ofList q) := by
  have before : ∀ c ∈ q, decide (c ≠ ':') = true := by
    intro c mem
    simpa using fun same : c = ':' => plain (same ▸ mem)
  have front : e.name.toList.takeWhile (· ≠ ':') = q := by
    rw [written, List.takeWhile_append_of_pos before]
    simp
  have rest : e.name.toList.dropWhile (· ≠ ':') = ':' :: name := by
    rw [written, List.dropWhile_append_of_pos before]
    simp
  rw [Element.qualifier?, rest, front]

theorem notMem_of_qualifier? {q : String} (qualified : e.qualifier? = some q) :
    ':' ∉ q.toList := by
  unfold Element.qualifier? at qualified
  split at qualified
  · cases qualified
  · rw [← Option.some.inj qualified, String.toList_ofList]
    intro mem
    simpa using List.mem_takeWhile_imp mem

theorem toList_name_newChild {q : String} (qualified : e.qualifier? = some q) (name : String) :
    (e.newChild name).name.toList = q.toList ++ ':' :: name.toList := by
  simp [Element.newChild, Element.qualify, qualified]

theorem qualifier?_newChild (plain : ':' ∉ name.toList) (e : Element) :
    (e.newChild name).qualifier? = e.qualifier? := by
  cases qualified : e.qualifier? with
  | none =>
    have spelled : (e.newChild name).name = name := by
      simp [Element.newChild, Element.qualify, qualified]
    exact qualifier?_of_plain (by rwa [spelled])
  | some q =>
    rw [qualifier?_of_qualified (notMem_of_qualifier? qualified)
      (toList_name_newChild qualified name), String.ofList_toList]

theorem isSteady_qualifier (allowed : Option String → Prop) :
    IsSteady (fun e => allowed e.qualifier?) (fun name => ':' ∉ name.toList) fun _ => True where
  withText _ _ h _ := h
  newChild e _ h plain := by
    rw [qualifier?_newChild plain e]
    exact h
  withChildren _ _ h _ := h
  names _ mem := plain_of_mem_stepNames mem
  literals _ _ := trivial

/-- Every qualifier of an upgraded project is one that the project has. -/
theorem exists_qualifier_of_upgradeRoot {s : UpgradeSettings}
    (plain : ∀ key ∈ s.javaProperties, ':' ∉ key.toList) (strategy : Strategy)
    (processors : List Coordinate) (project : Element) :
    (upgradeRoot s strategy processors project).All fun e =>
      ∃ d ∈ project :: project.descendants, d.qualifier? = e.qualifier? := by
  have steady := isSteady_qualifier fun q => ∃ d ∈ project :: project.descendants, d.qualifier? = q
  apply steady.keeps_upgradeRoot s.fits_any (fun p _ => p.fits_any) plain
  · intro key mem e
    rw [localName_newChild (plain key mem)]
    exact plain key mem
  · exact fun d mem => ⟨d, mem, rfl⟩

/--
Where all elements of a project have the same qualifier, or none has one, the same is so of all
elements of the upgraded project, at any depth and whichever step has put them there.
-/
theorem upgradeProject_keeps_qualifier (s : UpgradeSettings)
    (plain : ∀ key ∈ s.javaProperties, ':' ∉ key.toList) (strategy : Strategy)
    {project root : Element} {changes : Changes} (q : Option String)
    (uniform : project.All fun e => e.qualifier? = q)
    (upgraded : upgradeProject s strategy project = .ok (root, changes)) :
    root.All fun e => e.qualifier? = q := by
  rw [upgradeProject_eq] at upgraded
  cases found : processorsFor s strategy with
  | error e =>
    rw [found] at upgraded
    cases upgraded
  | ok processors =>
    rw [found] at upgraded
    cases upgraded
    intro e mem
    obtain ⟨d, old, same⟩ := exists_qualifier_of_upgradeRoot plain strategy processors project e mem
    exact same.symm.trans (uniform d old)

/-- All sections of a project with a prefix are new, but for a dependency without a version. -/
theorem upgradeProject_keeps_qualifier_prefixed :
    let dependency : Element :=
      { name := "m:dependency",
        children :=
          [{ name := "m:groupId", text := some "org.projectlombok" },
           { name := "m:artifactId", text := some "lombok" }] }
    let project : Element :=
      { name := "m:project",
        children := [{ name := "m:dependencies", children := [dependency] }] }
    (project.All fun e => e.qualifier? = some "m") ∧
      ∃ root changes, upgradeProject .builtIn .bomImport project = .ok (root, changes) ∧
        root.All fun e => e.qualifier? = some "m" := by
  intro dependency project
  have uniform : project.All fun e => e.qualifier? = some "m" := by decide
  have upgraded := (upgradeProject_eq .builtIn .bomImport project).trans
    (congrArg (Except.map _) processorsFor_builtIn)
  exact ⟨uniform, _, _, upgraded,
    upgradeProject_keeps_qualifier .builtIn (by decide) .bomImport (some "m") uniform upgraded⟩

end JavaMigration.Descriptor
