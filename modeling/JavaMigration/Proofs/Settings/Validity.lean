import JavaMigration.Proofs.Descriptor.Convergence
import JavaMigration.Proofs.Imports.Idempotence

/-!
# Valid settings

The settings are checked for tables that the passes cannot work with. Of what it takes for a second
pass to find nothing, the check covers the versions of the processors. It lets a mapping pass that
moves again what it has moved, and a key that is not the name of an element.
-/

namespace JavaMigration.Settings

open Descriptor Imports Markup

variable {s : Settings}

theorem exists_mapM_eq_ok {α β ε : Type} {f : α → Except ε β} {xs : List α}
    (h : ∀ x ∈ xs, ∃ y, f x = .ok y) : ∃ ys, xs.mapM f = .ok ys := by
  induction xs with
  | nil => exact ⟨[], rfl⟩
  | cons x xs ih =>
    obtain ⟨y, first⟩ := h x (by simp)
    obtain ⟨ys, rest⟩ := ih fun x mem => h x (by simp [mem])
    refine ⟨y :: ys, ?_⟩
    rw [List.mapM_cons, first, rest]
    rfl

theorem pinnedByKey?_of_valid (valid : s.fault? = none) :
    ∀ p ∈ s.upgrade.compilerPlugin.annotationProcessors,
      ∃ version, s.upgrade.pinnedByKey? p.versionFrom = some version := by
  unfold fault? at valid
  split at valid
  · cases valid
  · split at valid
    · cases valid
    · intro p mem
      have pinned := List.find?_eq_none.1 (Option.map_eq_none_iff.1 valid) p mem
      exact Option.isSome_iff_exists.1 (by simpa [Option.isSome_iff_ne_none] using pinned)

/-- Every annotation processor of valid settings gets a version. -/
theorem processorsFor_of_valid (valid : s.fault? = none) (strategy : Strategy) :
    ∃ processors, processorsFor s.upgrade strategy = .ok processors := by
  cases strategy with
  | parentInheritance => exact ⟨[], rfl⟩
  | bomImport =>
    refine exists_mapM_eq_ok fun p mem => ?_
    obtain ⟨version, found⟩ := pinnedByKey?_of_valid valid p mem
    exact ⟨⟨p.groupId, p.artifactId, version⟩, by rw [found]⟩

/--
Where the settings are valid, the table of mappings is in order and an upgrade finds again what it
wrote, a second rewriting finds nothing, and every upgrade succeeds and is its own upgrade.
-/
theorem passes_converge (s : Settings) (valid : s.fault? = none) (ordered : IsOrdered s.mappings)
    (stable : IsStable s.upgrade) :
    (∀ content, rewrite s.mappings (rewrite s.mappings content).content =
      ⟨(rewrite s.mappings content).content, [], false⟩) ∧
    ∀ (strategy : Strategy) (x : String) (d : Document), Document.parse x = .ok d → d.IsProper →
      ∃ y changes d' changes', upgradeText s.upgrade strategy x = .ok (y, changes) ∧
        Document.parse y = .ok d' ∧ upgradeText s.upgrade strategy y = .ok (y, changes') := by
  refine ⟨rewrite_of_isOrdered ordered, fun strategy x d read proper => ?_⟩
  obtain ⟨processors, found⟩ := processorsFor_of_valid valid strategy
  have writable := isWritable_upgradeAt stable strategy processors
    (Document.isWritable_of_parse read proper)
  have read' := Document.parse_render writable
  have same : (upgradeAt s.upgrade strategy processors
      (upgradeAt s.upgrade strategy processors d).normal).render =
        (upgradeAt s.upgrade strategy processors d).render := by
    rw [← Document.render_normal, upgradeAt_again stable, Document.render_normal]
  exact ⟨_, _, _, _, upgradeText_eq_ok.2 ⟨d, processors, read, found, rfl, rfl⟩, read',
    upgradeText_eq_ok.2 ⟨_, processors, read', found, same.symm, rfl⟩⟩

/-- A table that moves a namespace on, and a descriptor to which an import is added. -/
theorem passes_converge_chained :
    let s : Settings := { mappings := [⟨"a", "b"⟩, ⟨"b", "c.d"⟩] }
    s.fault? = none ∧ IsOrdered s.mappings ∧ IsStable s.upgrade ∧
      (rewrite s.mappings (rewrite s.mappings "import a.X;").content).tally = [] ∧
      ∃ y changes d' changes',
        upgradeText s.upgrade .bomImport "<project/>" = .ok (y, changes) ∧
        Document.parse y = .ok d' ∧ upgradeText s.upgrade .bomImport y = .ok (y, changes') := by
  intro s
  have valid : s.fault? = none := by decide +kernel
  have ordered : IsOrdered s.mappings := by decide
  have stable : IsStable s.upgrade := by decide
  obtain ⟨settled, upgraded⟩ := passes_converge s valid ordered stable
  have read : Document.parse "<project/>" = .ok { root := { name := "project" } } := by
    decide +kernel
  exact ⟨valid, ordered, stable, congrArg (·.tally) (settled "import a.X;"),
    upgraded .bomImport _ _ read (by decide)⟩

/--
A namespace that is mapped into itself is valid, and so is a key with a prefix, which no element is
found by. An import moves on with every rewriting, and every upgrade adds a property.
-/
theorem valid_not_convergent :
    let s : Settings :=
      { mappings := [⟨"a", "a.b"⟩],
        upgrade := { UpgradeSettings.builtIn with javaProperties := ["java:version"] } }
    s.fault? = none ∧
      rewrite s.mappings (rewrite s.mappings "import a.X;").content =
        ⟨"import a.b.b.X;", [("a", 1)], true⟩ ∧
      ∃ y changes y' changes',
        upgradeText s.upgrade .parentInheritance "<project/>" = .ok (y, changes) ∧
        upgradeText s.upgrade .parentInheritance y = .ok (y', changes') ∧ y' ≠ y := by
  intro s
  let d : Document := { root := { name := "project" } }
  let once := upgradeAt s.upgrade .parentInheritance [] d
  let twice := upgradeAt s.upgrade .parentInheritance [] once.normal
  have read : Document.parse "<project/>" = .ok d := by decide +kernel
  have found : processorsFor s.upgrade .parentInheritance = .ok [] := rfl
  have writable : once.IsWritable := by decide +kernel
  have writable' : twice.IsWritable := by decide +kernel
  have read' := Document.parse_render writable
  have other : twice.render ≠ once.render := by
    intro same
    have again := Document.parse_render writable'
    rw [same, read', Except.ok.injEq] at again
    exact absurd again (by decide +kernel)
  exact ⟨by decide +kernel, by decide +kernel, once.render, _, twice.render, _,
    upgradeText_eq_ok.2 ⟨d, [], read, found, rfl, rfl⟩,
    upgradeText_eq_ok.2 ⟨_, [], read', found, rfl, rfl⟩, other⟩

end JavaMigration.Settings
