import JavaMigration.Proofs.Descriptor.Writable
import JavaMigration.Proofs.Markup.Acceptance

/-!
# Convergence of upgrades

An upgrade of a text that an upgrade wrote gives the same text. What is read back is the normal form
of the document that was written, and there is nothing left to upgrade in it.
-/

namespace JavaMigration.Descriptor

open Markup

variable {s : UpgradeSettings} {strategy : Strategy} {processors : List Coordinate}

def upgradeAt (s : UpgradeSettings) (strategy : Strategy) (processors : List Coordinate)
    (d : Document) : Document :=
  { d with root := upgradeRoot s strategy processors d.root }

theorem upgradeText_eq_ok {xml y : String} {changes : Changes} :
    upgradeText s strategy xml = .ok (y, changes) ↔
      ∃ d processors, Document.parse xml = .ok d ∧ processorsFor s strategy = .ok processors ∧
        y = (upgradeAt s strategy processors d).render ∧ changes = changesOf s strategy d.root := by
  unfold upgradeText
  simp only [upgradeDocument_eq]
  cases Document.parse xml with
  | error e => simp [Except.mapError, bind, Except.bind]
  | ok d =>
    cases processorsFor s strategy with
    | error e => simp [Except.mapError, Except.map, bind, Except.bind]
    | ok processors =>
      simp [Except.mapError, Except.map, bind, Except.bind, upgradeAt, eq_comm]

theorem normal_with_leading (e : Element) (leading : List String) :
    Element.normal { e with leading } = { e.normal with leading } := by
  rw [Element.normal_eq, Element.normal_eq]

theorem isReadable_upgradeAt (stable : IsStable s) (strategy : Strategy)
    (processors : List Coordinate) {d : Document} (h : d.IsReadable) :
    (upgradeAt s strategy processors d).IsReadable where
  root := keeps_isWritable stable strategy processors d.root h.root
  comments := h.comments
  header := h.header

theorem isWritable_upgradeAt (stable : IsStable s) (strategy : Strategy)
    (processors : List Coordinate) {d : Document} (h : d.IsWritable) :
    (upgradeAt s strategy processors d).IsWritable where
  root := keeps_isWritable stable strategy processors d.root h.root
  comments := h.comments
  header := h.header

/-- In the normal form of an upgraded document nothing is left to upgrade. -/
theorem upgradeAt_again (stable : IsStable s) (d : Document) :
    (upgradeAt s strategy processors (upgradeAt s strategy processors d).normal).normal =
      (upgradeAt s strategy processors d).normal := by
  have root := upgradeRoot_again stable strategy processors d.root
  have again : upgradeRoot s strategy processors
      { (upgradeRoot s strategy processors d.root).normal with leading := [] } =
        { upgradeRoot s strategy processors (upgradeRoot s strategy processors d.root).normal with
          leading := [] } :=
    upgradeRoot_with_leading s strategy processors _ []
  simp only [upgradeAt, Document.normal, again, normal_with_leading, root, Option.getD_some,
    List.append_nil]

/-- What an upgrade writes is upgraded to itself. -/
theorem upgradeText_converges (s : UpgradeSettings) (stable : IsStable s) (strategy : Strategy)
    {x y : String} {d : Document} {changes : Changes} (read : Document.parse x = .ok d)
    (proper : d.IsProper) (upgraded : upgradeText s strategy x = .ok (y, changes)) :
    ∃ changes', upgradeText s strategy y = .ok (y, changes') := by
  obtain ⟨d', processors, read', found, rfl, -⟩ := upgradeText_eq_ok.1 upgraded
  obtain rfl : d' = d := Except.ok.inj (read'.symm.trans read)
  have writable := isWritable_upgradeAt stable strategy processors
    (Document.isWritable_of_parse read proper)
  have same : (upgradeAt s strategy processors (upgradeAt s strategy processors d').normal).render =
      (upgradeAt s strategy processors d').render := by
    rw [← Document.render_normal, upgradeAt_again stable, Document.render_normal]
  exact ⟨_, upgradeText_eq_ok.2
    ⟨_, processors, Document.parse_render writable, found, same.symm, rfl⟩⟩

/-- A descriptor with a prefix, a comment, an attribute and a text that is not trimmed. -/
theorem upgradeText_converges_prefixed :
    let x := "<m:project><!-- old --><m:properties a='\"'>\n 8<m:java.version/>" ++
      "</m:properties></m:project>"
    ∃ d y changes changes', Document.parse x = .ok d ∧ d.IsProper ∧
      upgradeText .builtIn .bomImport x = .ok (y, changes) ∧
      upgradeText .builtIn .bomImport y = .ok (y, changes') := by
  intro x
  let d : Document :=
    { root :=
        { name := "m:project",
          children :=
            [{ name := "m:properties", attributes := [("a", "\"")], text := some "8",
               leading := [" old "], children := [{ name := "m:java.version" }] }] } }
  have read : Document.parse x = .ok d := by decide +kernel
  have proper : d.IsProper := by decide
  have found : processorsFor .builtIn .bomImport =
      .ok [⟨"org.projectlombok", "lombok", "1.18.36"⟩,
        ⟨"org.mapstruct", "mapstruct-processor", "1.5.5.Final"⟩] := by decide +kernel
  have upgraded := upgradeText_eq_ok.2 ⟨d, _, read, found, rfl, rfl⟩
  obtain ⟨changes', again⟩ := upgradeText_converges .builtIn (by decide) .bomImport read proper
    upgraded
  exact ⟨d, _, _, changes', read, proper, upgraded, again⟩

end JavaMigration.Descriptor
