import JavaMigration.Descriptor.InPlace
import JavaMigration.Proofs.Descriptor.Backup

/-!
# Upgrades in place

An upgrade of a file does to its content what `upgradeText` does to the text. It fails for the same
reasons, once the backup is taken and if the file can be written, and leaves all that was there
before as it was where it fails.
-/

namespace JavaMigration.Descriptor

open FileTree

variable {s : UpgradeSettings} {strategy : Strategy} {o : Options} {stamp : String}
  {t u : FileTree} {p : Path} {l : Location} {content : ByteArray} {backup : Option Path}

theorem readText_of_find (h : t.find p = .ok (l, .file content)) :
    readText t p = (t.text p).mapError .file := by
  have file : t.isFile p = true := isFile_iff.2 ⟨l, content, h⟩
  simp only [readText, file, ↓reduceIte]

theorem upgradedText_of_utf8 {xml : String} (h : t.find p = .ok (l, .file xml.toUTF8)) :
    upgradedText s strategy t p = (upgradeText s strategy xml).mapError .upgrade := by
  have text : t.text p = .ok xml := text_eq_ok.2 (content_eq_of_find h)
  simp only [upgradedText, readText_of_find h, text, Except.mapError, bind, Except.bind]

theorem text_of_not_utf8 (h : t.find p = .ok (l, .file content))
    (binary : ∀ xml : String, content ≠ xml.toUTF8) : t.text p = .error .notText := by
  cases decoded : String.fromUTF8? content with
  | none => simp [text, content_eq_of_find h, decoded, bind, Except.bind]
  | some xml => exact absurd (fromUTF8?_eq_some.1 decoded).symm (binary xml)

theorem replaceByUpgrade_of_utf8 {xml : String} (h : t.find p = .ok (l, .file xml.toUTF8)) :
    replaceByUpgrade s strategy t p backup =
      match upgradeText s strategy xml with
      | .error cause => (t, .error (.upgrade cause))
      | .ok (new, changes) =>
        if l ∈ t.locked then (t, .error (.file .denied))
        else (t.put l (.file new.toUTF8), .ok ⟨p, backup, strategy, changes⟩) := by
  unfold replaceByUpgrade
  rw [upgradedText_of_utf8 h]
  cases upgradeText s strategy xml with
  | error cause => rfl
  | ok result =>
    by_cases locked : l ∈ t.locked
    · simp [Except.mapError, writeText_of_find h, locked]
    · simp [Except.mapError, writeText_of_find h, locked]

theorem replaceByUpgrade_of_not_utf8 (h : t.find p = .ok (l, .file content))
    (binary : ∀ xml : String, content ≠ xml.toUTF8) :
    replaceByUpgrade s strategy t p backup = (t, .error (.file .notText)) := by
  simp only [replaceByUpgrade, upgradedText, readText_of_find h, text_of_not_utf8 h binary,
    Except.mapError, bind, Except.bind]

/-- The step after the backup leaves its tree as it is, or puts the upgraded text in its place. -/
theorem replaceByUpgrade_cases (s : UpgradeSettings) (strategy : Strategy) (backup : Option Path)
    (h : t.find p = .ok (l, .file content)) :
    (∃ e, replaceByUpgrade s strategy t p backup = (t, .error e)) ∨
      ∃ xml new changes, content = xml.toUTF8 ∧ upgradeText s strategy xml = .ok (new, changes) ∧
        replaceByUpgrade s strategy t p backup =
          (t.put l (.file new.toUTF8), .ok ⟨p, backup, strategy, changes⟩) := by
  by_cases encoded : ∃ xml : String, content = xml.toUTF8
  · obtain ⟨xml, rfl⟩ := encoded
    rw [replaceByUpgrade_of_utf8 h]
    cases upgraded : upgradeText s strategy xml with
    | error cause => exact .inl ⟨_, rfl⟩
    | ok result =>
      by_cases locked : l ∈ t.locked
      · exact .inl ⟨.file .denied, if_pos locked⟩
      · exact .inr ⟨xml, result.1, result.2, rfl, upgraded, if_neg locked⟩
  · exact .inl ⟨_, replaceByUpgrade_of_not_utf8 h fun xml same => encoded ⟨xml, same⟩⟩

/-- `u` is `t`, with the given backup of the file at `p` if there is one. -/
def BackedUp (t : FileTree) (p : Path) (stamp : String) (u : FileTree) : Option Path → Prop
  | none => u = t
  | some copy => IsBackup t p stamp copy u

theorem BackedUp.extends (h : BackedUp t p stamp u backup) : t.Extends u := by
  cases backup with
  | none =>
    cases h
    exact Extends.refl t
  | some copy => exact IsBackup.extends h

theorem BackedUp.locked (h : BackedUp t p stamp u backup) : u.locked = t.locked := by
  cases backup with
  | none => exact congrArg FileTree.locked h
  | some copy =>
    obtain ⟨l, content, -, -, -, same⟩ := IsBackup.added h
    exact same.locked

def BackupSucceeds (o : Options) (stamp : String) (t : FileTree) (p : Path) : Prop :=
  o.backsUp = true → ∃ copy, (createBackup t p stamp).2 = .ok copy

/-- An upgrade stops before it has changed anything, or goes on from a tree with its backup. -/
theorem upgradeFile_cases (s : UpgradeSettings) (o : Options) (stamp : String) (t : FileTree)
    (p : Path) :
    (upgradeFile s o stamp t p = (t, .error (.notFound p)) ∧ t.isFile p = false) ∨
      (∃ e, upgradeFile s o stamp t p = (t, .error (.backup p e)) ∧
        ¬ BackupSucceeds o stamp t p) ∨
      ∃ l content backup u, t.find p = .ok (l, .file content) ∧
        BackedUp t p stamp u backup ∧ backup.isSome = o.backsUp ∧
        upgradeFile s o stamp t p = replaceByUpgrade s o.strategy u p backup := by
  unfold upgradeFile
  cases file : t.isFile p with
  | false => exact .inl ⟨rfl, rfl⟩
  | true =>
    obtain ⟨l, content, found⟩ := isFile_iff.1 file
    refine .inr ?_
    cases wanted : o.backsUp with
    | false => exact .inr ⟨l, content, none, t, found, rfl, rfl, by simp⟩
    | true =>
      rcases createBackup_of_find stamp found with ⟨e, failed⟩ | ⟨copy, u, taken, isBackup⟩
      · refine .inl ⟨e, by simp [failed], ?_⟩
        intro succeeds
        obtain ⟨copy, taken⟩ := succeeds wanted
        rw [failed] at taken
        cases taken
      · exact .inr ⟨l, content, some copy, u, found, isBackup, rfl, by simp [taken]⟩

/-- What an upgrade that returns an error leaves: at most a backup is new. -/
def FailsSafely (o : Options) (stamp : String) (t : FileTree) (p : Path) (u : FileTree) : Prop :=
  ∃ backup, BackedUp t p stamp u backup ∧
    (backup.isSome = true → t.isFile p = true ∧ o.backsUp = true)

/-- What an upgrade that returns a summary leaves: a backup if one is wanted, and the new text. -/
structure Replaces (s : UpgradeSettings) (o : Options) (stamp : String) (t : FileTree) (p : Path)
    (summary : Summary) (u : FileTree) : Prop where
  path : summary.path = p
  strategy : summary.strategy = o.strategy
  backup : summary.backup.isSome = o.backsUp
  content : ∃ l xml new saved,
    t.find p = .ok (l, .file xml.toUTF8) ∧
    upgradeText s o.strategy xml = .ok (new, summary.changes) ∧
    BackedUp t p stamp saved summary.backup ∧
    u.find p = .ok (l, .file new.toUTF8) ∧ saved.SameExcept l u
  /-- The backup has the old bytes, also after the descriptor is written. -/
  kept : ∀ copy, summary.backup = some copy → u.content copy = t.content p

theorem failsSafely_of_error {e : DescriptorError} (h : (upgradeFile s o stamp t p).2 = .error e) :
    FailsSafely o stamp t p (upgradeFile s o stamp t p).1 := by
  rcases upgradeFile_cases s o stamp t p with
    ⟨run, -⟩ | ⟨cause, run, -⟩ | ⟨l, content, backup, u, found, saved, wanted, run⟩
  · rw [run]
    exact ⟨none, rfl, by simp⟩
  · rw [run]
    exact ⟨none, rfl, by simp⟩
  · have kept : FailsSafely o stamp t p u :=
      ⟨backup, saved, fun taken => ⟨isFile_iff.2 ⟨l, content, found⟩, wanted ▸ taken⟩⟩
    rw [run] at h ⊢
    rcases replaceByUpgrade_cases s o.strategy backup (saved.extends.find found) with
      ⟨e, stopped⟩ | ⟨xml, new, changes, -, -, done⟩
    · rw [stopped]
      exact kept
    · rw [done] at h
      cases h

theorem replaces_of_ok {summary : Summary} (h : (upgradeFile s o stamp t p).2 = .ok summary) :
    Replaces s o stamp t p summary (upgradeFile s o stamp t p).1 := by
  rcases upgradeFile_cases s o stamp t p with
    ⟨run, -⟩ | ⟨cause, run, -⟩ | ⟨l, content, backup, u, found, saved, wanted, run⟩
  · rw [run] at h
    cases h
  · rw [run] at h
    cases h
  · rw [run] at h ⊢
    have present := saved.extends.find found
    rcases replaceByUpgrade_cases s o.strategy backup present with
      ⟨e, stopped⟩ | ⟨xml, new, changes, rfl, upgraded, done⟩
    · rw [stopped] at h
      cases h
    · rw [done] at h ⊢
      cases h
      obtain ⟨leads, here⟩ := find_eq_ok.1 present
      refine ⟨rfl, rfl, wanted, ⟨l, xml, new, u, found, upgraded, saved, ?_, sameExcept_put u l _⟩, ?_⟩
      · rw [find_eq_ok, locate_put_file here]
        exact ⟨leads, lookup_put_self (ne_nil_of_not_directory (t := u) (by simp [here]))⟩
      · rintro copy rfl
        obtain ⟨place, content, original, vacant, copied, -⟩ := IsBackup.added saved
        obtain ⟨leads', there⟩ := find_eq_ok.1 copied
        have apart : place ≠ l := by
          intro same
          rw [same, (find_eq_ok.1 found).2] at vacant
          cases vacant
        rw [original]
        refine content_eq_of_find (l := place) (find_eq_ok.2 ?_)
        rw [locate_put_file here, lookup_put_of_ne apart]
        exact ⟨leads', there⟩

theorem error_iff_of_utf8 {xml : String} (h : t.content p = .ok xml.toUTF8)
    (unlocked : t.IsUnlocked p) (succeeds : BackupSucceeds o stamp t p) (e : DescriptorError) :
    (upgradeFile s o stamp t p).2 = .error e ↔
      ∃ cause, upgradeText s o.strategy xml = .error cause ∧ e = .upgrade cause := by
  rcases upgradeFile_cases s o stamp t p with
    ⟨run, absent⟩ | ⟨cause, run, failed⟩ | ⟨l, content, backup, u, found, saved, wanted, run⟩
  · have present := isFile_of_content h
    rw [absent] at present
    cases present
  · exact absurd succeeds failed
  · obtain rfl : content = xml.toUTF8 := by
      rw [content_eq_of_find found] at h
      exact Except.ok.inj h
    have writable : l ∉ u.locked := by
      rw [saved.locked]
      exact unlocked l (find_eq_ok.1 found).1
    rw [run, replaceByUpgrade_of_utf8 (saved.extends.find found)]
    cases upgradeText s o.strategy xml with
    | error cause => simp [eq_comm]
    | ok result => simp [writable]

/--
The upgrade of a file that can be written refines that of its text, and nothing is lost where it
fails. Only a stamp with a slash can keep the backup of a file from being taken.
-/
theorem upgradeFile_refines_upgradeText (s : UpgradeSettings) (o : Options) (stamp : String)
    (t : FileTree) (p : Path) :
    (∀ e, (upgradeFile s o stamp t p).2 = .error e →
        FailsSafely o stamp t p (upgradeFile s o stamp t p).1) ∧
      (∀ summary, (upgradeFile s o stamp t p).2 = .ok summary →
        Replaces s o stamp t p summary (upgradeFile s o stamp t p).1) ∧
      (∀ xml : String, t.content p = .ok xml.toUTF8 → t.IsUnlocked p → BackupSucceeds o stamp t p →
        ∀ e, (upgradeFile s o stamp t p).2 = .error e ↔
          ∃ cause, upgradeText s o.strategy xml = .error cause ∧ e = .upgrade cause) ∧
      (t.isFile p = true → '/' ∉ stamp.toList → BackupSucceeds o stamp t p) := by
  refine ⟨fun _ => failsSafely_of_error, fun _ => replaces_of_ok, fun _ => error_iff_of_utf8, ?_⟩
  intro file plain _
  obtain ⟨l, content, found⟩ := isFile_iff.1 file
  exact createBackup_succeeds plain found

/-- An empty descriptor has no root to upgrade. It is left as it was, with a backup beside it. -/
theorem upgradeFile_refines_upgradeText_empty :
    let t : FileTree := {
      entries := [(["pom.xml"], .file ⟨#[]⟩)]
      ascending := by unfold Table.Ascending; decide +kernel }
    let p : Path := ⟨"pom.xml"⟩
    let stamp := "20240131_235959"
    let run := upgradeFile .builtIn {} stamp t p
    t.content p = .ok "".toUTF8 ∧ t.IsUnlocked p ∧ BackupSucceeds {} stamp t p ∧
      run.2 = .error (.upgrade (.document .missingRoot)) ∧ FailsSafely {} stamp t p run.1 ∧
      run.1.content p = .ok ⟨#[]⟩ ∧ run.1.content (backupPath p stamp 0) = .ok ⟨#[]⟩ := by
  intro t p stamp run
  obtain ⟨fails, -, errors, succeeds⟩ := upgradeFile_refines_upgradeText .builtIn {} stamp t p
  have content : t.content p = .ok "".toUTF8 := by decide +kernel
  have unlocked : t.IsUnlocked p := fun _ _ => List.not_mem_nil
  have backup : BackupSucceeds {} stamp t p := succeeds (by decide +kernel) (by decide)
  have rootless : upgradeText .builtIn .bomImport "" = .error (.document .missingRoot) := by
    decide +kernel
  have stopped : run.2 = .error (.upgrade (.document .missingRoot)) :=
    (errors "" content unlocked backup _).2 ⟨_, rootless, rfl⟩
  exact ⟨content, unlocked, backup, stopped, fails _ stopped, by decide +kernel, by decide +kernel⟩

end JavaMigration.Descriptor
