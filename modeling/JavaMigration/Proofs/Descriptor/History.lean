import JavaMigration.Proofs.Descriptor.InPlace
import JavaMigration.Proofs.FileTree.Unlisted

/-!
# Histories of backups

Descriptors are upgraded and backed up in any order and with any stamps. A call keeps everything but
the descriptor that it upgrades. Its backup has a name that was free, which no walk lists, and keeps
the old bytes until it is upgraded itself.
-/

namespace JavaMigration.Descriptor

open FileTree

/-- The form of a time stamp: the date in eight digits, an underscore, and the time in six. -/
def isStamp (s : List Char) : Bool :=
  s.length = 15 && s[8]? = some '_' && (s.take 8 ++ s.drop 9).all Char.isDigit

structure Stamp where
  text : String
  formed : isStamp text.toList = true

example : isStamp "20240131_235959".toList = true := by decide

namespace Stamp

variable (stamp : Stamp) {c : Char}

theorem digit_or_underscore (h : c ∈ stamp.text.toList) : c.isDigit = true ∨ c = '_' := by
  have formed := stamp.formed
  simp only [isStamp, Bool.and_eq_true, decide_eq_true_eq, List.all_eq_true] at formed
  obtain ⟨⟨-, underscore⟩, digits⟩ := formed
  obtain ⟨inside, there⟩ := List.getElem?_eq_some_iff.1 underscore
  rw [← List.take_append_drop 8 stamp.text.toList, List.drop_eq_getElem_cons inside, there,
    List.mem_append, List.mem_cons] at h
  rcases h with date | rfl | time
  · exact .inl (digits c (List.mem_append_left _ date))
  · exact .inr rfl
  · exact .inl (digits c (List.mem_append_right _ time))

theorem notMem (digit : c.isDigit = false) (other : c ≠ '_') : c ∉ stamp.text.toList := by
  intro mem
  rcases stamp.digit_or_underscore mem with isDigit | same
  · rw [digit] at isDigit
    cases isDigit
  · exact other same

theorem plain : '/' ∉ stamp.text.toList :=
  stamp.notMem (by decide) (by decide)

theorem length : stamp.text.toList.length = 15 := by
  have formed := stamp.formed
  simp only [isStamp, Bool.and_eq_true, decide_eq_true_eq] at formed
  exact formed.1.1

end Stamp

theorem extensionOf?_append (outer : Name) {extension : Name} (plain : point ∉ extension) :
    Path.extensionOf? (outer ++ point :: extension) =
      if outer = [] then none else some extension := by
  have passed : ∀ b ∈ extension.reverse, decide (b ≠ point) = true := by
    intro b mem
    have : b ≠ point := by
      rintro rfl
      exact plain (List.mem_reverse.1 mem)
    simpa using this
  simp only [Path.extensionOf?, List.reverse_append, List.reverse_cons, List.append_assoc,
    List.singleton_append]
  rw [List.dropWhile_append_of_pos passed, List.takeWhile_append_of_pos passed]
  rcases List.eq_nil_or_concat' outer with rfl | ⟨init, b, rfl⟩
  · simp
  · simp

/-- A backup is not named like anything that a walk looks for. -/
theorem isUnlisted_backup {name : Name} (plain : slash ∉ name) (stamp : Stamp) (n : Nat) :
    IsUnlisted (name ++ backupSuffix stamp.text n) := by
  have pointless : point ∉ Text.bytes (backupExtension stamp.text n) := by
    intro byte
    exact notMem_backupExtension (by decide) (by decide) (stamp.notMem (by decide) (by decide)) n
      (Text.mem_of_mem_bytes (by decide) byte)
  have other : backupExtension stamp.text n ≠ "java" := by
    intro same
    have first := congrArg (·.toList.head?) same
    simp [toList_backupExtension] at first
  constructor
  · have := stamp.length
    have := length_backupSuffix stamp.text n
    rw [List.length_append]
    omega
  · simp [plain, slash_notMem_backupSuffix stamp.plain n]
  · rw [backupSuffix, extensionOf?_append _ pointless]
    split
    · simp
    · exact fun same => other (Text.bytes_injective (Option.some.inj same))

theorem fileName?_backupPath (p : Path) (stamp : Stamp) (n : Nat) :
    ∃ name, IsUnlisted name ∧ (backupPath p stamp.text n).fileName? = some name := by
  obtain ⟨init, last, written, extended⟩ := p.exists_pieces_concat
  have plain : slash ∉ last := Path.slash_notMem_of_mem_pieces (p := p) (by simp [written])
  have unlisted := isUnlisted_backup plain stamp n
  refine ⟨_, unlisted, ?_⟩
  rw [backupPath_eq]
  apply Path.fileName?_of_pieces _ unlisted.isFileName
  · exact init
  · exact extended _ (slash_notMem_backupSuffix stamp.plain n)

theorem not_accepts_backupPath (p : Path) (stamp : Stamp) (n : Nat) {kind : FileMatcher}
    (known : kind = .descriptors ∨ kind = .sources) :
    kind.accepts (backupPath p stamp.text n) = false := by
  obtain ⟨name, unlisted, named⟩ := fileName?_backupPath p stamp n
  apply unlisted.not_accepts _ known
  intro other named'
  exact Option.some.inj (named'.symm.trans named)

variable {t u : FileTree} {p copy : Path} {l : Location}

/-- `u` is `t`, possibly with a new file that has the name of a backup. -/
inductive Saved (t : FileTree) : FileTree → Prop
  | same : Saved t t
  | added (dir : Location) (name : Name) (content : ByteArray)
      (vacant : t.entry? (dir ++ [name]) = none) (unlisted : IsUnlisted name) :
      Saved t (t.put (dir ++ [name]) (.file content))

theorem Saved.extends (h : Saved t u) : t.Extends u := by
  cases h with
  | same => exact .refl t
  | added dir name content vacant unlisted => exact .put t _ vacant

theorem Saved.locked (h : Saved t u) : u.locked = t.locked := by
  cases h with
  | same => rfl
  | added dir name content vacant unlisted => rfl

theorem saved_createBackup (t : FileTree) (p : Path) (stamp : Stamp) :
    Saved t (createBackup t p stamp.text).1 := by
  unfold createBackup
  cases found : t.find p with
  | error e => exact .same
  | ok place =>
    simp only [bind, Except.bind]
    split
    · exact .same
    · rename_i copy l chosen
      have searched : freeBackup t p stamp.text (t.entries.length + 2) 0 = .ok (copy, l) := by
        split at chosen
        · cases chosen
        · exact chosen
      obtain ⟨m, -, rfl, free, -⟩ := freeBackup_sound searched
      obtain ⟨leads, vacant⟩ := vacant_of_vacancy_eq_some free
      obtain ⟨dir, name, plain, extended⟩ := exists_locate_extend found
      -- The free name stands in the directory of the file.
      obtain rfl : dir ++ [name ++ backupSuffix stamp.text m] = l := by
        have long := length_backupSuffix stamp.text m
        rw [backupPath_eq, extended _ (slash_notMem_backupSuffix stamp.plain m) (by omega)] at leads
        exact Except.ok.inj leads
      cases t.content p with
      | error e => exact .added dir _ .empty vacant (isUnlisted_backup plain stamp m)
      | ok content => exact .added dir _ content vacant (isUnlisted_backup plain stamp m)

/-- One use of the library on a descriptor, with the stamp of its time. -/
inductive Call
  | upgrade (s : UpgradeSettings) (o : Options) (stamp : Stamp) (p : Path)
  | backUp (stamp : Stamp) (p : Path)

namespace Call

def path : Call → Path
  | upgrade _ _ _ p => p
  | backUp _ p => p

def stamp : Call → Stamp
  | upgrade _ _ stamp _ => stamp
  | backUp stamp _ => stamp

def backsUp : Call → Bool
  | upgrade _ o _ _ => o.backsUp
  | backUp _ _ => true

def Upgrades : Call → FileTree → Location → Prop
  | upgrade _ _ _ p, t, l => t.locate p = .ok l
  | backUp _ _, _, _ => False

def run (t : FileTree) : Call → FileTree × Except DescriptorError (Option Path)
  | upgrade s o stamp p =>
    let (u, result) := upgradeFile s o stamp.text t p
    (u, result.map (·.backup))
  | backUp stamp p =>
    let (u, result) := createBackup t p stamp.text
    (u, result.map some)

/-- What a call would leave that takes no backup. -/
def runWithoutBackup (t : FileTree) : Call → FileTree
  | upgrade s o stamp p => (upgradeFile s { o with backsUp := false } stamp.text t p).1
  | backUp _ _ => t

end Call

/-- How a file is replaced depends on its content alone, and on which files can be written. -/
theorem exists_replacement (s : UpgradeSettings) (strategy : Strategy) (p : Path) (l : Location)
    (content : ByteArray) (locked : List Location) :
    ∃ new : Option ByteArray, ∀ u backup, u.find p = .ok (l, .file content) → u.locked = locked →
      (replaceByUpgrade s strategy u p backup).1 =
        match new with
        | none => u
        | some new => u.put l (.file new) := by
  by_cases encoded : ∃ xml : String, content = xml.toUTF8
  · obtain ⟨xml, rfl⟩ := encoded
    cases upgraded : upgradeText s strategy xml with
    | error cause =>
      refine ⟨none, fun u backup found _ => ?_⟩
      simp only [replaceByUpgrade_of_utf8 found, upgraded]
    | ok result =>
      by_cases refused : l ∈ locked
      · refine ⟨none, fun u backup found same => ?_⟩
        simp only [replaceByUpgrade_of_utf8 found, upgraded, same, refused, ↓reduceIte]
      · refine ⟨some result.1.toUTF8, fun u backup found same => ?_⟩
        simp only [replaceByUpgrade_of_utf8 found, upgraded, same, refused, ↓reduceIte]
  · refine ⟨none, fun u backup found _ => ?_⟩
    rw [replaceByUpgrade_of_not_utf8 found fun xml same => encoded ⟨xml, same⟩]

namespace Call

theorem exists_saved_upgrade (s : UpgradeSettings) (o : Options) (stamp : Stamp)
    (file : t.isFile p = true) :
    ∃ saved backup, Saved t saved ∧
      upgradeFile s o stamp.text t p = replaceByUpgrade s o.strategy saved p backup ∧
      backup.isSome = o.backsUp ∧
      ∀ copy, backup = some copy → IsBackup t p stamp.text copy saved := by
  obtain ⟨l, content, found⟩ := isFile_iff.1 file
  cases wanted : o.backsUp with
  | false => exact ⟨t, none, .same, by simp [upgradeFile, file, wanted], rfl, by simp⟩
  | true =>
    obtain ⟨copy, taken⟩ := createBackup_succeeds stamp.plain found
    rcases createBackup_of_find stamp.text found with ⟨e, failed⟩ | ⟨copy', u, done, isBackup⟩
    · rw [failed] at taken
      cases taken
    · refine ⟨u, some copy', ?_, by simp [upgradeFile, file, wanted, done], rfl, ?_⟩
      · simpa only [done] using saved_createBackup t p stamp
      · rintro copy ⟨⟩
        exact isBackup

/-- All that a call can do: it may add a backup, and then write the file that it upgrades. -/
theorem run_cases (t : FileTree) (c : Call) :
    ∃ saved, Saved t saved ∧
      (((c.run t).1 = saved ∧ c.runWithoutBackup t = t) ∨
        ∃ l old new, c.Upgrades t l ∧ t.entry? l = some (.file old) ∧
          (c.run t).1 = saved.put l (.file new) ∧
          c.runWithoutBackup t = t.put l (.file new)) := by
  cases c with
  | backUp stamp p => exact ⟨_, saved_createBackup t p stamp, .inl ⟨rfl, rfl⟩⟩
  | upgrade s o stamp p =>
    cases file : t.isFile p with
    | false =>
      exact ⟨t, .same, .inl (by simp [run, runWithoutBackup, upgradeFile, file])⟩
    | true =>
      obtain ⟨l, old, found⟩ := isFile_iff.1 file
      obtain ⟨leads, here⟩ := find_eq_ok.1 found
      obtain ⟨saved, backup, isSaved, run, -, -⟩ := exists_saved_upgrade s o stamp file
      obtain ⟨new, replaced⟩ := exists_replacement s o.strategy p l old t.locked
      have without := replaced t none found rfl
      have within := replaced saved backup (isSaved.extends.find found) isSaved.locked
      have alone : runWithoutBackup t (upgrade s o stamp p) =
          (replaceByUpgrade s o.strategy t p none).1 := by
        simp [runWithoutBackup, upgradeFile, file]
      refine ⟨saved, isSaved, ?_⟩
      cases new with
      | none => exact .inl ⟨by simpa only [Call.run, run] using within, alone.trans without⟩
      | some new =>
        exact .inr ⟨l, old, new, leads, here, by simpa only [Call.run, run] using within,
          alone.trans without⟩

theorem sameDirectories_run (t : FileTree) (c : Call) : t.SameDirectories (c.run t).1 := by
  obtain ⟨saved, isSaved, cases⟩ := c.run_cases t
  have same : t.SameDirectories saved := by
    cases isSaved with
    | same => exact .refl t
    | added dir name content vacant => exact .put_file content (by simp [vacant])
  rcases cases with ⟨left, -⟩ | ⟨l, old, new, -, here, left, -⟩
  · rwa [left]
  · rw [left]
    apply same.trans
    apply SameDirectories.put_file
    simp [isSaved.extends.entries _ _ here]

/-- A call keeps everything but the file that it upgrades. -/
theorem lookup_run {c : Call} {e : Entry} (present : t.entry? l = some e)
    (other : ¬ c.Upgrades t l) : entry? (c.run t).1 l = some e := by
  obtain ⟨saved, isSaved, cases⟩ := c.run_cases t
  have kept := isSaved.extends.entries l e present
  rcases cases with ⟨left, -⟩ | ⟨l', old, new, upgrades, here, left, -⟩
  · rwa [left]
  · rw [left, lookup_put_of_ne]
    · exact kept
    · rintro rfl
      exact other upgrades

theorem sameWalks_run (t : FileTree) (c : Call) :
    SameWalks (c.runWithoutBackup t) (c.run t).1 := by
  obtain ⟨saved, isSaved, cases⟩ := c.run_cases t
  rcases cases with ⟨left, without⟩ | ⟨l, old, new, -, here, left, without⟩
  · rw [left, without]
    cases isSaved with
    | same => exact .refl t
    | added dir name content vacant unlisted =>
      exact sameWalks_put_unlisted vacant unlisted content
  · rw [left, without]
    cases isSaved with
    | same => exact .refl _
    | added dir name content vacant unlisted =>
      have apart : dir ++ [name] ≠ l := by
        rintro rfl
        rw [vacant] at here
        cases here
      rw [put_comm apart]
      apply sameWalks_put_unlisted _ unlisted
      rw [lookup_put_of_ne apart, vacant]

theorem isFile_of_run {c : Call} (h : (c.run t).2 = .ok (some copy)) :
    c.backsUp = true ∧ t.isFile c.path = true := by
  cases c with
  | backUp stamp p =>
    refine ⟨rfl, ?_⟩
    cases read : t.content p with
    | ok content => exact isFile_of_content read
    | error e =>
      simp only [run, createBackup, read] at h
      split at h
      · cases h
      · cases h
  | upgrade s o stamp p =>
    cases result : (upgradeFile s o stamp.text t p).2 with
    | error e =>
      simp only [run, result] at h
      cases h
    | ok summary =>
      simp only [run, result, Except.map, Except.ok.injEq] at h
      have replaces := replaces_of_ok result
      obtain ⟨l, xml, new, saved, found, -⟩ := replaces.content
      refine ⟨?_, isFile_iff.2 ⟨l, _, found⟩⟩
      rw [backsUp, ← replaces.backup, h]
      rfl

end Call

/-- `copy` is the first name for a backup of the file at `p` that is free. -/
structure IsFirstFree (t : FileTree) (p : Path) (stamp : String) (copy : Path) : Prop where
  named : ∃ n, copy = backupPath p stamp n ∧
    ∀ k, k < n → t.contains (backupPath p stamp k) = true
  free : t.contains copy = false

theorem IsBackup.isFirstFree {stamp : String} (h : IsBackup t p stamp copy u) :
    IsFirstFree t p stamp copy := by
  refine ⟨h.named, ?_⟩
  obtain ⟨l, content, -, vacant, found, -⟩ := h.added
  cases present : t.contains copy with
  | false => rfl
  | true =>
    obtain ⟨l', e, found'⟩ := contains_iff.1 present
    cases found.symm.trans (h.extends.find found')
    rw [(find_eq_ok.1 found').2] at vacant
    cases vacant

theorem find_replaceByUpgrade (s : UpgradeSettings) (strategy : Strategy) (backup : Option Path)
    {content : ByteArray} {place : Location} {e : Entry} (found : t.find p = .ok (l, .file content))
    (there : t.find copy = .ok (place, e)) (apart : t.locate copy ≠ .ok l) :
    find (replaceByUpgrade s strategy t p backup).1 copy = .ok (place, e) := by
  rcases replaceByUpgrade_cases s strategy backup found with
    ⟨e, stopped⟩ | ⟨xml, new, changes, -, -, done⟩
  · rwa [stopped]
  · rw [done, find_put_of_ne (find_eq_ok.1 found).2 _ apart, there]

theorem backup_of_replaceByUpgrade (s : UpgradeSettings) (strategy : Strategy)
    (backup : Option Path) {content : ByteArray} {result : Option Path}
    (found : t.find p = .ok (l, .file content))
    (returned : (replaceByUpgrade s strategy t p backup).2.map (·.backup) = .ok result) :
    result = backup := by
  rcases replaceByUpgrade_cases s strategy backup found with
    ⟨e, stopped⟩ | ⟨xml, new, changes, -, -, done⟩
  · rw [stopped] at returned
    cases returned
  · rw [done] at returned
    exact (Except.ok.inj returned).symm

namespace Call

/-- The backup that a call takes of a file. -/
structure TakesBackup (c : Call) (t : FileTree) (copy : Path) (content : ByteArray) : Prop where
  firstFree : IsFirstFree t c.path c.stamp.text copy
  original : t.content c.path = .ok content
  copied : (c.run t).1.content copy = .ok content
  returned : ∀ result, (c.run t).2 = .ok result → result = some copy
  /-- A call that is to take a backup alone does not fail. -/
  alone : ∀ stamp p, c = .backUp stamp p → (c.run t).2 = .ok (some copy)

theorem exists_takesBackup {c : Call} (wanted : c.backsUp = true) (file : t.isFile c.path = true) :
    ∃ copy content, c.TakesBackup t copy content := by
  cases c with
  | backUp stamp p =>
    have file : t.isFile p = true := file
    obtain ⟨l, content, found⟩ := isFile_iff.1 file
    rcases createBackup_of_find stamp.text found with ⟨e, failed⟩ | ⟨copy, u, done, isBackup⟩
    · obtain ⟨copy, taken⟩ := createBackup_succeeds stamp.plain found
      rw [failed] at taken
      cases taken
    · obtain ⟨place, content, original, -, copied, -⟩ := isBackup.added
      refine ⟨copy, content, isBackup.isFirstFree, original, ?_, ?_, ?_⟩
      · simpa only [run, done] using content_eq_of_find copied
      · intro result returned
        simp only [run, done, Except.map, Except.ok.injEq] at returned
        exact returned.symm
      · intro _ _ _
        simp only [run, done, Except.map]
  | upgrade s o stamp p =>
    have file : t.isFile p = true := file
    obtain ⟨l, old, here⟩ := isFile_iff.1 file
    obtain ⟨saved, backup, isSaved, upgraded, asked, isBackup⟩ :=
      exists_saved_upgrade s o stamp file
    obtain ⟨copy, rfl⟩ := Option.isSome_iff_exists.1 (asked.trans wanted)
    have isBackup := isBackup copy rfl
    obtain ⟨place, content, original, vacant, copied, -⟩ := isBackup.added
    have found := isSaved.extends.find here
    have apart : saved.locate copy ≠ .ok l := by
      rw [(find_eq_ok.1 copied).1]
      rintro ⟨⟩
      rw [(find_eq_ok.1 here).2] at vacant
      cases vacant
    refine ⟨copy, content, isBackup.isFirstFree, original, ?_, ?_, nofun⟩
    · simp only [run, upgraded]
      exact content_eq_of_find (find_replaceByUpgrade s o.strategy (some copy) found copied apart)
    · intro result returned
      simp only [run, upgraded] at returned
      exact backup_of_replaceByUpgrade s o.strategy (some copy) found returned

end Call

def runAll (calls : List Call) (t : FileTree) : FileTree :=
  calls.foldl (fun t c => (c.run t).1) t

theorem sameDirectories_runAll (calls : List Call) (t : FileTree) :
    t.SameDirectories (runAll calls t) := by
  induction calls generalizing t with
  | nil => exact .refl t
  | cons c calls ih => exact (c.sameDirectories_run t).trans (ih _)

theorem Call.upgrades_congr (h : t.SameDirectories u) (c : Call) :
    c.Upgrades u l ↔ c.Upgrades t l := by
  cases c with
  | upgrade s o stamp p => exact h.locate_iff
  | backUp stamp p => exact Iff.rfl

theorem lookup_runAll {calls : List Call} {e : Entry} (present : t.entry? l = some e)
    (others : ∀ c ∈ calls, ¬ c.Upgrades t l) : entry? (runAll calls t) l = some e := by
  induction calls generalizing t with
  | nil => exact present
  | cons c calls ih =>
    apply ih
    · exact Call.lookup_run present (others c (by simp))
    · intro c' mem
      rw [c'.upgrades_congr (c.sameDirectories_run t)]
      exact others c' (by simp [mem])

/-- A file keeps its bytes until a call upgrades it. -/
theorem content_runAll {calls : List Call} {content : ByteArray} (h : t.content p = .ok content)
    (others : ∀ c ∈ calls, ∀ l, t.locate p = .ok l → ¬ c.Upgrades t l) :
    (runAll calls t).content p = .ok content := by
  obtain ⟨l, content', found⟩ := isFile_iff.1 (isFile_of_content h)
  obtain ⟨leads, here⟩ := find_eq_ok.1 found
  cases h.symm.trans (content_eq_of_find found)
  apply content_eq_of_find (l := l)
  rw [find_eq_ok]
  constructor
  · exact (sameDirectories_runAll calls t).locate_iff.2 leads
  · exact lookup_runAll here fun c mem => others c mem l leads

/--
Backups are never lost, whatever calls come before and after. A call keeps everything but the
descriptor that it upgrades. If it is to take a backup of a file, it takes one with the first name
that is free, and the backup has the bytes of the file until a later call upgrades it. It is no
descriptor and no source, and walks go as they would without it.
-/
theorem backups_never_lost (t : FileTree) (earlier : List Call) (c : Call) (later : List Call) :
    let before := runAll earlier t
    let after := (c.run before).1
    (∀ l e, before.entry? l = some e → ¬ c.Upgrades before l → after.entry? l = some e) ∧
      (∀ copy, (c.run before).2 = .ok (some copy) →
        c.backsUp = true ∧ before.isFile c.path = true) ∧
      (c.backsUp = true → before.isFile c.path = true →
        ∃ copy content, c.TakesBackup before copy content ∧
          ((∀ c' ∈ later, ∀ l, after.locate copy = .ok l → ¬ c'.Upgrades after l) →
            (runAll (earlier ++ c :: later) t).content copy = .ok content)) ∧
      (∀ n, FileMatcher.descriptors.accepts (backupPath c.path c.stamp.text n) = false ∧
        FileMatcher.sources.accepts (backupPath c.path c.stamp.text n) = false) ∧
      SameWalks (c.runWithoutBackup before) after := by
  intro before after
  have last : runAll (earlier ++ c :: later) t = runAll later after := by
    simp only [runAll, List.foldl_append, List.foldl_cons, before, after]
  refine ⟨fun l e => Call.lookup_run, fun copy => Call.isFile_of_run, ?_, ?_,
    c.sameWalks_run before⟩
  · intro wanted file
    obtain ⟨copy, content, taken⟩ := Call.exists_takesBackup wanted file
    refine ⟨copy, content, taken, ?_⟩
    rw [last]
    exact content_runAll taken.copied
  · intro n
    exact ⟨not_accepts_backupPath _ _ n (.inl rfl), not_accepts_backupPath _ _ n (.inr rfl)⟩

/-- Three backups with one stamp. The second one finds its name taken, and the third leaves it alone. -/
theorem backups_never_lost_taken :
    let t : FileTree := {
      entries := [(["pom.xml"], .file ⟨#[60]⟩)]
      ascending := by unfold Table.Ascending; decide +kernel }
    let stamp : Stamp := ⟨"20240131_235959", by decide⟩
    let p : Path := ⟨"pom.xml"⟩
    let c := Call.backUp stamp p
    let before := runAll [c] t
    c.backsUp = true ∧ before.isFile p = true ∧
      before.contains (backupPath p stamp.text 0) = true ∧
      c.TakesBackup before (backupPath p stamp.text 1) ⟨#[60]⟩ ∧
      (runAll [c, c, c] t).content (backupPath p stamp.text 1) = .ok ⟨#[60]⟩ := by
  intro t stamp p c before
  have file : before.isFile p = true := by decide +kernel
  obtain ⟨-, -, takes, -⟩ := backups_never_lost t [c] c [c]
  obtain ⟨copy, content, taken, kept⟩ := takes rfl file
  have second : (c.run before).2 = .ok (some (backupPath p stamp.text 1)) := by decide +kernel
  obtain rfl : backupPath p stamp.text 1 = copy := Option.some.inj (taken.returned _ second)
  have read : before.content p = .ok ⟨#[60]⟩ := by decide +kernel
  obtain rfl : ⟨#[60]⟩ = content := Except.ok.inj (read.symm.trans taken.original)
  refine ⟨rfl, file, by decide +kernel, taken, kept ?_⟩
  intro c' mem l _ upgrades
  rw [List.mem_singleton.1 mem] at upgrades
  exact upgrades

end JavaMigration.Descriptor
