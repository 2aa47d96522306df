import Mathlib.Algebra.GroupWithZero.Nat
import JavaMigration.Proofs.Imports.DryRun
import JavaMigration.Proofs.Imports.FirstMatch
import JavaMigration.Proofs.Table

/-!
# Totals of a migration

The counters of a migration are kept beside each other: by file, by namespace and in all. Whatever a
file adds to one of them it adds to the others, so they come to the same at the end, and each file
that is listed is counted for one of three reasons: it changes, it cannot be read, or it is left as
it is. A file that is listed again is looked at again, in a tree that may have changed.
-/

namespace JavaMigration

namespace ByName

variable {name : String} {n : Nat} {t : ByName Nat} {row : String × Nat}

@[simp]
theorem total_cons (row : String × Nat) (t : ByName Nat) :
    total (row :: t) = row.2 + t.total :=
  rfl

theorem total_count (name : String) (n : Nat) (t : ByName Nat) :
    (t.count name n).total = t.total + n := by
  unfold count
  induction t with
  | nil => simp [Table.update, total]
  | cons row rest ih =>
    rw [Table.update]
    split
    · simp only [total_cons, Option.getD_none]
      omega
    · split
      · simp only [total_cons, Option.getD_some]
        omega
      · simp only [total_cons, ih]
        omega

theorem mem_count (mem : row ∈ t.count name n) : row ∈ t ∨ row.1 = name ∧ n ≤ row.2 := by
  unfold count at mem
  induction t with
  | nil =>
    rw [Table.update, List.mem_singleton] at mem
    simp [mem]
  | cons first rest ih =>
    rw [Table.update] at mem
    split at mem
    · rcases List.mem_cons.1 mem with rfl | mem
      · simp
      · exact .inl mem
    · split at mem
      · rename_i same
        rcases List.mem_cons.1 mem with rfl | mem
        · exact .inr ⟨same.symm, by simp⟩
        · exact .inl (by simp [mem])
      · rcases List.mem_cons.1 mem with rfl | mem
        · exact .inl (by simp)
        · exact (ih mem).imp_left fun mem => by simp [mem]

end ByName

namespace Imports

open FileTree

variable {plan : Plan} {mappings : List Mapping} {root p : Path} {t : FileTree}
  {stats : Statistics} {files : List Path} {tally : Tally}

/-- An entry that stands for a mapping that moved something. -/
def Counts (mappings : List Mapping) (entry : String × Nat) : Prop :=
  (∃ m ∈ mappings, m.source = entry.1) ∧ 0 < entry.2

theorem counts_of_mem_tally {s : List Char} :
    ∀ entry ∈ (applyMappings s mappings).2, Counts mappings entry := by
  induction mappings generalizing s with
  | nil => simp [applyMappings]
  | cons m rest ih =>
    have widen : ∀ entry, Counts rest entry → Counts (m :: rest) entry := by
      rintro entry ⟨⟨m', mem, named⟩, positive⟩
      exact ⟨⟨m', by simp [mem], named⟩, positive⟩
    rw [applyMappings]
    by_cases none : (move m.source.toList m.target.toList none s).2 = 0
    · simp only [none, ↓reduceIte]
      exact fun entry mem => widen entry (ih entry mem)
    · simp only [none, ↓reduceIte, List.forall_mem_cons]
      refine ⟨⟨⟨m, by simp, rfl⟩, Nat.pos_of_ne_zero none⟩, ?_⟩
      exact fun entry mem => widen entry (ih entry mem)

theorem total_pos_of_modified {content : String}
    (modified : (rewrite mappings content).modified = true) :
    0 < (rewrite mappings content).tally.total := by
  apply Nat.pos_of_ne_zero
  intro none
  have same := applyMappings_of_nil (applyMappings_eq_nil_of_total none)
  simp [rewrite, same] at modified

theorem counts_of_rewriting? {r : Rewriting} (h : rewriting? plan t p = some r) :
    (∀ entry ∈ r.tally, Counts plan.mappings entry) ∧ 0 < r.tally.total := by
  unfold rewriting? at h
  split at h
  · cases h
  · simp only [Option.ite_none_right_eq_some, Option.some.injEq] at h
    obtain ⟨modified, rfl⟩ := h
    exact ⟨counts_of_mem_tally, total_pos_of_modified modified⟩

def addTally (tally : Tally) (t : ByName Nat) : ByName Nat :=
  tally.foldl (fun t (name, n) => t.count name n) t

theorem total_addTally (tally : Tally) (t : ByName Nat) :
    (addTally tally t).total = t.total + tally.total := by
  unfold addTally
  induction tally generalizing t with
  | nil => rfl
  | cons entry rest ih =>
    rw [List.foldl_cons, ih, ByName.total_count, Nat.add_assoc]
    rfl

theorem counts_of_mem_addTally {t : ByName Nat} (known : ∀ row ∈ t, Counts mappings row)
    (entries : ∀ entry ∈ tally, Counts mappings entry) :
    ∀ row ∈ addTally tally t, Counts mappings row := by
  unfold addTally
  induction tally generalizing t with
  | nil => exact known
  | cons entry rest ih =>
    obtain ⟨⟨mapped, positive⟩, entries⟩ := List.forall_mem_cons.1 entries
    refine ih ?_ entries
    intro row mem
    rcases ByName.mem_count mem with old | ⟨same, more⟩
    · exact known row old
    · exact ⟨same ▸ mapped, Nat.lt_of_lt_of_le positive more⟩

theorem ascending_addTally (tally : Tally) {t : ByName Nat} (h : Table.Ascending t) :
    Table.Ascending (addTally tally t) :=
  Table.ascending_foldl_update String.lt_trans Prod.fst (fun entry old => old.getD 0 + entry.2)
    tally h

/-- The counters come to the same by file, by namespace and in all, and none of them is idle. -/
structure Balanced (mappings : List Mapping) (stats : Statistics) : Prop where
  byNamespace : stats.byNamespace.total = stats.totalReplacements
  byFile : (stats.changedFiles.map (·.replacements)).sum = stats.totalReplacements
  modified : stats.modifiedFiles = stats.changedFiles.length
  changed : ∀ c ∈ stats.changedFiles, 0 < c.replacements
  ascending : Table.Ascending stats.byNamespace
  namespaces : ∀ row ∈ stats.byNamespace, Counts mappings row

namespace Balanced

theorem start (mappings : List Mapping) (totalFiles : Nat) (dryRun : Bool) :
    Balanced mappings { totalFiles, dryRun } where
  byNamespace := rfl
  byFile := rfl
  modified := rfl
  changed := by simp
  ascending := List.Pairwise.nil
  namespaces := by simp

theorem warn (h : Balanced mappings stats) (w : Warning) : Balanced mappings (stats.warn w) :=
  ⟨h.byNamespace, h.byFile, h.modified, h.changed, h.ascending, h.namespaces⟩

/-- A file adds to the table of namespaces and to the list of files what it adds to the total. -/
theorem record (h : Balanced mappings stats) (path : String)
    (entries : ∀ entry ∈ tally, Counts mappings entry) (positive : 0 < tally.total) :
    Balanced mappings (stats.record path tally) where
  byNamespace := by
    have added := total_addTally tally stats.byNamespace
    rw [h.byNamespace] at added
    exact added
  byFile := by
    simp [Statistics.record, h.byFile]
  modified := by
    simp [Statistics.record, h.modified]
  changed := by
    intro c mem
    rcases List.mem_append.1 mem with old | new
    · exact h.changed c old
    · rwa [List.mem_singleton.1 new]
  ascending := ascending_addTally tally h.ascending
  namespaces := counts_of_mem_addTally h.namespaces entries

theorem observe (h : Balanced plan.mappings stats) (root : Path) (t : FileTree) (p : Path) :
    Balanced plan.mappings (observe plan root t stats p) := by
  unfold Imports.observe
  cases rewritten : rewriting? plan t p with
  | none =>
    cases warning? plan t p with
    | none => exact h
    | some w => exact h.warn w
  | some r =>
    obtain ⟨entries, positive⟩ := counts_of_rewriting? rewritten
    have recorded := h.record (root.relativeTo p) entries positive
    cases warning? plan t p with
    | none => exact recorded
    | some w => exact recorded.warn w

end Balanced

theorem totalFiles_observeAll (plan : Plan) (root : Path) (stats : Statistics)
    (turns : List (FileTree × Path)) :
    (observeAll plan root stats turns).totalFiles = stats.totalFiles := by
  unfold observeAll
  induction turns generalizing stats with
  | nil => rfl
  | cons first rest ih =>
    rw [List.foldl_cons, ih]
    unfold observe
    cases rewriting? plan first.1 first.2 with
    | none => cases warning? plan first.1 first.2 <;> rfl
    | some r => cases warning? plan first.1 first.2 <;> rfl

theorem Balanced.observeAll (h : Balanced plan.mappings stats) (root : Path)
    (turns : List (FileTree × Path)) :
    Balanced plan.mappings (observeAll plan root stats turns) := by
  unfold Imports.observeAll
  induction turns generalizing stats with
  | nil => exact h
  | cons first rest ih => exact ih (h.observe root first.1 first.2)

def readFailed : List Char :=
  "read failed: ".toList

def isReadFailure (w : Warning) : Bool :=
  readFailed.isPrefixOf w.message.toList

theorem isReadFailure_readFailure (p : Path) (e : FileError) :
    isReadFailure (readFailure p e) = true := by
  have begins : (readFailure p e).message.toList = readFailed ++ e.message.toList :=
    String.toList_append
  rw [isReadFailure, begins, List.isPrefixOf_iff_prefix]
  exact List.prefix_append _ _

theorem isReadFailure_writeFailure (p : Path) : isReadFailure (writeFailure p) = false := by
  have begins : (writeFailure p).message.toList =
      writeFailed ++ FileError.denied.message.toList := String.toList_append
  rw [isReadFailure, begins]
  rfl

theorem countP_warning? (plan : Plan) (t : FileTree) (p : Path) :
    (warning? plan t p).toList.countP isReadFailure =
      if (readFailure? plan t p).isSome then 1 else 0 := by
  unfold warning? readFailure?
  cases t.textWithin plan.sizeLimit p with
  | error e => simp [isReadFailure_readFailure]
  | ok content =>
    unfold writeFailure?
    cases isRefused plan t p with
    | false => simp
    | true => simp [isReadFailure_writeFailure]

def isUnchanged (plan : Plan) (t : FileTree) (p : Path) : Bool :=
  match t.textWithin plan.sizeLimit p with
  | .error _ => false
  | .ok content => (rewrite plan.mappings content).content = content

/-- A file is rewritten, cannot be read or is left as it is, and only one of these. -/
theorem outcome (plan : Plan) (root : Path) (t : FileTree) (p : Path) :
    (change? plan root t p).toList.length +
      (warning? plan t p).toList.countP isReadFailure +
        (if isUnchanged plan t p then 1 else 0) = 1 := by
  rw [countP_warning?]
  unfold change? rewriting? readFailure? isUnchanged
  cases t.textWithin plan.sizeLimit p with
  | error e => rfl
  | ok content =>
    by_cases same : (rewrite plan.mappings content).content = content
    · have unmodified : (rewrite plan.mappings content).modified = false := by
        simpa [rewrite] using same
      simp [unmodified, same]
    · have modified : (rewrite plan.mappings content).modified = true := by
        simpa [rewrite] using same
      simp [modified, same]

theorem length_eq_of_outcomes (plan : Plan) (root : Path) (turns : List (FileTree × Path)) :
    turns.length = (turns.filterMap fun turn => change? plan root turn.1 turn.2).length +
      (turns.filterMap fun turn => warning? plan turn.1 turn.2).countP isReadFailure +
      turns.countP fun turn => isUnchanged plan turn.1 turn.2 := by
  simp only [List.filterMap_eq_flatMap_toList]
  induction turns with
  | nil => rfl
  | cons turn rest ih =>
    have here := outcome plan root turn.1 turn.2
    simp only [List.length_cons, List.countP_cons, List.flatMap_cons, List.length_append,
      List.countP_append]
    omega

/-- What the statistics of a run say of its files, each in the tree in which it is looked at. -/
structure AddsUp (plan : Plan) (root : Path) (turns : List (FileTree × Path))
    (stats : Statistics) : Prop where
  balanced : Balanced plan.mappings stats
  /-- The changed files are listed in the order in which all files are. -/
  listed : stats.changedFiles = turns.filterMap fun turn => change? plan root turn.1 turn.2
  inOrder : (stats.changedFiles.map (·.path)).Sublist (turns.map fun turn => root.relativeTo turn.2)
  warned : stats.warnings = turns.filterMap fun turn => warning? plan turn.1 turn.2
  all : stats.totalFiles = turns.length
  outcomes : stats.totalFiles = stats.modifiedFiles + stats.warnings.countP isReadFailure +
    turns.countP fun turn => isUnchanged plan turn.1 turn.2

theorem sublist_changed (plan : Plan) (root : Path) (turns : List (FileTree × Path)) :
    ((turns.filterMap fun turn => change? plan root turn.1 turn.2).map (·.path)).Sublist
      (turns.map fun turn => root.relativeTo turn.2) := by
  induction turns with
  | nil => exact .slnil
  | cons turn rest ih =>
    rw [List.filterMap_cons, List.map_cons]
    unfold change?
    cases rewriting? plan turn.1 turn.2 with
    | none => exact ih.cons _
    | some r => exact ih.cons_cons _

theorem addsUp_observeAll (plan : Plan) (root : Path) (turns : List (FileTree × Path)) :
    AddsUp plan root turns
      (observeAll plan root { totalFiles := turns.length, dryRun := plan.dryRun } turns) := by
  let start : Statistics := { totalFiles := turns.length, dryRun := plan.dryRun }
  have changed : (observeAll plan root start turns).changedFiles = _ :=
    observeAll_of_append (changedFiles_observe plan root) start turns
  have warned : (observeAll plan root start turns).warnings = _ :=
    observeAll_of_append (warnings_observe plan root) start turns
  have balanced := (Balanced.start plan.mappings turns.length plan.dryRun).observeAll root turns
  rw [List.nil_append] at changed warned
  refine ⟨balanced, changed, ?_, warned, totalFiles_observeAll plan root start turns, ?_⟩
  · rw [changed]
    exact sublist_changed plan root turns
  · calc (observeAll plan root start turns).totalFiles = turns.length :=
          totalFiles_observeAll plan root start turns
      _ = _ := length_eq_of_outcomes plan root turns
      _ = _ := by rw [balanced.modified, changed, warned]

theorem length_turns (plan : Plan) (t : FileTree) (files : List Path) :
    (turns plan t files).length = files.length := by
  induction files generalizing t with
  | nil => rfl
  | cons first rest ih => rw [turns, List.length_cons, List.length_cons, ih]

theorem addsUp_of_migrate {enumerate : Enumeration} {u : FileTree}
    (migrated : migrate enumerate plan t root = (u, .ok stats)) :
    ∃ files, enumerate t root .sources = .ok files ∧
      stats = observeAll plan root { totalFiles := files.length, dryRun := plan.dryRun }
        (turns plan t files) := by
  obtain ⟨-, files, listed, runs⟩ := migrate_eq_ok.1 migrated
  exact ⟨files, listed, by rw [← snd_foldl_migrateFile, runs]⟩

/-- The files of a walk are as they were before the run when their turns come. -/
theorem observeAll_turns (plan : Plan) (root : Path) (stats : Statistics)
    (apart : files.Pairwise fun p q => t.locate p ≠ t.locate q) :
    observeAll plan root stats (turns plan t files) =
      observeAll plan root stats (files.map (t, ·)) := by
  obtain ⟨u, runs, -⟩ := foldl_of_apart plan root stats apart
  rw [← snd_foldl_migrateFile, runs, observeAll_map]

theorem nodup_shown {scan : ScanSettings} {kind : FileMatcher} (named : t.HasFileNames)
    (listed : walk scan t root kind = .ok files) (texts : ∀ p ∈ files, root.IsTextBelow p) :
    (files.map root.relativeTo).Nodup := by
  rcases walk_eq_ok listed with ⟨-, rfl⟩ | ⟨-, rfl⟩ | ⟨base, rules, found, -⟩
  · exact .nil
  · split
    · exact List.nodup_singleton _
    · exact .nil
  · exact nodup_map_relativeTo named (by simp [isDirectory, found]) listed texts

/--
The statistics of every migration add up, dry run or not, whatever the table and whichever files are
listed: the imports that moved are the same by namespace, by file and in all, and each file that is
listed changes, cannot be read, or is left as it is when its turn comes. The files of a walk are
then as they were before the run, and the changed ones have different paths where these are texts.
-/
theorem migration_adds_up (plan : Plan) :
    (∀ (enumerate : Enumeration) (t u : FileTree) (root : Path) (stats : Statistics),
      migrate enumerate plan t root = (u, .ok stats) →
        ∃ files, enumerate t root .sources = .ok files ∧
          AddsUp plan root (turns plan t files) stats) ∧
    ∀ (scan : ScanSettings) (t u : FileTree) (root : Path) (stats : Statistics), t.HasFileNames →
      migrate (walk scan) plan t root = (u, .ok stats) →
        ∃ files, walk scan t root .sources = .ok files ∧
          AddsUp plan root (files.map (t, ·)) stats ∧
          ((∀ p ∈ files, root.IsTextBelow p) → (stats.changedFiles.map (·.path)).Nodup) := by
  constructor
  · intro enumerate t u root stats migrated
    obtain ⟨files, listed, rfl⟩ := addsUp_of_migrate migrated
    refine ⟨files, listed, ?_⟩
    rw [← length_turns plan t files]
    exact addsUp_observeAll plan root _
  · intro scan t u root stats named migrated
    obtain ⟨files, listed, rfl⟩ := addsUp_of_migrate migrated
    rw [observeAll_turns plan root _ (pairwise_locate_walk named listed)]
    have length : (files.map (t, ·)).length = files.length := List.length_map _
    rw [← length]
    have adds := addsUp_observeAll plan root (files.map (t, ·))
    refine ⟨files, listed, adds, fun texts => ?_⟩
    have shown := adds.inOrder
    rw [List.map_map] at shown
    exact (nodup_shown named listed texts).sublist shown

/-- A namespace with two mappings, of which the second one moves what the first one has moved. -/
theorem migration_adds_up_repeated :
    let t : FileTree := {
      entries := [
        (["r"], .directory),
        (["r", "A.java"], .file "import a.X; import c.Y;".toUTF8),
        (["r", "B.java"], .file "import c.Z;".toUTF8),
        (["r", "C.java"], .file ⟨#[255]⟩),
        (["r", "D.java"], .file "class D {}".toUTF8)]
      ascending := by unfold Table.Ascending; decide +kernel
      current := ["r"]
      locked := [["r", "B.java"]] }
    let plan : Plan :=
      { mappings := [⟨"a", "a.b"⟩, ⟨"c", "d"⟩, ⟨"a", "e"⟩], sizeLimit := none, dryRun := false }
    let stats : Statistics := {
      totalFiles := 4, modifiedFiles := 2, totalReplacements := 4
      byNamespace := [("a", 2), ("c", 2)], dryRun := false
      changedFiles := [⟨"A.java", 3⟩, ⟨"B.java", 1⟩]
      warnings := [⟨"./B.java", "write failed: Permission denied (os error 13)"⟩,
        ⟨"./C.java", "read failed: stream did not contain valid UTF-8"⟩] }
    t.HasFileNames ∧ ∃ u, migrate (walk {}) plan t ⟨"."⟩ = (u, .ok stats) ∧
      (∃ files, walk {} t ⟨"."⟩ .sources = .ok files ∧
        AddsUp plan ⟨"."⟩ (turns plan t files) stats) ∧
      ∃ files, walk {} t ⟨"."⟩ .sources = .ok files ∧ AddsUp plan ⟨"."⟩ (files.map (t, ·)) stats ∧
        (stats.changedFiles.map (·.path)).Nodup := by
  intro t plan stats
  have named : t.HasFileNames := by decide +kernel
  have counted : (migrate (walk {}) plan t ⟨"."⟩).2 = .ok stats := by decide +kernel
  have migrated : migrate (walk {}) plan t ⟨"."⟩ =
      ((migrate (walk {}) plan t ⟨"."⟩).1, .ok stats) := Prod.ext rfl counted
  obtain ⟨everywhere, walks⟩ := migration_adds_up plan
  obtain ⟨files, listed, adds, distinct⟩ := walks {} t _ ⟨"."⟩ stats named migrated
  have texts : ∀ p ∈ files, Path.IsTextBelow ⟨"."⟩ p := by
    have files_eq : walk {} t ⟨"."⟩ .sources =
        .ok [⟨"./A.java"⟩, ⟨"./B.java"⟩, ⟨"./C.java"⟩, ⟨"./D.java"⟩] := by
      decide +kernel
    rw [listed, Except.ok.injEq] at files_eq
    rw [files_eq]
    decide +kernel
  exact ⟨named, _, migrated, everywhere (walk {}) t _ ⟨"."⟩ stats migrated, files, listed, adds,
    distinct texts⟩

/--
Two sources with names that are no texts, and are shown alike, are listed as one path twice, and so
is in a dry run a source that is enumerated twice.
-/
theorem migration_lists_alike :
    let content : Entry := .file "import a.X;".toUTF8
    let t : FileTree := {
      entries := [([([77, 246] ++ Text.bytes ".java")], content),
        ([([77, 252] ++ Text.bytes ".java")], content)]
      ascending := by unfold Table.Ascending; decide +kernel }
    let t' : FileTree := {
      entries := [(["A.java"], content)]
      ascending := by unfold Table.Ascending; decide +kernel }
    let mappings : List Mapping := [⟨"a", "b"⟩]
    t.HasFileNames ∧
      ((migrate (walk {}) ⟨mappings, none, false⟩ t ⟨"."⟩).2.map fun stats =>
        stats.changedFiles.map (·.path)) = .ok ["M\uFFFD.java", "M\uFFFD.java"] ∧
      ((migrate (fun _ _ _ => .ok [⟨"A.java"⟩, ⟨"./A.java"⟩]) ⟨mappings, none, true⟩ t' ⟨"."⟩).2.map
        fun stats => stats.changedFiles.map (·.path)) = .ok ["A.java", "A.java"] := by
  decide +kernel

end Imports

end JavaMigration
