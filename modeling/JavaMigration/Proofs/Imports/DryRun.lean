import JavaMigration.Proofs.FileTree.Shown
import JavaMigration.Proofs.Imports.Migration
import Mathlib.Data.List.Basic

/-!
# Dry runs

What a file adds to the statistics depends on the file alone, and no file is looked at twice. So a
file is still as it was when its turn comes, whatever was written before. Where all files can be
written, a run that writes thus has the statistics of a dry run, and it changes the files that they
list.
-/

namespace JavaMigration

def FileTree.IsWritable (t : FileTree) : Prop :=
  t.locked = []

theorem FileTree.IsWritable.isLocked_eq {t : FileTree} (writable : t.IsWritable) (p : Path) :
    t.isLocked p = false := by
  unfold isLocked
  split
  · rw [writable]
    rfl
  · rfl

namespace Imports

open FileTree

variable {plan : Plan} {root p : Path} {t u : FileTree} {stats : Statistics} {files : List Path}

theorem written?_congr (locked : u.isLocked p = t.isLocked p) (same : u.find p = t.find p) :
    written? plan u p = written? plan t p := by
  simp only [written?, locked, rewriting?_congr same]

theorem isRefused_congr (locked : u.isLocked p = t.isLocked p) (same : u.find p = t.find p) :
    isRefused plan u p = isRefused plan t p := by
  simp only [isRefused, locked, rewriting?_congr same]

theorem warning?_congr (locked : u.isLocked p = t.isLocked p) (same : u.find p = t.find p) :
    warning? plan u p = warning? plan t p := by
  unfold warning? readFailure? writeFailure?
  rw [textWithin_congr same, isRefused_congr locked same]

theorem observe_congr (locked : u.isLocked p = t.isLocked p) (same : u.find p = t.find p)
    (root : Path) (stats : Statistics) :
    observe plan root u stats p = observe plan root t stats p := by
  simp only [observe, rewriting?_congr same, warning?_congr locked same]

/-- `u` is `t` with the given files rewritten, where an import in them moves and they are written. -/
structure RewritesFiles (plan : Plan) (files : List Path) (t u : FileTree) : Prop where
  unaffected : Unaffected t u
  written : ∀ p ∈ files, ∀ r, written? plan t p = some r →
    ∃ l, t.locate p = .ok l ∧ u.entry? l = some (.file r.content.toUTF8)
  kept : ∀ l, (∀ p ∈ files, (written? plan t p).isSome = true → t.locate p ≠ .ok l) →
    u.entry? l = t.entry? l

namespace RewritesFiles

variable {first : Path} {rest : List Path} {l : Location} {old : String}

theorem cons_of_none (h : RewritesFiles plan rest t u) (none : written? plan t first = none) :
    RewritesFiles plan (first :: rest) t u where
  unaffected := h.unaffected
  written := by
    intro p mem r rewritten
    rcases List.mem_cons.1 mem with rfl | mem
    · rw [none] at rewritten
      cases rewritten
    · exact h.written p mem r rewritten
  kept := by
    intro l other
    apply h.kept
    intro p mem
    exact other p (by simp [mem])

theorem cons_of_put
    (h : RewritesFiles plan rest (t.put l (.file (rewrite plan.mappings old).content.toUTF8)) u)
    (found : t.find first = .ok (l, .file old.toUTF8))
    (rewritten : written? plan t first = some (rewrite plan.mappings old))
    (apart : ∀ q ∈ rest, t.locate q ≠ .ok l) : RewritesFiles plan (first :: rest) t u := by
  obtain ⟨leads, here⟩ := find_eq_ok.1 found
  have step : Unaffected t (t.put l (.file (rewrite plan.mappings old).content.toUTF8)) :=
    ⟨rfl, rfl, locate_put_file here⟩
  have same : ∀ q ∈ rest, written? plan
      (t.put l (.file (rewrite plan.mappings old).content.toUTF8)) q = written? plan t q :=
    fun q mem => written?_congr (step.isLocked q) (find_put_of_ne here _ (apart q mem))
  refine ⟨step.trans h.unaffected, ?_, ?_⟩
  · intro p mem r rewritten'
    rcases List.mem_cons.1 mem with rfl | mem
    · cases rewritten.symm.trans rewritten'
      refine ⟨l, leads, ?_⟩
      rw [h.kept]
      · exact lookup_put_self (ne_nil_of_not_directory (t := t) (by simp [here]))
      · intro q mem _
        rw [step.locate]
        exact apart q mem
    · rw [← same p mem] at rewritten'
      obtain ⟨l', leads', there⟩ := h.written p mem r rewritten'
      exact ⟨l', (step.locate p).symm.trans leads', there⟩
  · intro l' other
    have ne : l' ≠ l := by
      rintro rfl
      exact other first (by simp) (by simp [rewritten]) leads
    rw [h.kept, lookup_put_of_ne ne]
    intro q mem rewritten'
    rw [step.locate]
    apply other q (by simp [mem])
    rwa [← same q mem]

end RewritesFiles

/-- Files that are still to be looked at are as they were, since they are at other locations. -/
theorem foldl_of_apart (plan : Plan) (root : Path) (stats : Statistics)
    (apart : files.Pairwise fun p q => t.locate p ≠ t.locate q) :
    ∃ u, files.foldl (migrateFile plan root) (t, stats) =
        (u, files.foldl (observe plan root t) stats) ∧ RewritesFiles plan files t u := by
  induction files generalizing t stats with
  | nil => exact ⟨t, rfl, .refl t, by simp, fun _ _ => rfl⟩
  | cons first rest ih =>
    obtain ⟨others, apart⟩ := List.pairwise_cons.1 apart
    have step := unaffected_leave plan t first
    simp only [List.foldl_cons, migrateFile_eq]
    rcases leave_cases plan t first with ⟨none, left⟩ | ⟨l, old, found, -, rewritten, left⟩
    · obtain ⟨u, runs, rewrites⟩ := ih (observe plan root t stats first) apart
      rw [left]
      exact ⟨u, runs, rewrites.cons_of_none none⟩
    · obtain ⟨leads, here⟩ := find_eq_ok.1 found
      have other : ∀ q ∈ rest, t.locate q ≠ .ok l := by
        intro q mem
        rw [← leads]
        exact (others q mem).symm
      obtain ⟨u, runs, rewrites⟩ := ih (t := leave plan t first)
        (observe plan root t stats first) (by simpa only [step.locate] using apart)
      rw [left] at rewrites
      refine ⟨u, ?_, rewrites.cons_of_put found rewritten other⟩
      rw [runs, Prod.mk.injEq]
      refine ⟨rfl, List.foldl_ext _ _ _ ?_⟩
      intro stats q mem
      refine observe_congr (step.isLocked q) ?_ root stats
      rw [left, find_put_of_ne here _ (other q mem)]

theorem isSettled_of_dryRun (dry : plan.dryRun = true) (t : FileTree) (p : Path) :
    IsSettled plan t p := by
  simp [IsSettled, written?, dry]

/-- What is counted does not depend on whether anything is written, if everything can be. -/
theorem foldl_observe_dryRun (plan : Plan) (root : Path) (writable : t.IsWritable)
    (stats : Statistics) (files : List Path) (dry : Bool) :
    files.foldl (observe { plan with dryRun := dry } root t) { stats with dryRun := dry } =
      { files.foldl (observe plan root t) stats with dryRun := dry } := by
  induction files generalizing stats with
  | nil => rfl
  | cons first rest ih =>
    have moved : rewriting? { plan with dryRun := dry } t first = rewriting? plan t first := rfl
    have warned : warning? { plan with dryRun := dry } t first = warning? plan t first := by
      simp only [warning?, readFailure?, writeFailure?, isRefused, writable.isLocked_eq,
        Bool.and_false, Bool.false_and]
    have step : observe { plan with dryRun := dry } root t { stats with dryRun := dry } first =
        { observe plan root t stats first with dryRun := dry } := by
      unfold observe
      rw [moved, warned]
      cases rewriting? plan t first with
      | none => cases warning? plan t first <;> rfl
      | some r => cases warning? plan t first <;> rfl
    rw [List.foldl_cons, List.foldl_cons, step, ih]

theorem changedFiles_foldl_observe (plan : Plan) (root : Path) (t : FileTree) (stats : Statistics)
    (files : List Path) :
    (files.foldl (observe plan root t) stats).changedFiles =
      stats.changedFiles ++ files.filterMap (change? plan root t) := by
  rw [← observeAll_map, observeAll_of_append (changedFiles_observe plan root), List.filterMap_map]
  rfl

def changedPaths (plan : Plan) (t : FileTree) (files : List Path) : List Path :=
  files.filter fun p => (rewriting? plan t p).isSome

/--
`u` is `t` with the changed files rewritten: each has its old content rewritten and is where it was,
and everything else is as it was. They are listed in the way they are shown, which leads back to
those with names that are texts.
-/
structure ChangesListed (mappings : List Mapping) (root : Path) (changed : List Path)
    (listed : List FileChange) (t u : FileTree) : Prop where
  shown : listed.map (·.path) = changed.map root.relativeTo
  known : ∀ p ∈ changed, root.IsTextBelow p → root.ofShown (root.relativeTo p) = p
  written : ∀ p ∈ changed, ∃ l old, t.find p = .ok (l, .file old.toUTF8) ∧
    u.find p = .ok (l, .file (rewrite mappings old).content.toUTF8)
  kept : ∀ l, (∀ p ∈ changed, t.locate p ≠ .ok l) → u.entry? l = t.entry? l
  /-- Nothing is created or removed, and no file becomes a directory or one of these a file. -/
  kinds : ∀ l, (u.entry? l = none ↔ t.entry? l = none) ∧
    (u.entry? l = some .directory ↔ t.entry? l = some .directory)
  current : u.current = t.current

theorem map_path_change? (plan : Plan) (root : Path) (t : FileTree) (files : List Path) :
    (files.filterMap (change? plan root t)).map (·.path) =
      (changedPaths plan t files).map root.relativeTo := by
  unfold changedPaths change?
  induction files with
  | nil => rfl
  | cons p rest ih =>
    rw [List.filterMap_cons, List.filter_cons]
    cases rewriting? plan t p with
    | none => simpa using ih
    | some r => simpa using ih

theorem RewritesFiles.changesListed (h : RewritesFiles plan files t u) (real : plan.dryRun = false)
    (writable : t.IsWritable)
    (known : ∀ p ∈ files, root.IsTextBelow p → root.ofShown (root.relativeTo p) = p) :
    ChangesListed plan.mappings root (changedPaths plan t files)
      (files.filterMap (change? plan root t)) t u := by
  have all : written? plan t = rewriting? plan t := by
    funext p
    simp [written?, real, writable.isLocked_eq]
  have written : ∀ p ∈ changedPaths plan t files, ∃ l old,
      t.find p = .ok (l, .file old.toUTF8) ∧
        u.find p = .ok (l, .file (rewrite plan.mappings old).content.toUTF8) := by
    intro p changed
    obtain ⟨mem, moved⟩ := List.mem_filter.1 changed
    obtain ⟨r, rewritten⟩ := Option.isSome_iff_exists.1 moved
    obtain ⟨l, old, found, rfl⟩ := find_of_rewriting? rewritten
    obtain ⟨l', leads, here⟩ := h.written p mem _ (by rw [all, rewritten])
    refine ⟨l, old, found, find_eq_ok.2 ⟨(h.unaffected.locate p).trans (find_eq_ok.1 found).1, ?_⟩⟩
    cases (find_eq_ok.1 found).1.symm.trans leads
    exact here
  have kept : ∀ l, (∀ p ∈ changedPaths plan t files, t.locate p ≠ .ok l) →
      u.entry? l = t.entry? l := by
    intro l other
    apply h.kept
    intro p mem rewritten
    rw [all] at rewritten
    exact other p (List.mem_filter.2 ⟨mem, rewritten⟩)
  refine ⟨map_path_change? plan root t files, fun p changed => known p (List.mem_filter.1 changed).1,
    written, kept, ?_, h.unaffected.current⟩
  intro l
  by_cases changed : ∃ p ∈ changedPaths plan t files, t.locate p = .ok l
  · obtain ⟨p, changed, leads⟩ := changed
    obtain ⟨l', old, before, after⟩ := written p changed
    cases (find_eq_ok.1 before).1.symm.trans leads
    simp [(find_eq_ok.1 before).2, (find_eq_ok.1 after).2]
  · simp only [not_exists, not_and] at changed
    rw [kept l changed]
    exact ⟨Iff.rfl, Iff.rfl⟩

/--
Where all files can be written, a dry run leaves the tree alone and predicts the run that writes:
that one fails for the same reason, or has the same statistics. It changes the files that these list
and nothing else, and they list each source that a walk comes to, if it can be read and an import in
it moves.
-/
theorem dryRun_predicts_migration (mappings : List Mapping) (scan : ScanSettings)
    (sizeLimit : Option Nat) (t : FileTree) (root : Path) (named : t.HasFileNames)
    (writable : t.IsWritable) :
    ∃ u result,
      migrate (walk scan) ⟨mappings, sizeLimit, false⟩ t root = (u, result) ∧
      migrate (walk scan) ⟨mappings, sizeLimit, true⟩ t root =
        (t, result.map fun stats => { stats with dryRun := true }) ∧
      (∀ e, result = .error e → u = t) ∧
      ∀ stats, result = .ok stats →
        stats.dryRun = false ∧
          ∃ files, walk scan t root .sources = .ok files ∧
            stats.changedFiles =
              files.filterMap (change? ⟨mappings, sizeLimit, false⟩ root t) ∧
            ChangesListed mappings root (changedPaths ⟨mappings, sizeLimit, false⟩ t files)
              stats.changedFiles t u := by
  by_cases present : t.contains root = true
  · cases listed : walk scan t root .sources with
    | error e =>
      refine ⟨t, .error (.walk e), ?_, ?_, fun _ _ => rfl, fun _ run => nomatch run⟩
      · simp [migrate, present, listed]
      · simp [migrate, present, listed, Except.map]
    | ok files =>
      let plan : Plan := ⟨mappings, sizeLimit, false⟩
      let start : Statistics := { totalFiles := files.length, dryRun := false }
      obtain ⟨u, runs, rewrites⟩ :=
        foldl_of_apart plan root start (pairwise_locate_walk named listed)
      have counted := foldl_observe_dryRun plan root writable start files
      have changed := changedFiles_foldl_observe plan root t start files
      refine ⟨u, .ok (files.foldl (observe plan root t) start), ?_, ?_,
        (fun _ run => nomatch run), ?_⟩
      · exact migrate_eq_ok.2 ⟨present, files, listed, runs⟩
      · refine migrate_eq_ok.2 ⟨present, files, listed, ?_⟩
        rw [foldl_of_isSettled fun p _ => isSettled_of_dryRun rfl t p]
        exact congrArg (t, ·) (counted true)
      · rintro stats ⟨⟩
        refine ⟨?_, files, rfl, changed, ?_⟩
        · rw [show start = { start with dryRun := false } from rfl, counted false]
        · rw [changed]
          exact rewrites.changesListed rfl writable (ofShown_of_walk named listed)
  · refine ⟨t, .error (.rootNotFound root), ?_, ?_, fun _ _ => rfl, fun _ run => nomatch run⟩
    · simp [migrate, present]
    · simp [migrate, present, Except.map]

/-- One of two sources is too large, another one lies in a directory that is left out. -/
theorem dryRun_predicts_migration_limited :
    let t : FileTree := {
      entries := [
        (["r"], .directory),
        (["r", "A.java"], .file "import javax.json.A;".toUTF8),
        (["r", "B.java"], .file "import javax.json.B; // too large".toUTF8),
        (["r", "notes.txt"], .file "import javax.json.A;".toUTF8),
        (["r", "target"], .directory),
        (["r", "target", "C.java"], .file "import javax.json.C;".toUTF8)]
      ascending := by unfold Table.Ascending; decide +kernel
      current := ["r"] }
    let mappings : List Mapping := [⟨"javax.json", "jakarta.json"⟩]
    let stats : Statistics := {
      totalFiles := 2, modifiedFiles := 1, totalReplacements := 1
      byNamespace := [("javax.json", 1)], dryRun := false, changedFiles := [⟨"A.java", 1⟩]
      warnings := [⟨"./B.java", "read failed: file is 33 bytes, above the 20-byte limit"⟩] }
    t.HasFileNames ∧ t.IsWritable ∧ ∃ u,
      migrate (walk {}) ⟨mappings, some 20, false⟩ t ⟨"."⟩ = (u, .ok stats) ∧
      migrate (walk {}) ⟨mappings, some 20, true⟩ t ⟨"."⟩ =
        (t, .ok { stats with dryRun := true }) ∧
      ChangesListed mappings ⟨"."⟩ [⟨"./A.java"⟩] [⟨"A.java", 1⟩] t u := by
  intro t mappings stats
  have named : t.HasFileNames := by decide +kernel
  obtain ⟨u, result, real, dry, -, changes⟩ :=
    dryRun_predicts_migration mappings {} (some 20) t ⟨"."⟩ named rfl
  have counted : (migrate (walk {}) ⟨mappings, some 20, false⟩ t ⟨"."⟩).2 = .ok stats := by
    decide +kernel
  obtain rfl : result = .ok stats := by
    rwa [real] at counted
  obtain ⟨-, files, listed, -, changed⟩ := changes stats rfl
  have files_eq : walk {} t ⟨"."⟩ .sources = .ok [⟨"./A.java"⟩, ⟨"./B.java"⟩] := by decide +kernel
  obtain rfl : [⟨"./A.java"⟩, ⟨"./B.java"⟩] = files := Except.ok.inj (files_eq.symm.trans listed)
  have paths : changedPaths ⟨mappings, some 20, false⟩ t [⟨"./A.java"⟩, ⟨"./B.java"⟩] =
      [⟨"./A.java"⟩] := by
    decide +kernel
  rw [paths] at changed
  exact ⟨named, rfl, u, real, dry, changed⟩

end Imports

end JavaMigration
