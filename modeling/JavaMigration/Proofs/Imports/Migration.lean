import JavaMigration.Proofs.Imports.Idempotence
import JavaMigration.Proofs.Imports.OneFile

/-!
# A second migration

A file is settled where rewriting it changes nothing, or is refused because the file cannot be
written. Every file is settled once it has been looked at, and stays so whatever other files are
rewritten. Since the same files are listed again, a second migration changes none, and counts just
those that are refused.
-/

namespace JavaMigration

theorem accepts_of_walk {s : ScanSettings} {t : FileTree} {root : Path} {kind : FileMatcher}
    {files : List Path} (h : walk s t root kind = .ok files) :
    ∀ p ∈ files, kind.accepts p = true := by
  intro p mem
  rcases walk_eq_ok h with ⟨-, rfl⟩ | ⟨-, rfl⟩ | ⟨base, rules, -, rfl⟩
  · cases mem
  · split at mem
    · rename_i accepted
      rwa [List.mem_singleton.1 mem]
    · cases mem
  · exact (List.mem_filter.1 mem).2

namespace Imports

open FileTree

variable {plan : Plan} {root p : Path} {t : FileTree} {stats : Statistics} {l : Location}
  {files : List Path}

/-- No rewriting of the file at a path is left to be written. -/
def IsSettled (plan : Plan) (t : FileTree) (p : Path) : Prop :=
  written? plan t p = none

theorem IsSettled.leave_eq (settled : IsSettled plan t p) : leave plan t p = t := by
  rcases leave_cases plan t p with ⟨-, left⟩ | ⟨l, old, -, -, written, -⟩
  · exact left
  · rw [settled] at written
    cases written

theorem IsSettled.isRefused_eq (real : plan.dryRun = false) (settled : IsSettled plan t p) :
    isRefused plan t p = (rewriting? plan t p).isSome := by
  unfold IsSettled written? at settled
  unfold isRefused
  rw [real] at settled ⊢
  cases locked : t.isLocked p with
  | true => simp
  | false =>
    have none : rewriting? plan t p = none := by simpa [locked] using settled
    simp [none]

theorem rewriting?_put (separated : isSeparated plan.mappings = true) {old : ByteArray}
    (here : t.entry? l = some (.file old)) (content : String) (leads : t.locate p = .ok l) :
    rewriting? plan (t.put l (.file (rewrite plan.mappings content).content.toUTF8)) p = none := by
  unfold rewriting?
  split
  · rfl
  · rename_i content' read
    have found : (t.put l (.file (rewrite plan.mappings content).content.toUTF8)).find p =
        .ok (l, .file (rewrite plan.mappings content).content.toUTF8) := by
      rw [find_eq_ok, locate_put_file here]
      exact ⟨leads, lookup_put_self (ne_nil_of_not_directory (t := t) (by simp [here]))⟩
    have stored := text_eq_ok.1 (text_of_textWithin read)
    rw [content_eq_of_find found, Except.ok.injEq] at stored
    rw [← toUTF8_injective stored, rewrite_content separated]
    rfl

theorem IsSettled.leave (separated : isSeparated plan.mappings = true)
    (settled : IsSettled plan t p) (q : Path) : IsSettled plan (leave plan t q) p := by
  have same := (unaffected_leave plan t q).isLocked p
  unfold IsSettled written? at settled ⊢
  rw [same]
  split
  · rfl
  · rename_i unlocked
    rw [if_neg unlocked] at settled
    rcases leave_cases plan t q with ⟨-, left⟩ | ⟨l, old, found, -, -, left⟩
    · rwa [left]
    · have here := (find_eq_ok.1 found).2
      rw [left]
      by_cases leads : t.locate p = .ok l
      · exact rewriting?_put separated here old leads
      · rwa [rewriting?_congr (find_put_of_ne here _ leads)]

/-- A file that has just been looked at is settled. -/
theorem isSettled_leave (separated : isSeparated plan.mappings = true) (t : FileTree) (p : Path) :
    IsSettled plan (Imports.leave plan t p) p := by
  rcases leave_cases plan t p with ⟨unwritten, left⟩ | ⟨l, old, found, -, -, left⟩
  · rw [left]
    exact unwritten
  · obtain ⟨leads, here⟩ := find_eq_ok.1 found
    unfold IsSettled written?
    split
    · rfl
    · rw [left]
      exact rewriting?_put separated here old leads

theorem walk_leave (plan : Plan) (t : FileTree)
    (accepted : FileMatcher.sources.accepts p = true) (s : ScanSettings) (q : Path)
    (kind : FileMatcher) :
    walk s (leave plan t p) q kind = walk s t q kind ∧
      (leave plan t p).contains q = t.contains q := by
  rcases leave_cases plan t p with ⟨-, left⟩ | ⟨l, old, found, -, -, left⟩
  · rw [left]
    exact ⟨rfl, rfl⟩
  · have here := (find_eq_ok.1 found).2
    rw [left]
    refine ⟨walk_put here (isSourceLocation_of_find found accepted) s q kind, ?_⟩
    simp only [contains, find_put_file here]
    cases t.find q with
    | error _ => rfl
    | ok _ => rfl

def leaveAll (plan : Plan) (t : FileTree) (files : List Path) : FileTree :=
  files.foldl (leave plan) t

theorem fst_foldl_migrateFile (plan : Plan) (root : Path) (files : List Path) (t : FileTree)
    (stats : Statistics) :
    (files.foldl (migrateFile plan root) (t, stats)).1 = leaveAll plan t files := by
  induction files generalizing t stats with
  | nil => rfl
  | cons first rest ih => rw [List.foldl_cons, migrateFile_eq, ih, leaveAll, leaveAll, List.foldl_cons]

theorem isSettled_leaveAll (separated : isSeparated plan.mappings = true) (files : List Path)
    (t : FileTree) :
    (∀ p, IsSettled plan t p → IsSettled plan (leaveAll plan t files) p) ∧
      ∀ p ∈ files, IsSettled plan (leaveAll plan t files) p := by
  induction files generalizing t with
  | nil => exact ⟨fun _ settled => settled, by simp⟩
  | cons first rest ih =>
    obtain ⟨kept, done⟩ := ih (leave plan t first)
    refine ⟨fun p settled => kept p (settled.leave separated first), ?_⟩
    intro p mem
    rcases List.mem_cons.1 mem with rfl | mem
    · exact kept p (isSettled_leave separated t p)
    · exact done p mem

theorem isRefused_leaveAll (plan : Plan) (files : List Path) (t : FileTree) (q : Path) :
    isRefused plan (leaveAll plan t files) q = isRefused plan t q := by
  induction files generalizing t with
  | nil => rfl
  | cons first rest ih => exact (ih _).trans (isRefused_leave plan t first q)

theorem walk_leaveAll (plan : Plan) {files : List Path}
    (accepted : ∀ p ∈ files, FileMatcher.sources.accepts p = true) (t : FileTree)
    (s : ScanSettings) (q : Path) (kind : FileMatcher) :
    walk s (leaveAll plan t files) q kind = walk s t q kind ∧
      (leaveAll plan t files).contains q = t.contains q := by
  induction files generalizing t with
  | nil => exact ⟨rfl, rfl⟩
  | cons first rest ih =>
    obtain ⟨listed, present⟩ := walk_leave plan t (accepted first (by simp)) s q kind
    obtain ⟨listed', present'⟩ := ih (fun p mem => accepted p (by simp [mem])) (leave plan t first)
    exact ⟨listed'.trans listed, present'.trans present⟩

theorem foldl_of_isSettled {t : FileTree} (settled : ∀ p ∈ files, IsSettled plan t p) (root : Path)
    (stats : Statistics) :
    files.foldl (migrateFile plan root) (t, stats) = (t, files.foldl (observe plan root t) stats) := by
  induction files generalizing stats with
  | nil => rfl
  | cons first rest ih =>
    rw [List.foldl_cons, migrateFile_eq, (settled first (by simp)).leave_eq]
    exact ih (fun p mem => settled p (by simp [mem])) _

def writeFailed : List Char :=
  "write failed: ".toList

def isWriteFailure (w : Warning) : Bool :=
  writeFailed.isPrefixOf w.message.toList

def Statistics.writeFailures (stats : Statistics) : List Warning :=
  stats.warnings.filter isWriteFailure

theorem isWriteFailure_writeFailure (p : Path) : isWriteFailure (writeFailure p) = true := by
  have begins : (writeFailure p).message.toList =
      writeFailed ++ FileError.denied.message.toList := String.toList_append
  rw [isWriteFailure, begins, List.isPrefixOf_iff_prefix]
  exact List.prefix_append _ _

theorem isWriteFailure_readFailure (p : Path) (e : FileError) :
    isWriteFailure (readFailure p e) = false := by
  have begins : (readFailure p e).message.toList = "read failed: ".toList ++ e.message.toList :=
    String.toList_append
  rw [isWriteFailure, begins]
  rfl

theorem filter_warning? (plan : Plan) (t : FileTree) (p : Path) :
    (warning? plan t p).toList.filter isWriteFailure = (writeFailure? plan t p).toList := by
  unfold warning? readFailure?
  cases read : t.textWithin plan.sizeLimit p with
  | error e =>
    have unwritten : isRefused plan t p = false := by simp [isRefused, rewriting?, read]
    simp [writeFailure?, unwritten, isWriteFailure_readFailure]
  | ok content =>
    cases refused : isRefused plan t p with
    | false => simp [writeFailure?, refused]
    | true => simp [writeFailure?, refused, isWriteFailure_writeFailure]

/-- The files that are refused are warned about one after another, whatever is written meanwhile. -/
theorem writeFailures_foldl (plan : Plan) (root : Path) (files : List Path) (t : FileTree)
    (stats : Statistics) :
    (files.foldl (migrateFile plan root) (t, stats)).2.writeFailures =
      stats.writeFailures ++ files.filterMap (writeFailure? plan t) := by
  induction files generalizing t stats with
  | nil => simp
  | cons first rest ih =>
    have same : writeFailure? plan (leave plan t first) = writeFailure? plan t := by
      funext q
      simp only [writeFailure?, isRefused_leave]
    have step : (observe plan root t stats first).writeFailures =
        stats.writeFailures ++ (writeFailure? plan t first).toList := by
      simp only [Statistics.writeFailures, warnings_observe, List.filter_append, filter_warning?]
    rw [List.foldl_cons, migrateFile_eq, ih, step, same, List.append_assoc]
    cases refused : writeFailure? plan t first with
    | none => simp [refused]
    | some w => simp [refused]

theorem modifiedFiles_foldl_observe (plan : Plan) (root : Path) (t : FileTree) (files : List Path)
    (stats : Statistics) :
    (files.foldl (observe plan root t) stats).modifiedFiles =
      stats.modifiedFiles + files.countP fun p => (rewriting? plan t p).isSome := by
  induction files generalizing stats with
  | nil => rfl
  | cons first rest ih =>
    have step : (observe plan root t stats first).modifiedFiles =
        stats.modifiedFiles + if (rewriting? plan t first).isSome then 1 else 0 := by
      unfold observe
      cases rewriting? plan t first with
      | none => cases warning? plan t first <;> rfl
      | some r => cases warning? plan t first <;> rfl
    rw [List.foldl_cons, ih, step, List.countP_cons]
    omega

theorem foldl_observe_of_none {t : FileTree} (none : ∀ p ∈ files, rewriting? plan t p = none)
    (root : Path) (stats : Statistics) :
    ∃ warnings, files.foldl (observe plan root t) stats = { stats with warnings } := by
  induction files generalizing stats with
  | nil => exact ⟨stats.warnings, rfl⟩
  | cons first rest ih =>
    have step : ∃ warnings, observe plan root t stats first = { stats with warnings } := by
      unfold observe
      rw [none first (by simp)]
      cases warning? plan t first with
      | none => exact ⟨stats.warnings, rfl⟩
      | some w => exact ⟨_, rfl⟩
    obtain ⟨warnings, passed⟩ := step
    rw [List.foldl_cons, passed]
    exact ih (fun p mem => none p (by simp [mem])) _

/--
What a migration in a tree says that another one has left: the same files are refused by both, and
counted. `again` are the statistics of the second one.
-/
structure Resumes (stats again : Statistics) : Prop where
  writeFailures : again.writeFailures = stats.writeFailures
  modified : again.modifiedFiles = stats.writeFailures.length
  nothing : stats.writeFailures = [] →
    again.totalReplacements = 0 ∧ again.byNamespace = [] ∧ again.changedFiles = []

theorem length_writeFailures (plan : Plan) (t : FileTree) (files : List Path) :
    (files.filterMap (writeFailure? plan t)).length = files.countP (isRefused plan t) := by
  induction files with
  | nil => rfl
  | cons first rest ih =>
    rw [List.filterMap_cons, List.countP_cons, ← ih]
    cases refused : isRefused plan t first with
    | false => simp [writeFailure?, refused]
    | true => simp [writeFailure?, refused]

/-- Of the files that a run has been through, just those are left to be rewritten that are refused. -/
theorem isSome_rewriting?_leaveAll (separated : isSeparated plan.mappings = true)
    (real : plan.dryRun = false) (t : FileTree) (mem : p ∈ files) :
    (rewriting? plan (leaveAll plan t files) p).isSome = isRefused plan t p := by
  have settled := (isSettled_leaveAll separated files t).2 p mem
  rw [← settled.isRefused_eq real, isRefused_leaveAll]

theorem resumes_of_runs (separated : isSeparated plan.mappings = true)
    (real : plan.dryRun = false) {u : FileTree} {total : Nat} {dryRun : Bool}
    (runs : files.foldl (migrateFile plan root) (t, { totalFiles := total, dryRun }) = (u, stats)) :
    Resumes stats (files.foldl (observe plan root u) { totalFiles := total, dryRun }) := by
  let start : Statistics := { totalFiles := total, dryRun }
  obtain rfl : leaveAll plan t files = u := by
    rw [← fst_foldl_migrateFile plan root files t start, runs]
  have refusals : stats.writeFailures = files.filterMap (writeFailure? plan t) := by
    have all := writeFailures_foldl plan root files t start
    rwa [runs] at all
  have length : stats.writeFailures.length = files.countP (isRefused plan t) := by
    rw [refusals, length_writeFailures]
  have moved : ∀ p ∈ files, (rewriting? plan (leaveAll plan t files) p).isSome = isRefused plan t p :=
    fun p mem => isSome_rewriting?_leaveAll separated real t mem
  constructor
  case writeFailures =>
    have again := writeFailures_foldl plan root files (leaveAll plan t files) start
    have same : writeFailure? plan (leaveAll plan t files) = writeFailure? plan t := by
      funext p
      simp only [writeFailure?, isRefused_leaveAll]
    rw [foldl_of_isSettled (isSettled_leaveAll separated files t).2, same] at again
    exact again.trans refusals.symm
  case modified =>
    rw [modifiedFiles_foldl_observe, length, Nat.zero_add]
    exact List.countP_congr fun p mem => by rw [moved p mem]
  case nothing =>
    intro none
    rw [none, List.length_nil, eq_comm, List.countP_eq_zero] at length
    have unmoved : ∀ p ∈ files, rewriting? plan (leaveAll plan t files) p = Option.none := by
      intro p mem
      have := moved p mem
      rwa [Bool.eq_false_iff.2 (length p mem), Option.isSome_eq_false_iff,
        Option.isNone_iff_eq_none] at this
    obtain ⟨warnings, nothing⟩ := foldl_observe_of_none unmoved root start
    rw [nothing]
    exact ⟨rfl, rfl, rfl⟩

/-- A migration that has come to its end is not resumed by another one. -/
theorem migrate_migrate {plan : Plan} (separated : isSeparated plan.mappings = true)
    (real : plan.dryRun = false) (scan : ScanSettings) {t u : FileTree} {root : Path}
    {stats : Statistics} (h : migrate (walk scan) plan t root = (u, .ok stats)) :
    ∃ again, migrate (walk scan) plan u root = (u, .ok again) ∧ Resumes stats again := by
  obtain ⟨present, files, listed, runs⟩ := migrate_eq_ok.1 h
  have resumes := resumes_of_runs separated real runs
  obtain rfl : leaveAll plan t files = u := by
    rw [← fst_foldl_migrateFile plan root files t, runs]
  obtain ⟨listed', present'⟩ := walk_leaveAll plan (accepts_of_walk listed) t scan root .sources
  have passed := foldl_of_isSettled (isSettled_leaveAll separated files t).2 root
  exact ⟨_, migrate_eq_ok.2 ⟨present'.trans present, files, listed'.trans listed, passed _⟩, resumes⟩

/--
Rewriting is idempotent, for a text and for a tree of sources: what it leaves has nothing more to
be rewritten, whichever rule comes first and whatever stands around the statements. Only files that
cannot be written are counted by every run.
-/
theorem rewriting_idempotent (mappings : List Mapping) (separated : isSeparated mappings = true) :
    (∀ content, rewrite mappings (rewrite mappings content).content =
      ⟨(rewrite mappings content).content, [], false⟩) ∧
    ∀ (scan : ScanSettings) (sizeLimit : Option Nat) (t u : FileTree) (root : Path)
      (stats : Statistics),
      migrate (walk scan) ⟨mappings, sizeLimit, false⟩ t root = (u, .ok stats) →
        ∃ again, migrate (walk scan) ⟨mappings, sizeLimit, false⟩ u root = (u, .ok again) ∧
          Resumes stats again :=
  ⟨rewrite_content separated, fun scan _ _ _ _ _ first => migrate_migrate separated rfl scan first⟩

/-- The mappings of the built-in table are separated, and move an import to its place at once. -/
theorem rewriting_idempotent_builtIn :
    let t : FileTree := {
      entries := [(["A.java"], .file "import javax.servlet.*;".toUTF8)]
      ascending := by unfold Table.Ascending; decide +kernel }
    let run := migrate (walk {}) ⟨Mapping.builtIn, none, false⟩ t ⟨"."⟩
    let stats : Statistics := {
      totalFiles := 1, modifiedFiles := 1, totalReplacements := 1
      byNamespace := [("javax.servlet", 1)], dryRun := false, changedFiles := [⟨"A.java", 1⟩] }
    isSeparated Mapping.builtIn = true ∧
      rewrite Mapping.builtIn (rewrite Mapping.builtIn "import\tjavax.servlet.*;").content =
        ⟨(rewrite Mapping.builtIn "import\tjavax.servlet.*;").content, [], false⟩ ∧
      run.2 = .ok stats ∧
      ∃ again, migrate (walk {}) ⟨Mapping.builtIn, none, false⟩ run.1 ⟨"."⟩ = (run.1, .ok again) ∧
        again.modifiedFiles = 0 ∧ again.changedFiles = [] := by
  intro t run stats
  have counted : run.2 = .ok stats := by decide +kernel
  obtain ⟨texts, trees⟩ := rewriting_idempotent Mapping.builtIn isSeparated_builtIn
  obtain ⟨again, second, resumes⟩ := trees {} none t run.1 ⟨"."⟩ stats (Prod.ext rfl counted)
  exact ⟨isSeparated_builtIn, texts _, counted, again, second, resumes.modified,
    (resumes.nothing rfl).2.2⟩

/--
A source that can be read but not written is counted by every migration. And with a pattern that
cannot be read, a migration reports no statistics at all.
-/
theorem migration_counts_again :
    let t : FileTree := {
      entries := [(["A.java"], .file "import javax.json.A;".toUTF8)]
      ascending := by unfold Table.Ascending; decide +kernel
      locked := [["A.java"]] }
    let plan : Plan := ⟨[⟨"javax.json", "jakarta.json"⟩], none, false⟩
    let stats : Statistics := {
      totalFiles := 1, modifiedFiles := 1, totalReplacements := 1
      byNamespace := [("javax.json", 1)], dryRun := false, changedFiles := [⟨"A.java", 1⟩]
      warnings := [⟨"./A.java", "write failed: Permission denied (os error 13)"⟩] }
    isSeparated plan.mappings = true ∧ (migrate (walk {}) plan t ⟨"."⟩).2 = .ok stats ∧
      (migrate (walk {}) plan (migrate (walk {}) plan t ⟨"."⟩).1 ⟨"."⟩).2 = .ok stats ∧
      (migrate (walk { extraIgnore := ["["] }) plan t ⟨"."⟩).2.isOk = false := by
  decide +kernel

end Imports

end JavaMigration
