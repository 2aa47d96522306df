import JavaMigration.Imports.Migration
import JavaMigration.Proofs.Walk

/-!
# One file of a migration

What becomes of a file when its turn comes is said apart for the tree and for the statistics. The
file is rewritten where it can be read, an import in it moves and it can be written; a file that can
be read but not written is counted as one that was, and warned about. The statistics of several
files are those of their turns, each in the tree that the turns before it have left.
-/

namespace JavaMigration

namespace FileTree

variable {t u : FileTree} {p : Path} {limit : Option Nat} {s : String}

theorem textWithin_congr (same : u.find p = t.find p) (limit : Option Nat) :
    u.textWithin limit p = t.textWithin limit p := by
  simp only [textWithin, text, FileTree.content, size, same]

theorem text_of_textWithin (h : t.textWithin limit p = .ok s) : t.text p = .ok s := by
  unfold textWithin at h
  cases limit with
  | none => exact h
  | some limit =>
    cases measured : t.size p with
    | error _ => simp [measured, bind, Except.bind] at h
    | ok n =>
      simp only [measured, bind, Except.bind] at h
      split at h
      · cases h
      · exact h

theorem find_of_text (h : t.text p = .ok s) : ∃ l, t.find p = .ok (l, .file s.toUTF8) := by
  rw [text_eq_ok] at h
  obtain ⟨l, content, found⟩ := isFile_iff.1 (isFile_of_content h)
  rw [content_eq_of_find found, Except.ok.injEq] at h
  exact ⟨l, h ▸ found⟩

def isLocked (t : FileTree) (p : Path) : Bool :=
  match t.locate p with
  | .ok l => t.locked.contains l
  | .error _ => false

theorem isLocked_of_locate {l : Location} (leads : t.locate p = .ok l) :
    t.isLocked p = decide (l ∈ t.locked) := by
  simp only [isLocked, leads, List.contains_eq_mem]

end FileTree

namespace Imports

open FileTree

variable {plan : Plan} {root p : Path} {t u : FileTree} {stats : Statistics} {l : Location}

def rewriting? (plan : Plan) (t : FileTree) (p : Path) : Option Rewriting :=
  match t.textWithin plan.sizeLimit p with
  | .error _ => none
  | .ok content =>
    if (rewrite plan.mappings content).modified then some (rewrite plan.mappings content) else none

theorem find_of_rewriting? {r : Rewriting} (h : rewriting? plan t p = some r) :
    ∃ l old, t.find p = .ok (l, .file old.toUTF8) ∧ r = rewrite plan.mappings old := by
  unfold rewriting? at h
  split at h
  · cases h
  · rename_i content read
    simp only [Option.ite_none_right_eq_some, Option.some.injEq] at h
    obtain ⟨l, found⟩ := find_of_text (text_of_textWithin read)
    exact ⟨l, content, found, h.2.symm⟩

theorem rewriting?_congr (same : u.find p = t.find p) :
    rewriting? plan u p = rewriting? plan t p := by
  simp only [rewriting?, textWithin_congr same]

/-- The rewriting of a file, if it is written. -/
def written? (plan : Plan) (t : FileTree) (p : Path) : Option Rewriting :=
  if plan.dryRun || t.isLocked p then none else rewriting? plan t p

/-- Whether a rewriting is refused, because the file cannot be written. -/
def isRefused (plan : Plan) (t : FileTree) (p : Path) : Bool :=
  !plan.dryRun && t.isLocked p && (rewriting? plan t p).isSome

def readFailure (p : Path) (e : FileError) : Warning :=
  ⟨p.text, s!"read failed: {e.message}"⟩

def writeFailure (p : Path) : Warning :=
  ⟨p.text, s!"write failed: {FileError.denied.message}"⟩

def readFailure? (plan : Plan) (t : FileTree) (p : Path) : Option Warning :=
  match t.textWithin plan.sizeLimit p with
  | .error e => some (readFailure p e)
  | .ok _ => none

def writeFailure? (plan : Plan) (t : FileTree) (p : Path) : Option Warning :=
  if isRefused plan t p then some (writeFailure p) else none

def warning? (plan : Plan) (t : FileTree) (p : Path) : Option Warning :=
  readFailure? plan t p <|> writeFailure? plan t p

def leave (plan : Plan) (t : FileTree) (p : Path) : FileTree :=
  match written? plan t p, t.locate p with
  | some r, .ok l => t.put l (.file r.content.toUTF8)
  | _, _ => t

def observe (plan : Plan) (root : Path) (t : FileTree) (stats : Statistics) (p : Path) :
    Statistics :=
  let counted := match rewriting? plan t p with
    | none => stats
    | some r => stats.record (root.relativeTo p) r.tally
  match warning? plan t p with
  | none => counted
  | some w => counted.warn w

theorem migrateFile_eq (plan : Plan) (root : Path) (t : FileTree) (stats : Statistics) (p : Path) :
    migrateFile plan root (t, stats) p = (leave plan t p, observe plan root t stats p) := by
  unfold migrateFile leave observe warning? readFailure? writeFailure? isRefused written?
  cases read : t.textWithin plan.sizeLimit p with
  | error e => simp [read, rewriting?, readFailure]
  | ok content =>
    cases modified : (rewrite plan.mappings content).modified with
    | false => simp [read, rewriting?, modified]
    | true =>
      obtain ⟨l, found⟩ := find_of_text (text_of_textWithin read)
      have leads := (find_eq_ok.1 found).1
      cases dry : plan.dryRun with
      | true => simp [read, rewriting?, modified]
      | false =>
        by_cases locked : l ∈ t.locked
        · simp [read, rewriting?, modified, isLocked_of_locate leads, locked,
            writeText_of_find found, writeFailure]
        · simp [read, rewriting?, modified, isLocked_of_locate leads, locked,
            writeText_of_find found, leads]

theorem warnings_observe (plan : Plan) (root : Path) (t : FileTree) (stats : Statistics) (p : Path) :
    (observe plan root t stats p).warnings = stats.warnings ++ (warning? plan t p).toList := by
  unfold observe
  cases rewriting? plan t p with
  | none => cases warning? plan t p <;> simp [Statistics.warn]
  | some r => cases warning? plan t p <;> simp [Statistics.warn, Statistics.record]

def change? (plan : Plan) (root : Path) (t : FileTree) (p : Path) : Option FileChange :=
  (rewriting? plan t p).map fun r => ⟨root.relativeTo p, r.tally.total⟩

theorem changedFiles_observe (plan : Plan) (root : Path) (t : FileTree) (stats : Statistics)
    (p : Path) :
    (observe plan root t stats p).changedFiles =
      stats.changedFiles ++ (change? plan root t p).toList := by
  unfold observe change?
  cases rewriting? plan t p with
  | none => cases warning? plan t p <;> simp [Statistics.warn]
  | some r => cases warning? plan t p <;> simp [Statistics.warn, Statistics.record]

/-- The files with the trees in which they are looked at. -/
def turns (plan : Plan) : FileTree → List Path → List (FileTree × Path)
  | _, [] => []
  | t, p :: rest => (t, p) :: turns plan (leave plan t p) rest

def observeAll (plan : Plan) (root : Path) (stats : Statistics) (turns : List (FileTree × Path)) :
    Statistics :=
  turns.foldl (fun stats turn => observe plan root turn.1 stats turn.2) stats

theorem snd_foldl_migrateFile (plan : Plan) (root : Path) (files : List Path) (t : FileTree)
    (stats : Statistics) :
    (files.foldl (migrateFile plan root) (t, stats)).2 =
      observeAll plan root stats (turns plan t files) := by
  induction files generalizing t stats with
  | nil => rfl
  | cons first rest ih =>
    rw [List.foldl_cons, migrateFile_eq, ih]
    rfl

theorem observeAll_map (plan : Plan) (root : Path) (stats : Statistics) (t : FileTree)
    (files : List Path) :
    observeAll plan root stats (files.map (t, ·)) = files.foldl (observe plan root t) stats := by
  rw [observeAll, List.foldl_map]

section

variable {α : Type} {field : Statistics → List α} {added? : FileTree → Path → Option α}

/-- What each turn adds to a list is in it after all turns, in their order. -/
theorem observeAll_of_append
    (step : ∀ t stats p, field (observe plan root t stats p) =
      field stats ++ (added? t p).toList) (stats : Statistics) (turns : List (FileTree × Path)) :
    field (observeAll plan root stats turns) =
      field stats ++ turns.filterMap fun turn => added? turn.1 turn.2 := by
  rw [observeAll, List.filterMap_eq_flatMap_toList]
  induction turns generalizing stats with
  | nil => simp
  | cons first rest ih => rw [List.foldl_cons, ih, step, List.append_assoc, List.flatMap_cons]

end

/-- All that can become of the tree: it stays as it is, or the file is written in its place. -/
theorem leave_cases (plan : Plan) (t : FileTree) (p : Path) :
    (written? plan t p = none ∧ leave plan t p = t) ∨
      ∃ l old, t.find p = .ok (l, .file old.toUTF8) ∧ l ∉ t.locked ∧
        written? plan t p = some (rewrite plan.mappings old) ∧
        leave plan t p = t.put l (.file (rewrite plan.mappings old).content.toUTF8) := by
  unfold leave
  cases written : written? plan t p with
  | none => exact .inl ⟨rfl, rfl⟩
  | some r =>
    have rewritten := written
    simp only [written?, Bool.or_eq_true, ite_eq_iff, reduceCtorEq, and_false, false_or, not_or,
      Bool.not_eq_true] at rewritten
    obtain ⟨⟨-, free⟩, rewritten⟩ := rewritten
    obtain ⟨l, old, found, rfl⟩ := find_of_rewriting? rewritten
    have leads := (find_eq_ok.1 found).1
    refine .inr ⟨l, old, found, ?_, rfl, by simp only [leads]⟩
    simpa [isLocked_of_locate leads] using free

/-- What does not change where another file is written. -/
structure Unaffected (t u : FileTree) : Prop where
  current : u.current = t.current
  locked : u.locked = t.locked
  locate : ∀ p, u.locate p = t.locate p

namespace Unaffected

theorem refl (t : FileTree) : Unaffected t t := ⟨rfl, rfl, fun _ => rfl⟩

theorem trans {v : FileTree} (h : Unaffected t u) (h' : Unaffected u v) : Unaffected t v where
  current := h'.current.trans h.current
  locked := h'.locked.trans h.locked
  locate := fun p => (h'.locate p).trans (h.locate p)

theorem isLocked (h : Unaffected t u) (p : Path) : u.isLocked p = t.isLocked p := by
  simp only [FileTree.isLocked, h.locate, h.locked]

end Unaffected

theorem unaffected_leave (plan : Plan) (t : FileTree) (p : Path) :
    Unaffected t (leave plan t p) := by
  rcases leave_cases plan t p with ⟨-, left⟩ | ⟨l, old, found, -, -, left⟩
  · rw [left]
    exact .refl t
  · rw [left]
    exact ⟨rfl, rfl, locate_put_file (find_eq_ok.1 found).2⟩

/-- A refused rewriting stays refused, whatever else is written. -/
theorem isRefused_leave (plan : Plan) (t : FileTree) (p q : Path) :
    isRefused plan (leave plan t p) q = isRefused plan t q := by
  have same := (unaffected_leave plan t p).isLocked q
  unfold isRefused
  rw [same]
  cases locked : t.isLocked q with
  | false => simp
  | true =>
    rcases leave_cases plan t p with ⟨-, left⟩ | ⟨l, old, found, free, -, left⟩
    · rw [left]
    · have apart : t.locate q ≠ .ok l := by
        intro leads
        simp [isLocked_of_locate leads, free] at locked
      rw [left, rewriting?_congr (find_put_of_ne (find_eq_ok.1 found).2 _ apart)]

theorem migrate_eq_ok {enumerate : Enumeration} :
    migrate enumerate plan t root = (u, .ok stats) ↔
      t.contains root = true ∧ ∃ files, enumerate t root .sources = .ok files ∧
        files.foldl (migrateFile plan root)
          (t, { totalFiles := files.length, dryRun := plan.dryRun }) = (u, stats) := by
  unfold migrate
  cases t.contains root with
  | false => simp
  | true => cases enumerate t root .sources <;> simp [Prod.ext_iff]

end Imports

end JavaMigration
