import JavaMigration.Project.Scan
import JavaMigration.Proofs.FileTree.Putting

/-!
# What a scan takes from the sources

A source is read where its file holds a text and is not above the limit. Those that are read are the
hits from which all tables of a snapshot are collected, and for each of the others there is one
warning.
-/

namespace JavaMigration.Project

open FileTree

variable {enumerate : Enumeration} {s : Settings} {t : FileTree} {root p : Path}
  {snapshot : Snapshot} {content : String} {sources : List Path}

theorem scan_eq_ok :
    scan enumerate s t root = .ok snapshot ↔ t.isDirectory root = true ∧
      ∃ descriptors sources, enumerate t root .descriptors = .ok descriptors ∧
        enumerate t root .sources = .ok sources ∧
        snapshot = snapshotOf s t root descriptors sources := by
  unfold scan
  cases t.isDirectory root with
  | false => simp
  | true =>
    cases enumerate t root .descriptors with
    | error e => simp [Except.mapError, bind, Except.bind]
    | ok descriptors =>
      cases enumerate t root .sources with
      | error e => simp [Except.mapError, bind, Except.bind]
      | ok sources => simp [Except.mapError, bind, Except.bind, eq_comm]

/-- The file at a path holds a text, and is not above the limit on what is read. -/
def Holds (s : ScanSettings) (t : FileTree) (p : Path) (content : String) : Prop :=
  t.content p = .ok content.toUTF8 ∧ ∀ limit ∈ s.sizeLimit?, content.toUTF8.size ≤ limit

/-- A file with these bytes is not read: they are more than the limit allows, or no text. -/
def IsUnreadable (s : ScanSettings) (bytes : ByteArray) : Prop :=
  (∃ limit ∈ s.sizeLimit?, limit < bytes.size) ∨ ∀ content : String, bytes ≠ content.toUTF8

theorem size_eq_of_content {bytes : ByteArray} (h : t.content p = .ok bytes) :
    t.size p = .ok bytes.size := by
  obtain ⟨l, bytes', found⟩ := isFile_iff.1 (isFile_of_content h)
  cases (content_eq_of_find found).symm.trans h
  simp [size, found, bind, Except.bind]

theorem textWithin_eq_ok (s : ScanSettings) :
    t.textWithin s.sizeLimit? p = .ok content ↔ Holds s t p content := by
  unfold textWithin Holds
  cases s.sizeLimit? with
  | none => simp [text_eq_ok]
  | some limit =>
    simp only [Option.mem_some_iff, forall_eq']
    constructor
    · intro read
      cases sized : t.size p with
      | error e => simp [sized, bind, Except.bind] at read
      | ok size =>
        simp only [sized, bind, Except.bind] at read
        split at read
        · cases read
        · rename_i within
          have stored := text_eq_ok.1 read
          rw [size_eq_of_content stored] at sized
          cases sized
          exact ⟨stored, Nat.not_lt.1 within⟩
    · rintro ⟨stored, within⟩
      simp only [size_eq_of_content stored, bind, Except.bind, Nat.not_lt.2 within, if_false]
      exact text_eq_ok.2 stored

theorem isUnreadable_iff (s : ScanSettings) {bytes : ByteArray} (stored : t.content p = .ok bytes) :
    IsUnreadable s bytes ↔ ∀ content, ¬ Holds s t p content := by
  constructor
  · rintro unreadable content ⟨stored', within⟩
    obtain rfl : bytes = content.toUTF8 := Except.ok.inj (stored.symm.trans stored')
    rcases unreadable with ⟨limit, limited, above⟩ | noText
    · exact absurd (within limit limited) (Nat.not_le.2 above)
    · exact noText content rfl
  · intro unread
    by_contra readable
    simp only [IsUnreadable, not_or, not_exists, not_and, not_forall, not_not] at readable
    obtain ⟨within, content, rfl⟩ := readable
    exact unread content ⟨stored, fun limit limited => Nat.not_lt.1 (within limit limited)⟩

theorem mem_results {ε α : Type} {xs : List (Except ε α)} {a : α} :
    a ∈ results xs ↔ .ok a ∈ xs := by
  rw [results, List.mem_filterMap]
  constructor
  · rintro ⟨x, mem, kept⟩
    cases x with
    | error e => cases kept
    | ok b => cases kept; exact mem
  · exact fun mem => ⟨_, mem, rfl⟩

theorem mem_faults {ε α : Type} {xs : List (Except ε α)} {e : ε} :
    e ∈ faults xs ↔ .error e ∈ xs := by
  rw [faults, List.mem_filterMap]
  constructor
  · rintro ⟨x, mem, kept⟩
    cases x with
    | error e' => cases kept; exact mem
    | ok b => cases kept
  · exact fun mem => ⟨_, mem, rfl⟩

def hitsOf (s : Settings) (root p : Path) (content : String) : SourceHits :=
  ⟨root.relativeTo p, Detection.detect s.detection content⟩

theorem mem_results_readSources {source : SourceHits} :
    source ∈ results (readSources s t root sources) ↔
      ∃ p ∈ sources, ∃ content, Holds s.scan t p content ∧ hitsOf s root p content = source := by
  simp only [mem_results, readSources, List.mem_map, ← textWithin_eq_ok]
  constructor
  · rintro ⟨p, mem, read⟩
    cases within : t.textWithin s.scan.sizeLimit? p with
    | error e => simp [within] at read
    | ok content =>
      simp only [within, Except.ok.injEq] at read
      exact ⟨p, mem, content, within, read⟩
  · rintro ⟨p, mem, content, read, rfl⟩
    exact ⟨p, mem, by simp [read, hitsOf]⟩

theorem perm_results_readSources {sources' : List Path} (h : sources'.Perm sources) :
    (results (readSources s t root sources')).Perm (results (readSources s t root sources)) :=
  (h.map _).filterMap _

theorem exists_of_mapError {ε ε' α : Type} {f : ε → ε'} {x : Except ε α} {e' : ε'}
    (h : x.mapError f = .error e') : ∃ e, f e = e' := by
  cases x with
  | ok a => cases h
  | error e => exact ⟨e, Except.error.inj h⟩

def unreadableSource : List Char :=
  "unreadable source file: ".toList

def isAboutSource (w : Warning) : Bool :=
  unreadableSource.isPrefixOf w.message.toList

theorem filter_isAboutSource_of_start (start : String)
    (apart : ¬ unreadableSource <+: start.toList ∧ ¬ start.toList <+: unreadableSource)
    {ws : List Warning} (begins : ∀ w ∈ ws, ∃ rest, w.message = start ++ rest) :
    ws.filter isAboutSource = [] := by
  rw [List.filter_eq_nil_iff]
  intro w mem about
  obtain ⟨rest, message⟩ := begins w mem
  rw [isAboutSource, List.isPrefixOf_iff_prefix, message, String.toList_append] at about
  exact (List.prefix_or_prefix_of_prefix about (List.prefix_append _ _)).elim apart.1 apart.2

def sourceWarning? (s : Settings) (t : FileTree) (p : Path) : Option Warning :=
  match t.textWithin s.scan.sizeLimit? p with
  | .ok _ => none
  | .error e => some ⟨p.text, s!"unreadable source file: {e.message}"⟩

theorem faults_readSources :
    faults (readSources s t root sources) = sources.filterMap (sourceWarning? s t) := by
  rw [faults, readSources, List.filterMap_map]
  congr 1
  funext p
  rw [Function.comp_apply, sourceWarning?]
  cases t.textWithin s.scan.sizeLimit? p <;> rfl

theorem isAboutSource_of_sourceWarning? {w : Warning} (h : sourceWarning? s t p = some w) :
    w.path = p.text ∧ isAboutSource w = true := by
  unfold sourceWarning? at h
  cases read : t.textWithin s.scan.sizeLimit? p with
  | ok content => simp [read] at h
  | error e =>
    simp only [read, Option.some.injEq] at h
    subst h
    refine ⟨rfl, ?_⟩
    rw [isAboutSource, List.isPrefixOf_iff_prefix]
    exact ⟨e.message.toList, (String.toList_append).symm⟩

/-- No warning about a descriptor is one about a source. -/
theorem filter_isAboutSource_warnings (s : Settings) (t : FileTree) (root : Path)
    (descriptors sources : List Path) :
    (snapshotOf s t root descriptors sources).warnings.filter isAboutSource =
      sources.filterMap (sourceWarning? s t) := by
  have ofDescriptors : (faults (readDescriptors t descriptors)).filter isAboutSource = [] := by
    apply filter_isAboutSource_of_start "unreadable descriptor: " (by decide +kernel)
    intro w mem
    obtain ⟨p, -, failed⟩ := List.mem_map.1 (mem_faults.1 mem)
    obtain ⟨e, rfl⟩ := exists_of_mapError failed
    exact ⟨e.message, rfl⟩
  have ofRoot : (faults [rootVersions s.detection t root]).filter isAboutSource = [] := by
    apply filter_isAboutSource_of_start "root descriptor not usable: " (by decide +kernel)
    intro w mem
    obtain ⟨e, rfl⟩ := exists_of_mapError (List.mem_singleton.1 (mem_faults.1 mem)).symm
    exact ⟨e.message, rfl⟩
  have ofSources : ∀ w ∈ sources.filterMap (sourceWarning? s t), isAboutSource w = true := by
    intro w mem
    obtain ⟨p, -, warned⟩ := List.mem_filterMap.1 mem
    exact (isAboutSource_of_sourceWarning? warned).2
  have warnings : (snapshotOf s t root descriptors sources).warnings =
      faults (readDescriptors t descriptors) ++ faults [rootVersions s.detection t root] ++
        faults (readSources s t root sources) := rfl
  rw [warnings, List.filter_append, List.filter_append, ofDescriptors, ofRoot, faults_readSources,
    List.filter_eq_self.2 ofSources]
  rfl

end JavaMigration.Project
