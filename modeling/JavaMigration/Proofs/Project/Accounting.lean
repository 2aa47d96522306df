import JavaMigration.Proofs.FileTree.Shown
import JavaMigration.Proofs.Project.Sources
import JavaMigration.Proofs.Project.Usage

/-!
# What a snapshot accounts for

A scan lists the descriptors and the sources of a project and leaves none of them out: each source
is counted, and either it is read and stands in the tables for what it uses, or it is warned about
and stands in none. The tables do not depend on the order in which the sources come. That different
modules are shown in different ways is so for names that are texts.
-/

namespace JavaMigration.Project

open FileTree

variable {s : Settings} {t : FileTree} {root : Path} {descriptors sources : List Path}
  {snapshot : Snapshot}

/-- A source that is shown by this path is read, and its hits satisfy `hit`. -/
def IsUsedIn (s : Settings) (t : FileTree) (root : Path) (sources : List Path)
    (hit : Hits → Prop) (path : String) : Prop :=
  ∃ p ∈ sources, root.relativeTo p = path ∧
    ∃ content, Holds s.scan t p content ∧ hit (Detection.detect s.detection content)

def HitsNamespace (d : DetectionSettings) (ns : String) (hits : Hits) : Prop :=
  ∃ position ∈ hits.namespaces, d.namespaces[position]? = some ns

/-- What a snapshot says of the descriptors and the sources that it is taken of. -/
structure Accounts (s : Settings) (t : FileTree) (root : Path) (descriptors sources : List Path)
    (snapshot : Snapshot) : Prop where
  sourceCount : snapshot.shape.sourceCount = sources.length
  /-- There is one warning for each of the sources that are warned about, and no other. -/
  warnings : snapshot.warnings.filter isAboutSource = sources.filterMap (sourceWarning? s t)
  /-- Each source is warned about and not read, or read and not warned about. -/
  warned : ∀ p ∈ sources, ∀ bytes, t.content p = .ok bytes →
    ((IsUnreadable s.scan bytes ∧ (∀ content, ¬ Holds s.scan t p content) ∧
        ∃ w, sourceWarning? s t p = some w ∧ w.path = p.text) ∨
      (¬ IsUnreadable s.scan bytes ∧ (∃ content, Holds s.scan t p content) ∧
        sourceWarning? s t p = none))
  ordered : Table.Ascending snapshot.namespaceFiles
  /-- The files of a namespace are the sources that are read and hit it. -/
  files : ∀ ns, Records (IsUsedIn s t root sources (HitsNamespace s.detection ns))
    (Table.get? ns snapshot.namespaceFiles)
  /-- The detection table without the entries that are hit by none, each with those that hit it. -/
  apis : ∃ files : Nat → List String,
    (∀ position, Lists (IsUsedIn s t root sources fun hits => position ∈ hits.deprecated)
      (files position)) ∧ snapshot.deprecatedApis = usagesOf s.detection files
  descriptorCount : snapshot.shape.descriptorCount = descriptors.length
  multi : snapshot.shape.topology = .multiModule ↔ 1 < descriptors.length
  /-- Each descriptor of a project with several stands for a module, the directory that it is in. -/
  modules : snapshot.shape.modules = if 1 < descriptors.length then
    descriptors.map fun p => root.relativeTo (p.parent?.getD root) else []

/-- What is known besides of a snapshot that is taken of the files of a walk. -/
structure AccountsForWalk (t : FileTree) (root : Path) (descriptors sources : List Path)
    (snapshot : Snapshot) : Prop where
  stored : ∀ p ∈ sources, ∃ bytes, t.content p = .ok bytes
  nodup : sources.Nodup
  shown : (∀ p ∈ sources, root.IsTextBelow p) → (sources.map root.relativeTo).Nodup
  modules : (∀ p ∈ descriptors, root.IsTextBelow p) → snapshot.shape.modules.Nodup

theorem isSome_sourceWarning?_iff (s : Settings) {p : Path} :
    (sourceWarning? s t p).isSome = true ↔ ∀ content, ¬ Holds s.scan t p content := by
  simp only [← textWithin_eq_ok, sourceWarning?]
  cases t.textWithin s.scan.sizeLimit? p with
  | ok content => simp
  | error e => simp

theorem mem_namespacesOf {d : DetectionSettings} {ns : String} {source : SourceHits} :
    ns ∈ namespacesOf d source ↔ HitsNamespace d ns source.hits :=
  List.mem_filterMap

theorem exists_source_iff (hit : Hits → Prop) (path : String) :
    (∃ source ∈ results (readSources s t root sources), hit source.hits ∧ source.path = path) ↔
      IsUsedIn s t root sources hit path := by
  simp only [mem_results_readSources]
  constructor
  · rintro ⟨_, ⟨p, mem, content, held, rfl⟩, hits, shown⟩
    exact ⟨p, mem, shown, content, held, hits⟩
  · rintro ⟨p, mem, shown, content, held, hits⟩
    exact ⟨_, ⟨p, mem, content, held, rfl⟩, hits, shown⟩

theorem accounts_snapshotOf (s : Settings) (t : FileTree) (root : Path)
    (descriptors sources : List Path) :
    Accounts s t root descriptors sources (snapshotOf s t root descriptors sources) := by
  constructor
  case sourceCount => rfl
  case warnings => exact filter_isAboutSource_warnings s t root descriptors sources
  case warned =>
    intro p _ bytes stored
    cases warned : sourceWarning? s t p with
    | some w =>
      have unread := (isSome_sourceWarning?_iff s).1 (by rw [warned]; rfl)
      exact .inl ⟨(isUnreadable_iff s.scan stored).2 unread, unread, w, rfl,
        (isAboutSource_of_sourceWarning? warned).1⟩
    | none =>
      have read : ¬ ∀ content, ¬ Holds s.scan t p content := by
        rw [← isSome_sourceWarning?_iff s, warned]
        exact Bool.false_ne_true
      exact .inr ⟨mt (isUnreadable_iff s.scan stored).1 read, by simpa using read, rfl⟩
  case ordered => exact ascending_namespaceFiles _ _
  case files =>
    intro ns
    apply (records_namespaceFiles s.detection (results (readSources s t root sources)) ns).congr
    intro path
    simp only [mem_namespacesOf, exists_source_iff (HitsNamespace s.detection ns)]
  case apis =>
    refine ⟨_, fun position => ?_, apiUsages_eq _ _⟩
    apply (lists_apiFiles (results (readSources s t root sources)) position).congr
    exact exists_source_iff fun hits => position ∈ hits.deprecated
  case descriptorCount => rfl
  case multi =>
    simp only [snapshotOf, shapeOf]
    by_cases several : 1 < descriptors.length
    · simp [several]
    · simp [several]
  case modules => simp only [snapshotOf, shapeOf, decide_eq_true_eq]

theorem accountsForWalk_snapshotOf (named : t.HasFileNames) (directory : t.isDirectory root = true)
    (listed : walk s.scan t root .descriptors = .ok descriptors)
    (listed' : walk s.scan t root .sources = .ok sources) :
    AccountsForWalk t root descriptors sources (snapshotOf s t root descriptors sources) := by
  constructor
  case stored =>
    intro p mem
    obtain ⟨-, ways, rfl, -, leads⟩ := exists_ways named directory listed'
    obtain ⟨names, way, rfl⟩ := List.mem_map.1 mem
    exact (leads names way).content
  case nodup =>
    refine (pairwise_locate_walk named listed').imp ?_
    rintro p q apart rfl
    exact apart rfl
  case shown => exact nodup_map_relativeTo named directory listed'
  case modules =>
    intro texts
    rw [(accounts_snapshotOf s t root descriptors sources).modules]
    split
    · exact nodup_map_parent? named directory listed texts
    · exact .nil

/--
Where a scan succeeds, its snapshot accounts for the descriptors and sources that are listed, and
whoever lists the same sources in another order finds the same tables. A walk lists files, none of
them twice, and those with names that are texts are shown in different ways.
-/
theorem scan_accounts_for_files (s : Settings) (t : FileTree) (root : Path) :
    (∀ (enumerate : Enumeration) (snapshot : Snapshot), scan enumerate s t root = .ok snapshot →
      ∃ descriptors sources, enumerate t root .descriptors = .ok descriptors ∧
        enumerate t root .sources = .ok sources ∧
        Accounts s t root descriptors sources snapshot ∧
        ∀ (enumerate' : Enumeration) (sources' : List Path),
          (∃ descriptors', enumerate' t root .descriptors = .ok descriptors') →
          enumerate' t root .sources = .ok sources' → sources'.Perm sources →
            ∃ snapshot', scan enumerate' s t root = .ok snapshot' ∧
              snapshot'.namespaceFiles = snapshot.namespaceFiles ∧
              snapshot'.namespaceUsage = snapshot.namespaceUsage ∧
              snapshot'.deprecatedApis = snapshot.deprecatedApis) ∧
    ∀ snapshot, t.HasFileNames → scan (walk s.scan) s t root = .ok snapshot →
      ∃ descriptors sources, walk s.scan t root .descriptors = .ok descriptors ∧
        walk s.scan t root .sources = .ok sources ∧
        AccountsForWalk t root descriptors sources snapshot := by
  constructor
  · intro enumerate snapshot scanned
    obtain ⟨directory, descriptors, sources, listed, listed', rfl⟩ := scan_eq_ok.1 scanned
    refine ⟨descriptors, sources, listed, listed', accounts_snapshotOf s t root _ _, ?_⟩
    rintro enumerate' sources' ⟨descriptors', enumerated⟩ enumerated' reordered
    exact ⟨snapshotOf s t root descriptors' sources',
      scan_eq_ok.2 ⟨directory, descriptors', sources', enumerated, enumerated', rfl⟩,
      tables_of_perm s.detection (perm_results_readSources reordered)⟩
  · intro snapshot named scanned
    obtain ⟨directory, descriptors, sources, listed, listed', rfl⟩ := scan_eq_ok.1 scanned
    exact ⟨descriptors, sources, listed, listed',
      accountsForWalk_snapshotOf named directory listed listed'⟩

/-- Two modules, with one source that is no text and one that is too large. -/
theorem scan_accounts_for_files_unreadable :
    let t : FileTree := {
      entries := [
        (["r"], .directory),
        (["r", "A.java"], .file "import sun.misc.Unsafe;import javax.servlet.A;".toUTF8),
        (["r", "B.java"], .file ⟨#[255]⟩),
        (["r", "C.java"], .file "import javax.servlet.C; // larger than the limit".toUTF8),
        (["r", "m"], .directory),
        (["r", "m", "D.java"], .file "import javax.servlet.D;".toUTF8),
        (["r", "m", "pom.xml"], .file "<project/>".toUTF8),
        (["r", "pom.xml"], .file "<project/>".toUTF8)]
      ascending := by unfold Table.Ascending; decide +kernel
      current := ["r"] }
    let s : Settings := { scan := { maxFileSize := some 46 } }
    let snapshot : Snapshot := {
      name := "r"
      shape := {
        topology := .multiModule, usesFramework := false, descriptorCount := 2, sourceCount := 4
        modules := ["m", "."] }
      versions := {}
      namespaceUsage := [("javax.servlet", 2)]
      namespaceFiles := [("javax.servlet", ["A.java", "m/D.java"])]
      deprecatedApis := [⟨"sun.misc.Unsafe", ["A.java"]⟩]
      warnings := [
        ⟨"./B.java", "unreadable source file: stream did not contain valid UTF-8"⟩,
        ⟨"./C.java", "unreadable source file: file is 48 bytes, above the 46-byte limit"⟩] }
    t.HasFileNames ∧ scan (walk s.scan) s t ⟨"."⟩ = .ok snapshot ∧
      (∃ descriptors sources, sources.length = 4 ∧
        Accounts s t ⟨"."⟩ descriptors sources snapshot ∧
        AccountsForWalk t ⟨"."⟩ descriptors sources snapshot) ∧
      ∃ snapshot', scan (fun t root kind => (walk s.scan t root kind).map List.reverse) s t ⟨"."⟩ =
          .ok snapshot' ∧ snapshot'.namespaceFiles = snapshot.namespaceFiles := by
  intro t s snapshot
  have named : t.HasFileNames := by decide +kernel
  have scanned : scan (walk s.scan) s t ⟨"."⟩ = .ok snapshot := by decide +kernel
  obtain ⟨everywhere, walks⟩ := scan_accounts_for_files s t ⟨"."⟩
  obtain ⟨descriptors, sources, listed, listed', accounts, reordered⟩ :=
    everywhere (walk s.scan) snapshot scanned
  obtain ⟨_, _, again, again', walked⟩ := walks snapshot named scanned
  cases listed.symm.trans again
  cases listed'.symm.trans again'
  obtain ⟨snapshot', scanned', files, -, -⟩ :=
    reordered (fun t root kind => (walk s.scan t root kind).map List.reverse) sources.reverse
      ⟨descriptors.reverse, by simp only [listed]; rfl⟩ (by simp only [listed']; rfl)
      sources.reverse_perm
  exact ⟨named, scanned, ⟨descriptors, sources, accounts.sourceCount.symm, accounts, walked⟩,
    snapshot', scanned', files⟩

/--
Two modules in directories with names that are no texts, and are shown alike, are listed as one
twice, and so is a module that is enumerated twice.
-/
theorem scan_lists_alike :
    let content : Entry := .file "<project/>".toUTF8
    let t : FileTree := {
      entries := [([[77, 246]], .directory), ([[77, 246], "pom.xml"], content),
        ([[77, 252]], .directory), ([[77, 252], "pom.xml"], content)]
      ascending := by unfold Table.Ascending; decide +kernel }
    let t' : FileTree := {
      entries := [(["m"], .directory), (["m", "pom.xml"], content)]
      ascending := by unfold Table.Ascending; decide +kernel }
    t.HasFileNames ∧
      ((scan (walk {}) {} t ⟨"."⟩).map fun snapshot =>
        (snapshot.shape.descriptorCount, snapshot.shape.modules)) =
          .ok (2, ["M\uFFFD", "M\uFFFD"]) ∧
      ((scan (fun _ _ kind => .ok (if kind = .sources then []
          else [⟨"m/pom.xml"⟩, ⟨"m/./pom.xml"⟩])) {} t' ⟨"."⟩).map fun snapshot =>
        (snapshot.shape.descriptorCount, snapshot.shape.modules)) = .ok (2, ["m", "m"]) := by
  decide +kernel

end JavaMigration.Project
