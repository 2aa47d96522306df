import JavaMigration.Proofs.Project.Accounting

/-!
# How broadly namespaces are used

The count of a namespace is the number of the sources that use it, times the number of entries in
the detection table that name it. Its files are how these sources are shown. So each file counts
once for a namespace exactly where the table names none of those in use twice, which no check of the
settings makes sure of, and no two sources that use it are shown alike.
-/

namespace JavaMigration.Project

variable {s : Settings} {t : FileTree} {root : Path} {snapshot : Snapshot}

def pairsOf (files : ByName (List String)) : List (String × String) :=
  files.flatMap fun row => row.2.map (row.1, ·)

theorem nodup_pairsOf {files : ByName (List String)} (ascending : Table.Ascending files)
    (nodup : ∀ row ∈ files, row.2.Nodup) : (pairsOf files).Nodup := by
  apply List.nodup_flatMap.2
  constructor
  · intro row mem
    exact (nodup row mem).map fun _ _ same => (Prod.ext_iff.1 same).2
  · refine ascending.imp fun less => ?_
    rintro pair mem mem'
    obtain ⟨path, -, rfl⟩ := List.mem_map.1 mem
    obtain ⟨path', -, same⟩ := List.mem_map.1 mem'
    exact absurd (Prod.ext_iff.1 same).1.symm (ne_of_lt less)

theorem total_map_length (files : ByName (List String)) :
    ByName.total (files.map fun row => (row.1, row.2.length)) = (pairsOf files).length := by
  induction files with
  | nil => rfl
  | cons row rest ih =>
    rw [List.map_cons, ByName.total, List.foldr_cons, pairsOf, List.flatMap_cons,
      List.length_append, List.length_map]
    exact congrArg (row.2.length + ·) ih

/-- The sources that are read and hit an entry of the detection table that names this namespace. -/
def usersOf (s : Settings) (t : FileTree) (sources : List Path) (ns : String) : List Path :=
  sources.filter fun p =>
    match t.textWithin s.scan.sizeLimit? p with
    | .error _ => false
    | .ok content => (Detection.detect s.detection content).namespaces.any fun position =>
        s.detection.namespaces[position]? = some ns

theorem mem_usersOf {sources : List Path} {ns : String} {p : Path} :
    p ∈ usersOf s t sources ns ↔ p ∈ sources ∧ ∃ content, Holds s.scan t p content ∧
      HitsNamespace s.detection ns (Detection.detect s.detection content) := by
  simp only [usersOf, List.mem_filter, ← textWithin_eq_ok, HitsNamespace]
  refine and_congr_right fun _ => ?_
  cases t.textWithin s.scan.sizeLimit? p with
  | error e => simp
  | ok content => simp

theorem map_path_usersOf (s : Settings) (t : FileTree) (root : Path) (sources : List Path)
    (ns : String) :
    ((results (readSources s t root sources)).filter
        fun source => ns ∈ namespacesOf s.detection source).map SourceHits.path =
      (usersOf s t sources ns).map root.relativeTo := by
  unfold results readSources usersOf
  induction sources with
  | nil => rfl
  | cons p rest ih =>
    rw [List.map_cons, List.filterMap_cons, List.filter_cons]
    cases read : t.textWithin s.scan.sizeLimit? p with
    | error e => exact ih
    | ok content =>
      have uses : (ns ∈ namespacesOf s.detection
          ⟨root.relativeTo p, Detection.detect s.detection content⟩) ↔
            HitsNamespace s.detection ns (Detection.detect s.detection content) := mem_namespacesOf
      by_cases hits : HitsNamespace s.detection ns (Detection.detect s.detection content)
      · rw [List.filter_cons_of_pos (by simpa using uses.2 hits), List.map_cons, ih,
          if_pos (by simpa [HitsNamespace] using hits), List.map_cons]
      · rw [List.filter_cons_of_neg (by simpa using mt uses.1 hits), ih,
          if_neg (by simpa [HitsNamespace] using hits)]

/-- How the counts of a snapshot that is taken of these sources compare with its files. -/
structure CountsUses (s : Settings) (t : FileTree) (root : Path) (sources : List Path)
    (snapshot : Snapshot) : Prop where
  usage : snapshot.namespaceUsage = snapshot.namespaceFiles.map fun row =>
    (row.1, s.detection.namespaces.count row.1 * (usersOf s t sources row.1).length)
  known : ∀ row ∈ snapshot.namespaceFiles, row.1 ∈ s.detection.namespaces ∧ row.2 ≠ []
  files : ∀ row ∈ snapshot.namespaceFiles,
    Lists (· ∈ (usersOf s t sources row.1).map root.relativeTo) row.2
  pairs : (pairsOf snapshot.namespaceFiles).Nodup
  broad : (snapshot.namespaceUsage =
      snapshot.namespaceFiles.map fun row => (row.1, row.2.length)) ↔
    ∀ row ∈ snapshot.namespaceFiles, s.detection.namespaces.count row.1 = 1 ∧
      ((usersOf s t sources row.1).map root.relativeTo).Nodup
  total : snapshot.totalUsage = (pairsOf snapshot.namespaceFiles).length ↔
    snapshot.namespaceUsage = snapshot.namespaceFiles.map fun row => (row.1, row.2.length)

/-- Counts that are not too low come to the same in all only if each of them does. -/
theorem total_eq_total_iff {files : ByName (List String)} {f g : String × List String → Nat}
    (le : ∀ row ∈ files, f row ≤ g row) :
    ByName.total (files.map fun row => (row.1, g row)) =
        ByName.total (files.map fun row => (row.1, f row)) ↔
      (files.map fun row => (row.1, g row)) = files.map fun row => (row.1, f row) := by
  refine ⟨fun same => ?_, fun same => by rw [same]⟩
  have bounded : ∀ rest : ByName (List String), (∀ row ∈ rest, f row ≤ g row) →
      ByName.total (rest.map fun row => (row.1, f row)) ≤
        ByName.total (rest.map fun row => (row.1, g row)) := by
    intro rest le
    induction rest with
    | nil => exact Nat.le_refl _
    | cons row rest ih =>
      obtain ⟨here, later⟩ := List.forall_mem_cons.1 le
      exact Nat.add_le_add here (ih later)
  induction files with
  | nil => rfl
  | cons row rest ih =>
    obtain ⟨here, later⟩ := List.forall_mem_cons.1 le
    have others := bounded rest later
    simp only [List.map_cons, ByName.total, List.foldr_cons] at same others ih ⊢
    rw [ih later (by omega), show g row = f row by omega]

theorem namespaceUsage_snapshotOf (s : Settings) (t : FileTree) (root : Path)
    (descriptors sources : List Path) :
    (snapshotOf s t root descriptors sources).namespaceUsage =
      (snapshotOf s t root descriptors sources).namespaceFiles.map fun row =>
        (row.1, s.detection.namespaces.count row.1 * (usersOf s t sources row.1).length) := by
  have detected : ∀ source ∈ results (readSources s t root sources), ∃ content,
      source.hits = Detection.detect s.detection content := by
    intro source mem
    obtain ⟨p, -, content, -, rfl⟩ := mem_results_readSources.1 mem
    exact ⟨content, rfl⟩
  have length : ∀ ns, (usersOf s t sources ns).length =
      ((results (readSources s t root sources)).filter
        fun source => ns ∈ namespacesOf s.detection source).length := by
    intro ns
    rw [← List.length_map root.relativeTo, ← map_path_usersOf, List.length_map]
  simp only [length]
  exact namespaceUsage_eq detected

/-- A namespace that has files is named in the detection table, and its files are its users. -/
theorem Accounts.of_mem_namespaceFiles {descriptors sources : List Path}
    (accounts : Accounts s t root descriptors sources snapshot) {row : String × List String}
    (mem : row ∈ snapshot.namespaceFiles) :
    row.1 ∈ s.detection.namespaces ∧ row.2 ≠ [] ∧
      Lists (· ∈ (usersOf s t sources row.1).map root.relativeTo) row.2 := by
  have found : Table.get? row.1 snapshot.namespaceFiles = some row.2 :=
    Table.get?_of_mem String.lt_asymm accounts.ordered mem
  have records := accounts.files row.1
  have listed := records.present row.2 found
  obtain ⟨path, user⟩ := records.exists_of_some found
  have entry : row.1 ∈ s.detection.namespaces := by
    obtain ⟨p, -, -, content, -, position, -, entry⟩ := user
    exact List.mem_of_getElem? entry
  refine ⟨entry, List.ne_nil_of_mem ((listed.mem_iff path).2 user), listed.congr fun path => ?_⟩
  simp only [List.mem_map, mem_usersOf, IsUsedIn]
  constructor
  · rintro ⟨p, mem, shown, user⟩
    exact ⟨p, ⟨mem, user⟩, shown⟩
  · rintro ⟨p, ⟨mem, user⟩, shown⟩
    exact ⟨p, mem, shown, user⟩

theorem mul_eq_iff_of_le {m n k : Nat} (positive : 0 < k) (le : k ≤ n) :
    m * n = k ↔ m = 1 ∧ k = n := by
  constructor
  · intro same
    have once : m * n ≤ 1 * n := by omega
    have atMost : m ≤ 1 := Nat.le_of_mul_le_mul_right once (by omega)
    have atLeast : 0 < m := Nat.pos_of_mul_pos_right (by omega : 0 < m * n)
    obtain rfl : m = 1 := by omega
    exact ⟨rfl, by omega⟩
  · rintro ⟨rfl, rfl⟩
    exact Nat.one_mul _

theorem countsUses_snapshotOf (s : Settings) (t : FileTree) (root : Path)
    (descriptors sources : List Path) :
    CountsUses s t root sources (snapshotOf s t root descriptors sources) := by
  have accounts := accounts_snapshotOf s t root descriptors sources
  have usage := namespaceUsage_snapshotOf s t root descriptors sources
  have rows := fun row (mem : row ∈ _) => accounts.of_mem_namespaceFiles mem
  have pairs := nodup_pairsOf accounts.ordered fun row mem => (rows row mem).2.2.nodup
  generalize snapshotOf s t root descriptors sources = snapshot at *
  have shorter : ∀ row ∈ snapshot.namespaceFiles,
      row.2.length ≤ (usersOf s t sources row.1).length := by
    intro row mem
    rw [← List.length_map root.relativeTo]
    exact (rows row mem).2.2.length_le fun _ => Iff.rfl
  refine ⟨usage, fun row mem => ⟨(rows row mem).1, (rows row mem).2.1⟩,
    fun row mem => (rows row mem).2.2, pairs, ?_, ?_⟩
  · rw [usage, List.map_inj_left]
    refine forall₂_congr fun row mem => ?_
    obtain ⟨-, nonempty, listed⟩ := rows row mem
    rw [Prod.mk.injEq, and_iff_right rfl,
      mul_eq_iff_of_le (List.length_pos_iff.2 nonempty) (shorter row mem),
      ← listed.length_eq_iff fun _ => Iff.rfl, List.length_map]
  · rw [Snapshot.totalUsage, ← total_map_length, usage]
    apply total_eq_total_iff
    intro row mem
    have counted : 0 < s.detection.namespaces.count row.1 := List.count_pos_iff.2 (rows row mem).1
    exact (shorter row mem).trans (Nat.le_mul_of_pos_left _ counted)

/--
What a snapshot counts for a namespace are the sources that use it, times the entries of the
detection table that name it. So the counts are those of its files, and the total counts each pair
of a namespace and a file once, exactly where the table names each namespace in use once and no two
sources that use it are shown alike. In a walk the latter is so for names that are texts.
-/
theorem usage_counts_files (s : Settings) (t : FileTree) (root : Path) :
    (∀ (enumerate : Enumeration) (snapshot : Snapshot), scan enumerate s t root = .ok snapshot →
      ∃ sources, enumerate t root .sources = .ok sources ∧
        CountsUses s t root sources snapshot) ∧
    ∀ snapshot, t.HasFileNames → scan (walk s.scan) s t root = .ok snapshot →
      s.detection.namespaces.Nodup →
      (∀ sources, walk s.scan t root .sources = .ok sources → ∀ p ∈ sources, root.IsTextBelow p) →
        (snapshot.namespaceUsage = snapshot.namespaceFiles.map fun row => (row.1, row.2.length)) ∧
          snapshot.totalUsage = (pairsOf snapshot.namespaceFiles).length := by
  constructor
  · intro enumerate snapshot scanned
    obtain ⟨-, descriptors, sources, -, listed, rfl⟩ := scan_eq_ok.1 scanned
    exact ⟨sources, listed, countsUses_snapshotOf s t root descriptors sources⟩
  · intro snapshot named scanned nodup texts
    obtain ⟨directory, descriptors, sources, -, listed, rfl⟩ := scan_eq_ok.1 scanned
    have counts := countsUses_snapshotOf s t root descriptors sources
    have shown := nodup_map_relativeTo named directory listed (texts sources listed)
    have broad := counts.broad.2 fun row mem =>
      ⟨List.count_eq_one_of_mem nodup (counts.known row mem).1,
        (List.filter_sublist.map root.relativeTo).nodup shown⟩
    exact ⟨broad, counts.total.2 broad⟩

/-- Two entries of a detection table that overlap, and a file that uses both of them twice. -/
theorem usage_counts_files_overlapping :
    let t : FileTree := {
      entries := [
        (["r"], .directory),
        (["r", "A.java"], .file "import javax.servlet.A; import javax.servlet.B;".toUTF8),
        (["r", "B.java"], .file "import javax.json.C;".toUTF8)]
      ascending := by unfold Table.Ascending; decide +kernel
      current := ["r"] }
    let s : Settings :=
      { detection := { DetectionSettings.builtIn with namespaces := ["javax.servlet", "javax"] } }
    t.HasFileNames ∧ s.detection.namespaces.Nodup ∧
      ∃ snapshot, scan (walk s.scan) s t ⟨"."⟩ = .ok snapshot ∧
        pairsOf snapshot.namespaceFiles =
          [("javax", "A.java"), ("javax", "B.java"), ("javax.servlet", "A.java")] ∧
        snapshot.namespaceUsage = [("javax", 2), ("javax.servlet", 1)] ∧
        snapshot.totalUsage = 3 ∧ ∃ sources, CountsUses s t ⟨"."⟩ sources snapshot := by
  intro t s
  have named : t.HasFileNames := by decide +kernel
  have nodup : s.detection.namespaces.Nodup := by decide +kernel
  have scanned : (scan (walk s.scan) s t ⟨"."⟩).map (·.namespaceFiles) =
      .ok [("javax", ["A.java", "B.java"]), ("javax.servlet", ["A.java"])] := by
    decide +kernel
  have texts : ∀ sources, walk s.scan t ⟨"."⟩ .sources = .ok sources →
      ∀ p ∈ sources, Path.IsTextBelow ⟨"."⟩ p := by
    have listed : walk s.scan t ⟨"."⟩ .sources = .ok [⟨"./A.java"⟩, ⟨"./B.java"⟩] := by
      decide +kernel
    intro sources listed'
    obtain rfl := Except.ok.inj (listed.symm.trans listed')
    decide +kernel
  cases found : scan (walk s.scan) s t ⟨"."⟩ with
  | error e =>
    rw [found] at scanned
    cases scanned
  | ok snapshot =>
    have files : snapshot.namespaceFiles =
        [("javax", ["A.java", "B.java"]), ("javax.servlet", ["A.java"])] := by
      rw [found] at scanned
      exact Except.ok.inj scanned
    obtain ⟨everywhere, walks⟩ := usage_counts_files s t ⟨"."⟩
    obtain ⟨sources, -, counts⟩ := everywhere (walk s.scan) snapshot found
    obtain ⟨usage, total⟩ := walks snapshot named found nodup texts
    rw [files] at usage total
    exact ⟨named, nodup, snapshot, rfl, by rw [files]; rfl, usage, total, sources, counts⟩

/-- Settings pass the check with a namespace named twice, for which one file counts twice. -/
theorem usage_counts_files_twice :
    let t : FileTree := {
      entries := [
        (["r"], .directory),
        (["r", "A.java"], .file "import javax.servlet.A;".toUTF8)]
      ascending := by unfold Table.Ascending; decide +kernel
      current := ["r"] }
    let s : Settings :=
      { detection :=
          { DetectionSettings.builtIn with namespaces := ["javax.servlet", "javax.servlet"] } }
    s.fault? = none ∧ t.HasFileNames ∧
      ∃ snapshot, scan (walk s.scan) s t ⟨"."⟩ = .ok snapshot ∧
        snapshot.namespaceFiles = [("javax.servlet", ["A.java"])] ∧
        snapshot.namespaceUsage = [("javax.servlet", 2)] ∧ snapshot.totalUsage = 2 := by
  intro t s
  have valid : s.fault? = none := by decide +kernel
  have named : t.HasFileNames := by decide +kernel
  have scanned : (scan (walk s.scan) s t ⟨"."⟩).map (fun snapshot =>
      (snapshot.namespaceFiles, snapshot.namespaceUsage)) =
        .ok ([("javax.servlet", ["A.java"])], [("javax.servlet", 2)]) := by
    decide +kernel
  cases found : scan (walk s.scan) s t ⟨"."⟩ with
  | error e =>
    rw [found] at scanned
    cases scanned
  | ok snapshot =>
    rw [found] at scanned
    obtain ⟨files, usage⟩ := Prod.ext_iff.1 (Except.ok.inj scanned)
    refine ⟨valid, named, snapshot, rfl, files, usage, ?_⟩
    have usage : snapshot.namespaceUsage = [("javax.servlet", 2)] := usage
    rw [Snapshot.totalUsage, usage]
    rfl

end JavaMigration.Project
