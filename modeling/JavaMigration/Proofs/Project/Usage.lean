import JavaMigration.Project.Scan
import JavaMigration.Proofs.Table

/-!
# Tables of usage

The tables of a snapshot as the hits of its sources determine them: which sources use a namespace or
a legacy API, and how often a namespace is counted, which is once for every entry of the detection
table that names it.
-/

namespace JavaMigration.Project

variable {d : DetectionSettings} {sources sources' : List SourceHits} {ns : String}

theorem filterMap_positions {α : Type} (p : α → Bool) (items : List α) :
    (Detection.positions p items).filterMap (items[·]?) = items.filter p := by
  have paired : ∀ row ∈ items.zipIdx.filter (fun row => p row.1), items[row.2]? = some row.1 :=
    fun row mem => List.mem_zipIdx_iff_getElem?.1 (List.mem_filter.1 mem).1
  have named : (items.zipIdx.filter fun row => p row.1).filterMap (fun row => items[row.2]?) =
      (items.zipIdx.filter fun row => p row.1).map (·.1) := by
    rw [← List.filterMap_eq_map]
    exact List.filterMap_congr paired
  calc (Detection.positions p items).filterMap (items[·]?)
      = (items.zipIdx.filter fun row => p row.1).filterMap fun row => items[row.2]? := by
        rw [Detection.positions, List.filterMap_map]
        rfl
    _ = (items.zipIdx.map (·.1)).filter p := by
        rw [named, List.filter_map]
        rfl
    _ = items.filter p := by
        rw [List.zipIdx_map_fst]

theorem namespacesOf_detect (d : DetectionSettings) (path content : String) :
    namespacesOf d ⟨path, Detection.detect d content⟩ =
      d.namespaces.filter (Detection.usesNamespace · content.toList) :=
  filterMap_positions (Detection.usesNamespace · content.toList) d.namespaces

theorem mem_namespaces_of_mem_namespacesOf {source : SourceHits}
    (used : ns ∈ namespacesOf d source) : ns ∈ d.namespaces := by
  obtain ⟨position, -, entry⟩ := List.mem_filterMap.1 used
  exact List.mem_of_getElem? entry

/-- What a table has for a key: the list of the strings that satisfy `P`, or none if there are none. -/
structure Records (P : String → Prop) (row : Option (List String)) : Prop where
  absent : row = none ↔ ∀ path, ¬ P path
  present : ∀ files ∈ row, Lists P files

namespace Records

variable {P Q : String → Prop} {row row' : Option (List String)} {files : List String}

theorem congr (h : Records P row) (same : ∀ path, P path ↔ Q path) : Records Q row where
  absent := by simp only [h.absent, same]
  present := fun files found => (h.present files found).congr same

theorem exists_of_some (h : Records P row) (found : row = some files) : ∃ path, P path := by
  by_contra nobody
  rw [h.absent.2 (not_exists.1 nobody)] at found
  cases found

theorem unique (h : Records P row) (h' : Records P row') : row = row' := by
  cases row with
  | none => exact (h'.absent.2 (h.absent.1 rfl)).symm
  | some files =>
    cases row' with
    | none => exact h.absent.2 (h'.absent.1 rfl)
    | some files' =>
      rw [(h.present files rfl).unique (h'.present files' rfl) fun _ => Iff.rfl]

theorem foldl_insertAscending {α : Type} (f : α → String) (rows : List α) :
    Records (fun path => ∃ row ∈ rows, f row = path)
      (if rows = [] then none
      else some (rows.foldl (fun files row => insertAscending (f row) files) [])) := by
  cases rows with
  | nil => exact ⟨by simp, fun files found => nomatch found⟩
  | cons first rest =>
    rw [if_neg (List.cons_ne_nil first rest)]
    constructor
    · constructor
      · exact fun none => nomatch none
      · exact fun unused => absurd ⟨first, List.mem_cons_self, rfl⟩ (unused (f first))
    · rintro files ⟨⟩
      exact Lists.foldl_insertAscending f (first :: rest)

end Records

def usesOf (d : DetectionSettings) (sources : List SourceHits) : List (String × String) :=
  sources.flatMap fun source => (namespacesOf d source).map fun name => (name, source.path)

theorem mem_usesOf {use : String × String} :
    use ∈ usesOf d sources ↔
      ∃ source ∈ sources, use.1 ∈ namespacesOf d source ∧ source.path = use.2 := by
  simp only [usesOf, List.mem_flatMap, List.mem_map]
  constructor
  · rintro ⟨source, mem, name, used, rfl⟩
    exact ⟨source, mem, used, rfl⟩
  · rintro ⟨source, mem, used, same⟩
    exact ⟨source, mem, use.1, used, by rw [same]⟩

theorem ascending_namespaceFiles (d : DetectionSettings) (sources : List SourceHits) :
    Table.Ascending (namespaceFiles d sources) :=
  Table.ascending_foldl_update String.lt_trans Prod.fst _ (usesOf d sources) List.Pairwise.nil

/-- The sources that use a namespace are listed under it. -/
theorem records_namespaceFiles (d : DetectionSettings) (sources : List SourceHits) (ns : String) :
    Records (fun path => ∃ source ∈ sources, ns ∈ namespacesOf d source ∧ source.path = path)
      (Table.get? ns (namespaceFiles d sources)) := by
  have collected : Table.get? ns (namespaceFiles d sources) =
      if (usesOf d sources).filter (·.1 = ns) = [] then none
      else some (((usesOf d sources).filter (·.1 = ns)).foldl
        (fun files use => insertAscending use.2 files) []) := by
    rw [← foldl_getD]
    exact Table.get?_foldl_update String.lt_asymm String.lt_trans Prod.fst
      (fun use old => insertAscending use.2 (old.getD [])) (usesOf d sources) List.Pairwise.nil ns
  have used : ∀ path, (∃ use ∈ (usesOf d sources).filter (·.1 = ns), use.2 = path) ↔
      ∃ source ∈ sources, ns ∈ namespacesOf d source ∧ source.path = path := by
    intro path
    simp only [List.mem_filter, mem_usesOf, decide_eq_true_eq]
    constructor
    · rintro ⟨use, ⟨⟨source, mem, named, shown⟩, rfl⟩, rfl⟩
      exact ⟨source, mem, named, shown⟩
    · rintro ⟨source, mem, named, shown⟩
      exact ⟨(ns, path), ⟨⟨source, mem, named, shown⟩, rfl⟩, rfl⟩
  rw [collected]
  exact (Records.foldl_insertAscending Prod.snd _).congr used

theorem lists_apiFiles (sources : List SourceHits) (position : Nat) :
    Lists (fun path => ∃ source ∈ sources, position ∈ source.hits.deprecated ∧ source.path = path)
      (apiFiles sources position) := by
  have listed := Lists.foldl_insertAscending SourceHits.path
    (sources.filter fun source => position ∈ source.hits.deprecated)
  apply listed.congr
  intro path
  simp only [List.mem_filter, decide_eq_true_eq, and_assoc]

/-- The entries of the detection table for which there are files, with these. -/
def usagesOf (d : DetectionSettings) (files : Nat → List String) : List ApiUsage :=
  d.deprecatedApis.zipIdx.filterMap fun (entry, position) =>
    if files position = [] then none else some ⟨entry.api, files position⟩

theorem apiUsages_eq (d : DetectionSettings) (sources : List SourceHits) :
    apiUsages d sources = usagesOf d (apiFiles sources) := by
  rw [apiUsages, usagesOf]
  congr 1
  funext ⟨entry, position⟩
  cases found : apiFiles sources position with
  | nil => simp [found]
  | cons first rest => simp [found]

theorem ascending_namespaceUsage (d : DetectionSettings) (sources : List SourceHits) :
    Table.Ascending (namespaceUsage d sources) :=
  Table.ascending_foldl_update String.lt_trans id _ (sources.flatMap (namespacesOf d))
    List.Pairwise.nil

theorem get?_namespaceUsage (d : DetectionSettings) (sources : List SourceHits) (ns : String) :
    Table.get? ns (namespaceUsage d sources) =
      if (sources.flatMap (namespacesOf d)).count ns = 0 then none
      else some ((sources.flatMap (namespacesOf d)).count ns) := by
  have counted : ∀ (names : List String) (n : Nat),
      names.foldl (fun n _ => n + 1) n = n + names.length := by
    intro names
    induction names with
    | nil => exact fun _ => rfl
    | cons name names ih =>
      intro n
      rw [List.foldl_cons, ih, List.length_cons]
      omega
  have collected : Table.get? ns (namespaceUsage d sources) =
      if (sources.flatMap (namespacesOf d)).filter (id · = ns) = [] then none
      else some (((sources.flatMap (namespacesOf d)).filter (id · = ns)).foldl
        (fun n _ => n + 1) 0) := by
    rw [← foldl_getD]
    exact Table.get?_foldl_update String.lt_asymm String.lt_trans id
      (fun _ old => old.getD 0 + 1) (sources.flatMap (namespacesOf d)) List.Pairwise.nil ns
  have length : ((sources.flatMap (namespacesOf d)).filter (id · = ns)).length =
      (sources.flatMap (namespacesOf d)).count ns := by
    rw [List.count, List.countP_eq_length_filter]
    congr 2
  rw [collected, counted, ← length, Nat.zero_add]
  simp only [List.length_eq_zero_iff]

theorem count_namespacesOf (d : DetectionSettings) (path content : String) (ns : String) :
    (namespacesOf d ⟨path, Detection.detect d content⟩).count ns =
      if ns ∈ namespacesOf d ⟨path, Detection.detect d content⟩ then d.namespaces.count ns
      else 0 := by
  split
  · rename_i used
    rw [namespacesOf_detect] at used ⊢
    exact List.count_filter (List.mem_filter.1 used).2
  · rename_i unused
    exact List.count_eq_zero.2 unused

/-- A namespace is counted for all sources that use it, by its entries in the detection table. -/
theorem count_flatMap_namespacesOf
    (detected : ∀ source ∈ sources, ∃ content, source.hits = Detection.detect d content)
    (ns : String) :
    (sources.flatMap (namespacesOf d)).count ns =
      d.namespaces.count ns * (sources.filter fun source => ns ∈ namespacesOf d source).length := by
  induction sources with
  | nil => rfl
  | cons source sources ih =>
    obtain ⟨path, hits⟩ := source
    obtain ⟨content, rfl⟩ := detected ⟨path, hits⟩ List.mem_cons_self
    rw [List.flatMap_cons, List.count_append, count_namespacesOf, List.filter_cons,
      ih fun source mem => detected source (List.mem_cons_of_mem _ mem)]
    split
    · rename_i used
      rw [if_pos (decide_eq_true used), List.length_cons, Nat.mul_succ, Nat.add_comm]
    · rename_i unused
      rw [if_neg (by simpa using unused), Nat.zero_add]

/-- The namespaces that are counted are those that have files. -/
theorem namespaceUsage_eq
    (detected : ∀ source ∈ sources, ∃ content, source.hits = Detection.detect d content) :
    namespaceUsage d sources = (namespaceFiles d sources).map fun row =>
      (row.1, d.namespaces.count row.1 *
        (sources.filter fun source => row.1 ∈ namespacesOf d source).length) := by
  apply Table.eq_of_get? String.lt_asymm (ascending_namespaceUsage d sources)
    (Table.ascending_map (fun ns _ => d.namespaces.count ns *
      (sources.filter fun source => ns ∈ namespacesOf d source).length)
      (ascending_namespaceFiles d sources))
  intro ns
  have records := records_namespaceFiles d sources ns
  rw [get?_namespaceUsage, count_flatMap_namespacesOf detected,
    Table.get?_map fun ns (_ : List String) => d.namespaces.count ns *
      (sources.filter fun source => ns ∈ namespacesOf d source).length]
  cases found : Table.get? ns (namespaceFiles d sources) with
  | none =>
    have unused := records.absent.1 found
    have nobody : (sources.filter fun source => ns ∈ namespacesOf d source) = [] := by
      rw [List.filter_eq_nil_iff]
      intro source mem
      simpa using fun used => unused source.path ⟨source, mem, used, rfl⟩
    rw [nobody]
    rfl
  | some files =>
    obtain ⟨path, source, mem, used, -⟩ := records.exists_of_some found
    have counted : 0 < d.namespaces.count ns :=
      List.count_pos_iff.2 (mem_namespaces_of_mem_namespacesOf used)
    have user : 0 < (sources.filter fun source => ns ∈ namespacesOf d source).length :=
      List.length_pos_of_mem (List.mem_filter.2 ⟨mem, decide_eq_true used⟩)
    rw [if_neg (Nat.mul_pos counted user).ne']
    rfl

/-- The tables do not depend on the order in which the sources come. -/
theorem tables_of_perm (d : DetectionSettings) (h : sources'.Perm sources) :
    namespaceFiles d sources' = namespaceFiles d sources ∧
      namespaceUsage d sources' = namespaceUsage d sources ∧
        apiUsages d sources' = apiUsages d sources := by
  refine ⟨?_, ?_, ?_⟩
  · apply Table.eq_of_get? String.lt_asymm (ascending_namespaceFiles d sources')
      (ascending_namespaceFiles d sources)
    intro ns
    apply (records_namespaceFiles d sources' ns).unique
    apply (records_namespaceFiles d sources ns).congr
    simp only [h.mem_iff, implies_true]
  · apply Table.eq_of_get? String.lt_asymm (ascending_namespaceUsage d sources')
      (ascending_namespaceUsage d sources)
    intro ns
    rw [get?_namespaceUsage, get?_namespaceUsage, (h.flatMap_right _).count_eq]
  · have same : apiFiles sources' = apiFiles sources := by
      funext position
      refine (lists_apiFiles sources' position).unique (lists_apiFiles sources position) ?_
      simp only [h.mem_iff, implies_true]
    rw [apiUsages_eq, apiUsages_eq, same]

end JavaMigration.Project
