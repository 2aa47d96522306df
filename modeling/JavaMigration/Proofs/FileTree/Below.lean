import JavaMigration.Proofs.Text.Bytes
import JavaMigration.Proofs.Walk

/-!
# Files below a directory

A walk writes the path of a file as that of its root, followed by the names that lead down from
there. Such a path leads to the file, and the names can be told apart from the root again. This
rests on what names a file system allows: none with a slash, and none that leads nowhere or upward.
What names are shown as has these properties too, so they can be told apart as far as they are shown
in different ways.
-/

namespace JavaMigration

open Text (bytes bytes_eq bytes_append bytes_injective lossy lossy_bytes IsText IsSmall)

theorem mem_of_slash_mem_bytes {s : String} (mem : slash ∈ bytes s) : '/' ∈ s.toList :=
  Text.mem_of_mem_bytes (by decide) mem

theorem eq_nil_of_splitSlash {s : List UInt8} (h : splitSlash s = [[]]) : s = [] := by
  cases s with
  | nil => rfl
  | cons b rest =>
    rw [splitSlash] at h
    split at h
    · exact absurd (List.cons.inj h).2 (splitSlash_ne_nil rest)
    · split at h
      · cases h
      · cases h

/-- A name that an entry of a directory can have. -/
structure IsFileName (name : Name) : Prop where
  solid : Path.isIdle name = false
  downward : name ≠ Path.upward
  plain : slash ∉ name

instance (name : Name) : Decidable (IsFileName name) :=
  decidable_of_iff (Path.isIdle name = false ∧ name ≠ Path.upward ∧ slash ∉ name)
    ⟨fun ⟨solid, downward, plain⟩ => ⟨solid, downward, plain⟩,
      fun ⟨solid, downward, plain⟩ => ⟨solid, downward, plain⟩⟩

theorem IsFileName.ne_nil {name : Name} (h : IsFileName name) : name ≠ [] := by
  rintro rfl
  cases h.solid

theorem eq_of_bytes_lossy {name : Name} {s : String} (shown : bytes (lossy name) = bytes s)
    (small : ∀ c ∈ s.toList, IsSmall c) : name = bytes s :=
  Text.eq_bytes_of_lossy (bytes_injective shown) small

/-- A name that is shown as a text could also be that text. -/
theorem IsFileName.bytes_lossy {name : Name} (h : IsFileName name) :
    IsFileName (bytes (lossy name)) where
  solid := by
    cases idle : Path.isIdle (bytes (lossy name)) with
    | false => rfl
    | true =>
      have solid := h.solid
      rcases (by simpa [Path.isIdle] using idle :
        bytes (lossy name) = [] ∨ bytes (lossy name) = [point]) with none | alone
      · rw [eq_of_bytes_lossy (s := "") none (by simp)] at solid
        cases solid
      · rw [eq_of_bytes_lossy (s := ".") alone (by simp [IsSmall])] at solid
        cases solid
  downward := fun up => h.downward (eq_of_bytes_lossy (s := "..") up (by simp [IsSmall]))
  plain := fun mem => h.plain (Text.mem_of_mem_lossy (mem_of_slash_mem_bytes mem) (by simp [IsSmall]))

/-- All entries are below the topmost directory and have names as a file system allows them. -/
def FileTree.HasFileNames (t : FileTree) : Prop :=
  ∀ row ∈ t.entries, row.1 ≠ [] ∧ ∀ name ∈ row.1, IsFileName name

instance (t : FileTree) : Decidable t.HasFileNames :=
  inferInstanceAs (Decidable (∀ row ∈ t.entries, row.1 ≠ [] ∧ ∀ name ∈ row.1, IsFileName name))

namespace Path

variable {root p q : Path} {names : List Name}

theorem pieces_joinSlash (nonempty : names ≠ []) (named : ∀ name ∈ names, IsFileName name) :
    pieces ⟨joinSlash names⟩ = names :=
  splitSlash_joinSlash nonempty fun name mem => (named name mem).plain

theorem not_isAbsolute_joinSlash (nonempty : names ≠ []) (named : ∀ name ∈ names, IsFileName name) :
    isAbsolute ⟨joinSlash names⟩ = false := by
  have written := pieces_joinSlash nonempty named
  cases absolute : isAbsolute ⟨joinSlash names⟩ with
  | false => rfl
  | true =>
    -- The piece before a leading slash is empty, and no name is.
    simp only [isAbsolute, decide_eq_true_eq] at absolute
    obtain ⟨below, bytes⟩ := List.head?_eq_some_iff.1 absolute
    rw [pieces, bytes, splitSlash, if_pos rfl] at written
    exact absurd rfl (named [] (by rw [← written]; simp)).ne_nil

theorem exists_pieces_join (nonempty : root.bytes.isEmpty = false)
    (relative : q.isAbsolute = false) :
    ∃ outer suffix, root.join q = root.extend suffix ∧
      (root.join q).pieces = outer ++ q.pieces ∧
      ((root.pieces = outer ∧ outer ≠ [[]]) ∨ root.pieces = outer ++ [[]]) ∧ outer ≠ [] := by
  have filled : root.bytes ≠ [] := by simpa using nonempty
  unfold join
  simp only [relative, nonempty, Bool.or_self, Bool.false_eq_true, ↓reduceIte]
  split
  · rename_i trailing
    obtain ⟨init, bytes⟩ := List.getLast?_eq_some_iff.1 trailing
    refine ⟨splitSlash init, q.bytes, rfl, ?_, .inr ?_, splitSlash_ne_nil init⟩
    · simp [pieces, bytes, splitSlash_append]
    · simp [pieces, bytes, splitSlash_concat]
  · refine ⟨root.pieces, slash :: q.bytes, rfl, ?_, .inl ⟨rfl, ?_⟩, splitSlash_ne_nil root.bytes⟩
    · simp [pieces, splitSlash_append]
    · exact fun empty => filled (eq_nil_of_splitSlash empty)

theorem parts_of_pieces {first : Name} {rest : List Name} (written : p.pieces = first :: rest)
    (solid : first :: rest ≠ [[]]) :
    p.parts = (if first = [] then [slash] else first) :: rest.filter (!isIdle ·) := by
  unfold parts
  rw [written]
  split
  · rename_i empty
    cases empty
  · rename_i empty
    exact absurd empty solid
  · rename_i whole
    cases whole
    rfl

theorem parts_join (nonempty : root.bytes.isEmpty = false) (names_ne : names ≠ [])
    (named : ∀ name ∈ names, IsFileName name) :
    (root.join ⟨joinSlash names⟩).parts = root.parts ++ names := by
  have inner := pieces_joinSlash names_ne named
  obtain ⟨name, more, rfl⟩ := List.exists_cons_of_ne_nil names_ne
  have solid : ∀ name' ∈ name :: more, (!isIdle name') = true := by
    intro name' mem
    simpa using (named name' mem).solid
  obtain ⟨outer, suffix, -, joined, own, outer_ne⟩ :=
    exists_pieces_join nonempty (not_isAbsolute_joinSlash names_ne named)
  obtain ⟨first, rest, rfl⟩ := List.exists_cons_of_ne_nil outer_ne
  rw [inner, List.cons_append] at joined
  rw [parts_of_pieces joined (by simp), List.filter_append, List.filter_eq_self.2 solid]
  rcases own with ⟨written, solid⟩ | written
  · rw [parts_of_pieces written solid, List.cons_append]
  · rw [List.cons_append] at written
    rw [parts_of_pieces written (by simp), List.filter_append]
    simp [isIdle]

end Path

namespace FileTree

variable {t : FileTree} {root : Path} {base l : Location} {names : List Name}

theorem follow_names (named : ∀ name ∈ names, IsFileName name)
    (directories : ∀ n, n < names.length →
      t.entry? (base ++ names.take n) = some .directory) :
    t.follow base names = .ok (base ++ names) := by
  induction names generalizing base with
  | nil => simp [follow]
  | cons name rest ih =>
    have here : t.entry? base = some .directory := by simpa using directories 0 (by simp)
    obtain ⟨solid, downward, -⟩ := named name (by simp)
    rw [follow_cons here, solid]
    simp only [Bool.false_eq_true, ↓reduceIte, downward]
    rw [ih, List.append_assoc, List.singleton_append]
    · exact fun other mem => named other (by simp [mem])
    · intro n below
      have next := directories (n + 1) (by simp [below])
      rwa [List.take_succ_cons, ← List.singleton_append, ← List.append_assoc] at next

theorem locate_join (leads : t.locate root = .ok base) (nonempty : names ≠ [])
    (named : ∀ name ∈ names, IsFileName name) :
    t.locate (root.join ⟨joinSlash names⟩) = t.follow base names := by
  obtain ⟨init, last, written, -⟩ := root.exists_pieces_concat
  obtain ⟨filled, dir, inner, -, place⟩ := locate_eq_ok written leads
  obtain ⟨outer, suffix, longer, joined, own, -⟩ :=
    Path.exists_pieces_join filled (Path.not_isAbsolute_joinSlash nonempty named)
  have way : t.follow (t.start root) outer = .ok base := by
    rcases own with ⟨whole, -⟩ | whole
    · rw [← whole]
      simpa [locate, filled] using leads
    · obtain ⟨rfl, rfl⟩ := List.append_singleton_inj.1 (written.symm.trans whole)
      rw [inner, place]
      rfl
  have filled' : (root.extend suffix).bytes.isEmpty = false := by
    simp only [Path.extend]
    simpa using fun none => absurd none (by simpa using filled)
  rw [longer] at joined ⊢
  rw [locate, filled', joined, start_extend filled, follow_append, way,
    Path.pieces_joinSlash nonempty named]
  rfl

theorem nonempty_of_locate {p : Path} (leads : t.locate p = .ok l) : p.bytes.isEmpty = false := by
  cases empty : p.bytes.isEmpty with
  | false => rfl
  | true => simp [locate, empty] at leads

theorem canList_iff : Walk.canList t l = true ↔ t.entry? l = some .directory ∧ l ∉ t.unlisted := by
  simp [Walk.canList]

theorem stages_append (base names : Location) :
    Walk.stages base (base ++ names) =
      (List.range names.length).map fun n => base ++ names.take (n + 1) := by
  simp only [Walk.stages, List.length_append, Nat.add_sub_cancel_left]
  apply List.map_congr_left
  intro n _
  rw [Nat.add_assoc, List.take_length_add_append]

variable {skips : Bool → Location → Bool}

/--
All before a location that a walk comes to are directories whose names can be listed, and nothing on
the way is left out.
-/
theorem reaches_iff :
    Walk.reaches t skips base (base ++ names) = true ↔
      ∀ n < names.length, Walk.canList t (base ++ names.take n) = true ∧
        skips (n + 1 < names.length) (base ++ names.take (n + 1)) = false := by
  simp only [Walk.reaches, stages_append, List.all_map, Bool.and_eq_true, Bool.or_eq_true,
    List.isPrefixOf_iff_prefix, List.prefix_append, true_and, decide_eq_true_eq, List.self_eq_append_right,
    List.all_eq_true, List.mem_range, Function.comp_apply, List.append_cancel_left_eq]
  have whole : ∀ n, names.take (n + 1) = names ↔ ¬ n + 1 < names.length := by
    intro n
    rw [Nat.not_lt]
    refine ⟨fun same => ?_, List.take_of_length_le⟩
    have := congrArg List.length same
    rw [List.length_take] at this
    omega
  have stage : ∀ n, (if names.take (n + 1) = names then !skips false (base ++ names.take (n + 1))
      else Walk.canList t (base ++ names.take (n + 1)) && !skips true (base ++ names.take (n + 1))) =
        true ↔ (n + 1 < names.length → Walk.canList t (base ++ names.take (n + 1)) = true) ∧
          skips (n + 1 < names.length) (base ++ names.take (n + 1)) = false := by
    intro n
    simp only [whole n]
    by_cases inner : n + 1 < names.length
    · simp [inner]
    · simp [inner]
  simp only [stage]
  -- A directory is listed for what stands below it, so the stages are one off from the names.
  constructor
  · rintro ⟨top, stages⟩ n inside
    refine ⟨?_, (stages n inside).2⟩
    cases n with
    | zero => simpa using top.resolve_left (List.length_pos_iff.1 inside)
    | succ n => exact (stages n (by omega)).1 inside
  · intro each
    refine ⟨?_, fun n inside => ⟨fun inner => (each (n + 1) inner).1, (each n inside).2⟩⟩
    by_cases none : names = []
    · exact .inl none
    · exact .inr (by simpa using (each 0 (List.length_pos_iff.2 none)).1)

theorem exists_of_reaches (reached : Walk.reaches t skips base l = true) : ∃ names, l = base ++ names := by
  simp only [Walk.reaches, Bool.and_eq_true, List.isPrefixOf_iff_prefix] at reached
  obtain ⟨names, whole⟩ := reached.1.1
  exact ⟨names, whole.symm⟩

/-- A file that a walk comes to is below the root, and all between them are directories. -/
theorem names_of_reaches (root : t.entry? base = some .directory)
    (file : t.entry? l ≠ some .directory) (reached : Walk.reaches t skips base l = true) :
    ∃ names, l = base ++ names ∧ names ≠ [] ∧
      ∀ n, n < names.length → t.entry? (base ++ names.take n) = some .directory := by
  obtain ⟨names, rfl⟩ := exists_of_reaches reached
  refine ⟨names, rfl, ?_, fun n inside => (canList_iff.1 (reaches_iff.1 reached n inside).1).1⟩
  rintro rfl
  rw [List.append_nil] at file
  exact file root

theorem mem_filesBelow (named : t.HasFileNames) (mem : l ∈ Walk.filesBelow t skips base) :
    (∀ name ∈ l, IsFileName name) ∧ (∃ content, t.entry? l = some (.file content)) ∧
      Walk.reaches t skips base l = true := by
  obtain ⟨⟨l', e⟩, stored, listed⟩ := List.mem_filterMap.1 mem
  cases e with
  | directory => cases listed
  | special => cases listed
  | file content =>
    simp only [Option.ite_none_right_eq_some, Option.some.injEq] at listed
    obtain ⟨reached, rfl⟩ := listed
    obtain ⟨below, proper⟩ := named _ stored
    refine ⟨proper, ⟨content, ?_⟩, reached⟩
    unfold entry?
    rw [if_neg below]
    exact Table.get?_of_mem List.lt_asymm t.ascending stored

theorem pairwise_filesBelow (t : FileTree) (skips : Bool → Location → Bool) (base : Location) :
    (Walk.filesBelow t skips base).Pairwise (· < ·) := by
  refine List.Pairwise.filterMap _ ?_ t.ascending
  rintro ⟨l, e⟩ ⟨l', e'⟩ less first listed second listed'
  cases e with
  | directory => cases listed
  | special => cases listed
  | file content =>
    cases e' with
    | directory => cases listed'
    | special => cases listed'
    | file content' =>
      simp only [Option.ite_none_right_eq_some, Option.some.injEq] at listed listed'
      rwa [← listed.2, ← listed'.2]

theorem nodup_filesBelow (t : FileTree) (skips : Bool → Location → Bool) (base : Location) :
    (Walk.filesBelow t skips base).Nodup := by
  refine (pairwise_filesBelow t skips base).imp ?_
  rintro l l' less rfl
  exact List.lt_irrefl _ less

theorem locate_pathBelow (named : t.HasFileNames) (found : t.find root = .ok (base, .directory))
    (mem : l ∈ Walk.filesBelow t skips base) :
    t.locate (Walk.pathBelow root base l) = .ok l := by
  obtain ⟨proper, ⟨content, present⟩, reached⟩ := mem_filesBelow named mem
  obtain ⟨leads, directory⟩ := find_eq_ok.1 found
  obtain ⟨names, rfl, nonempty, directories⟩ :=
    names_of_reaches directory (by simp [present]) reached
  have proper : ∀ name ∈ names, IsFileName name := fun name mem => proper name (by simp [mem])
  simp only [Walk.pathBelow, Ignore.pathFrom, List.drop_left]
  rw [locate_join leads nonempty proper]
  exact follow_names proper directories

end FileTree

open FileTree

/-- The files of a walk are at different locations. -/
theorem pairwise_locate_walk {s : ScanSettings} {t : FileTree} {root : Path} {kind : FileMatcher}
    {files : List Path} (named : t.HasFileNames) (h : walk s t root kind = .ok files) :
    files.Pairwise fun p q => t.locate p ≠ t.locate q := by
  rcases walk_eq_ok h with ⟨-, rfl⟩ | ⟨-, rfl⟩ | ⟨base, rules, found, rfl⟩
  · exact .nil
  · split
    · exact List.pairwise_singleton _ _
    · exact .nil
  · apply List.Pairwise.filter
    apply List.pairwise_map.2
    refine (nodup_filesBelow t _ base).imp_of_mem ?_
    intro l l' mem mem' other same
    rw [locate_pathBelow named found mem, locate_pathBelow named found mem'] at same
    exact other (Except.ok.inj same)

end JavaMigration
