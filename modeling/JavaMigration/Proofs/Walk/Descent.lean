import JavaMigration.Proofs.Walk.Exclusion

/-!
# Going down one directory at a time

What is below a directory is below its entries, or one of them. So the files that a walk comes to
from a directory are, in another order, those it comes to from the entries that it does not leave
out.
-/

namespace JavaMigration

def FileTree.listing (t : FileTree) (directory : Location) : List Name :=
  if t.unlisted.contains directory then []
  else t.entries.filterMap fun (l, _) => if l.dropLast = directory then l.getLast? else none

namespace FileTree

variable {t : FileTree} {l directory : Location} {name : Name} {e : Entry}

theorem present_of_mem (below : l ≠ []) (mem : (l, e) ∈ t.entries) : t.entry? l = some e := by
  rw [ entry?, if_neg below]
  exact Table.get?_of_mem List.lt_asymm t.ascending mem

theorem mem_entries (below : l ≠ []) (present : t.entry? l = some e) : (l, e) ∈ t.entries := by
  rw [ entry?, if_neg below] at present
  exact Table.mem_of_get? present

theorem eq_append_of_listed
    (listed : (if l.dropLast = directory then l.getLast? else none) = some name) :
    l = directory ++ [name] := by
  split at listed
  · rename_i inside
    obtain ⟨init, rfl⟩ := List.getLast?_eq_some_iff.1 listed
    rw [← inside, List.dropLast_concat]
  · cases listed

theorem mem_listing :
    name ∈ t.listing directory ↔
      directory ∉ t.unlisted ∧ (t.entry? (directory ++ [name])).isSome = true := by
  rw [listing, List.contains_eq_mem]
  by_cases unlisted : directory ∈ t.unlisted
  · simp [unlisted]
  · simp only [unlisted, decide_false, Bool.false_eq_true, ↓reduceIte, not_false_eq_true, true_and]
    constructor
    · intro mem
      obtain ⟨⟨l, e⟩, stored, listed⟩ := List.mem_filterMap.1 mem
      obtain rfl := eq_append_of_listed listed
      simp [present_of_mem (by simp) stored]
    · intro present
      obtain ⟨e, present⟩ := Option.isSome_iff_exists.1 present
      exact List.mem_filterMap.2 ⟨_, mem_entries (by simp) present, by simp⟩

theorem nodup_listing (t : FileTree) (directory : Location) : (t.listing directory).Nodup := by
  unfold listing
  split
  · exact List.nodup_nil
  refine List.Pairwise.filterMap _ ?_ t.ascending
  rintro ⟨l, e⟩ ⟨l', e'⟩ less name listed name' listed'
  rintro rfl
  obtain rfl := eq_append_of_listed listed
  obtain rfl := eq_append_of_listed listed'
  exact List.lt_irrefl _ less

end FileTree

namespace Walk

open FileTree

variable {t : FileTree} {leaves : Bool → Location → Bool} {base l : Location} {name : Name}
  {names : List Name}

theorem mem_filesBelow_iff (named : t.HasFileNames) :
    l ∈ filesBelow t leaves base ↔
      (∃ content, t.entry? l = some (.file content)) ∧ reaches t leaves base l = true := by
  constructor
  · exact fun mem => (mem_filesBelow named mem).2
  · rintro ⟨⟨content, present⟩, reached⟩
    have below : l ≠ [] := ne_nil_of_not_directory (t := t) (by simp [present])
    exact List.mem_filterMap.2 ⟨_, mem_entries below present, by simp [reached]⟩

/-- To come to what is below an entry, a walk has to come to the entry and go on from there. -/
theorem reaches_cons :
    reaches t leaves base (base ++ name :: names) = true ↔
      canList t base = true ∧ leaves (names ≠ []) (base ++ [name]) = false ∧
        reaches t leaves (base ++ [name]) (base ++ [name] ++ names) = true := by
  have step : ∀ n, base ++ (name :: names).take (n + 1) = base ++ [name] ++ names.take n := by
    simp
  rw [reaches_iff, reaches_iff, List.length_cons, Nat.forall_lt_succ_left]
  simp only [step]
  simp [and_assoc, List.length_pos_iff]

theorem reaches_self : reaches t leaves base base = true := by
  have whole : reaches t leaves base (base ++ []) = true := reaches_iff.2 (by simp)
  rwa [List.append_nil] at whole

theorem directory_of_reaches (reached : reaches t leaves base (base ++ name :: names) = true) :
    t.entry? base = some .directory :=
  (canList_iff.1 (reaches_cons.1 reached).1).1

/-- The files that a walk comes to from an entry, of which it may be one. -/
def filesFrom (t : FileTree) (leaves : Bool → Location → Bool) (l : Location) : List Location :=
  match t.entry? l with
  | some (.file _) => [l]
  | some .directory => filesBelow t leaves l
  | _ => []

def visits (t : FileTree) (leaves : Bool → Location → Bool) (directory : Location)
    (name : Name) : Bool :=
  !leaves (t.entry? (directory ++ [name]) = some .directory) (directory ++ [name])

theorem exists_of_mem_filesFrom (named : t.HasFileNames) (mem : l ∈ filesFrom t leaves base) :
    ∃ names, l = base ++ names := by
  unfold filesFrom at mem
  split at mem
  · exact ⟨[], by simpa using mem⟩
  · exact exists_of_reaches ((mem_filesBelow_iff named).1 mem).2
  · cases mem

theorem nodup_filesFrom (t : FileTree) (leaves : Bool → Location → Bool) (l : Location) :
    (filesFrom t leaves l).Nodup := by
  unfold filesFrom
  split
  · exact List.nodup_singleton l
  · exact nodup_filesBelow t leaves l
  · exact List.nodup_nil

theorem nodup_flatMap_filesFrom (named : t.HasFileNames) {entries : List Name}
    (nodup : entries.Nodup) :
    (entries.flatMap fun name => filesFrom t leaves (base ++ [name])).Nodup := by
  rw [List.nodup_flatMap]
  refine ⟨fun name _ => nodup_filesFrom t leaves _, ?_⟩
  refine nodup.imp ?_
  intro name name' other l mem mem'
  obtain ⟨names, rfl⟩ := exists_of_mem_filesFrom named mem
  obtain ⟨names', same⟩ := exists_of_mem_filesFrom named mem'
  rw [List.append_assoc, List.append_assoc, List.append_cancel_left_eq] at same
  exact other (List.cons.inj same).1

/-- A walk comes to a file through the entry of the directory on its way. -/
theorem mem_filesBelow_cons (named : t.HasFileNames) :
    base ++ name :: names ∈ filesBelow t leaves base ↔
      canList t base = true ∧ visits t leaves base name = true ∧
        base ++ name :: names ∈ filesFrom t leaves (base ++ [name]) := by
  have whole : base ++ name :: names = base ++ [name] ++ names := by simp
  rw [mem_filesBelow_iff named, reaches_cons, whole]
  unfold visits filesFrom
  cases names with
  | nil =>
    rw [List.append_nil]
    cases present : t.entry? (base ++ [name]) with
    | none => simp
    | some e =>
      cases e with
      | file content => simp [reaches_self]
      | directory => simp [mem_filesBelow_iff named, present]
      | special => simp
  | cons next names =>
    have enters : reaches t leaves (base ++ [name]) (base ++ [name] ++ next :: names) = true →
        t.entry? (base ++ [name]) = some .directory := directory_of_reaches
    generalize inner : reaches t leaves (base ++ [name]) (base ++ [name] ++ next :: names) = reached
      at enters ⊢
    cases present : t.entry? (base ++ [name]) with
    | none => simp [show reached = false by simpa [present] using enters]
    | some e =>
      cases e with
      | file content => simp [show reached = false by simpa [present] using enters]
      | directory => simp [mem_filesBelow_iff named, ← inner, and_left_comm]
      | special => simp [show reached = false by simpa [present] using enters]

/-- The files below a directory are those from the entries that a walk looks at. -/
theorem filesBelow_perm (named : t.HasFileNames) (here : t.entry? base = some .directory) :
    (filesBelow t leaves base).Perm
      (((t.listing base).filter (visits t leaves base)).flatMap fun name =>
        filesFrom t leaves (base ++ [name])) := by
  refine (List.perm_ext_iff_of_nodup (nodup_filesBelow t leaves base)
    (nodup_flatMap_filesFrom named ((nodup_listing t base).filter _))).2 ?_
  intro l
  simp only [List.mem_flatMap, List.mem_filter]
  constructor
  · intro mem
    obtain ⟨⟨content, present⟩, reached⟩ := (mem_filesBelow_iff named).1 mem
    obtain ⟨names, rfl, nonempty, directories⟩ := names_of_reaches here (by simp [present]) reached
    obtain ⟨name, names, rfl⟩ := List.exists_cons_of_ne_nil nonempty
    obtain ⟨listable, visited, inside⟩ := (mem_filesBelow_cons named).1 mem
    refine ⟨name, ⟨mem_listing.2 ⟨(canList_iff.1 listable).2, ?_⟩, visited⟩, inside⟩
    cases vacant : t.entry? (base ++ [name]) with
    | some e => rfl
    | none => simp [filesFrom, vacant] at inside
  · rintro ⟨name, ⟨listed, visited⟩, inside⟩
    obtain ⟨names, rfl⟩ := exists_of_mem_filesFrom named inside
    rw [List.append_assoc, List.singleton_append] at inside ⊢
    have listable : canList t base = true := canList_iff.2 ⟨here, (mem_listing.1 listed).1⟩
    exact (mem_filesBelow_cons named).2 ⟨listable, visited, inside⟩

end Walk

end JavaMigration
