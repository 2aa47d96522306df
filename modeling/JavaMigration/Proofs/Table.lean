import JavaMigration.Table
import Mathlib.Data.List.Sort
import Mathlib.Data.String.Basic

/-!
# What tables hold

A table in order is given by what its keys stand for. What rows are collected into one, key by key,
is at each key what the rows of that key come to. The strings of a list are put into ascending order
in the same way, each of them once.
-/

namespace JavaMigration

namespace Table

variable {κ α β : Type}

theorem ascending_map [LT κ] (f : κ → α → β) {t : Table κ α} (h : t.Ascending) :
    Ascending (t.map fun row => (row.1, f row.1 row.2)) :=
  List.pairwise_map.2 h

variable [DecidableEq κ]

theorem get?_cons (key k : κ) (a : α) (rest : Table κ α) :
    get? key ((k, a) :: rest) = if k = key then some a else get? key rest := by
  by_cases same : k = key
  · simp [get?, same]
  · simp [get?, same]

theorem get?_map (f : κ → α → β) (key : κ) (t : Table κ α) :
    get? key (t.map fun row => (row.1, f row.1 row.2)) = (t.get? key).map (f key) := by
  induction t with
  | nil => rfl
  | cons row rest ih =>
    rw [List.map_cons, get?_cons, get?_cons, ih]
    by_cases here : row.1 = key
    · simp [here]
    · simp [here]

theorem mem_of_get? {key : κ} {a : α} {t : Table κ α} (h : t.get? key = some a) :
    (key, a) ∈ t := by
  unfold get? at h
  obtain ⟨row, found, rfl⟩ := Option.map_eq_some_iff.1 h
  have same : row.1 = key := by simpa using List.find?_some found
  rw [← same]
  exact List.mem_of_find?_eq_some found

section Order

variable [LT κ]

theorem get?_of_mem (asymm : ∀ {a b : κ}, a < b → ¬ b < a) {key : κ} {a : α} {t : Table κ α}
    (ascending : t.Ascending) (mem : (key, a) ∈ t) : t.get? key = some a := by
  induction t with
  | nil => cases mem
  | cons first rest ih =>
    obtain ⟨above, ascending⟩ := List.pairwise_cons.1 ascending
    rw [get?_cons]
    rcases List.mem_cons.1 mem with rfl | mem
    · exact if_pos rfl
    · have less := above _ mem
      rw [if_neg, ih ascending mem]
      intro same
      rw [same] at less
      exact asymm less less

theorem get?_of_below (asymm : ∀ {a b : κ}, a < b → ¬ b < a) {key : κ} {t : Table κ α}
    (below : ∀ row ∈ t, key < row.1) : t.get? key = none := by
  cases found : t.get? key with
  | none => rfl
  | some a =>
    have less := below _ (mem_of_get? found)
    exact absurd less (asymm less)

/-- A table is given by what its keys stand for. -/
theorem eq_of_get? (asymm : ∀ {a b : κ}, a < b → ¬ b < a) {t u : Table κ α}
    (ht : t.Ascending) (hu : u.Ascending) (same : ∀ key, t.get? key = u.get? key) : t = u := by
  have : Std.Antisymm fun a b : κ × α => a.1 < b.1 := ⟨fun _ _ h h' => absurd h' (asymm h)⟩
  have : Std.Irrefl fun a b : κ × α => a.1 < b.1 := ⟨fun _ h => asymm h h⟩
  apply List.Pairwise.eq_of_mem_iff ht hu
  rintro ⟨key, a⟩
  constructor
  · intro mem
    apply mem_of_get?
    rw [← same]
    exact get?_of_mem asymm ht mem
  · intro mem
    apply mem_of_get?
    rw [same]
    exact get?_of_mem asymm hu mem

end Order

variable [LT κ] [DecidableLT κ]

@[simp]
theorem get?_insert (key key' : κ) (a : α) (t : Table κ α) :
    (t.insert key a).get? key' = if key = key' then some a else t.get? key' := by
  unfold insert
  induction t with
  | nil =>
    simp only [update, get?_cons]
  | cons first rest ih =>
    obtain ⟨k, b⟩ := first
    rw [update]
    split
    · rw [get?_cons]
    · split
      · rename_i same
        subst same
        by_cases here : key = key'
        · simp [get?_cons, here]
        · simp [get?_cons, here]
      · rename_i other
        rw [get?_cons, ih, get?_cons]
        by_cases here : k = key'
        · rw [here] at other
          simp [here, other]
        · simp [here]

theorem filterMap_insert (asymm : ∀ {a b : κ}, a < b → ¬ b < a) {key : κ} (old new : α)
    {f : κ × α → Option β} (same : f (key, new) = f (key, old)) {t : Table κ α}
    (ascending : t.Ascending) (h : t.get? key = some old) :
    (t.insert key new).filterMap f = t.filterMap f := by
  unfold insert
  induction t with
  | nil => cases h
  | cons first rest ih =>
    obtain ⟨k, a⟩ := first
    obtain ⟨above, ascending⟩ := List.pairwise_cons.1 ascending
    rw [get?_cons] at h
    by_cases here : k = key
    · subst here
      simp only [↓reduceIte, Option.some.injEq] at h
      subst h
      have irrefl : ¬ k < k := fun less => asymm less less
      simp only [update, irrefl, ↓reduceIte, List.filterMap_cons, same]
    · rw [if_neg here] at h
      have later : ¬ key < k := asymm (above _ (mem_of_get? h))
      simp only [update, later, Ne.symm here, ↓reduceIte, List.filterMap_cons, ih ascending h]

/-- A new row that is left out changes nothing of what is collected. -/
theorem filterMap_insert_of_none {key : κ} {a : α} {f : κ × α → Option β}
    (none : f (key, a) = none) {t : Table κ α} (new : t.get? key = .none) :
    (t.insert key a).filterMap f = t.filterMap f := by
  unfold insert
  induction t with
  | nil => simp [update, none]
  | cons first rest ih =>
    obtain ⟨k, b⟩ := first
    rw [get?_cons] at new
    split at new
    · cases new
    · rename_i other
      rw [update]
      split
      · simp [none]
      · rw [if_neg (Ne.symm other), List.filterMap_cons, List.filterMap_cons, ih new]

theorem get?_update (asymm : ∀ {a b : κ}, a < b → ¬ b < a)
    (trans : ∀ {a b c : κ}, a < b → b < c → a < c) {t : Table κ α} (ascending : t.Ascending)
    (key key' : κ) (f : Option α → α) :
    (t.update key f).get? key' = if key = key' then some (f (t.get? key)) else t.get? key' := by
  induction t with
  | nil => simp only [update, get?_cons]; rfl
  | cons first rest ih =>
    obtain ⟨k, a⟩ := first
    obtain ⟨above, ascending⟩ := List.pairwise_cons.1 ascending
    rw [update]
    split
    · rename_i less
      have new : get? key ((k, a) :: rest) = none := by
        apply get?_of_below asymm
        intro row mem
        rcases List.mem_cons.1 mem with rfl | mem
        · exact less
        · exact trans less (above row mem)
      rw [get?_cons, new]
    · split
      · rename_i same
        subst same
        simp only [get?_cons, ↓reduceIte]
        split <;> rfl
      · rename_i other
        rw [get?_cons, ih ascending, get?_cons, get?_cons, if_neg (Ne.symm other)]
        by_cases here : k = key'
        · rw [here] at other
          simp [here, other]
        · simp [here]

section Fold

variable [Std.Trichotomous fun a b : κ => a < b]

theorem ascending_foldl_update (trans : ∀ {a b c : κ}, a < b → b < c → a < c)
    (key : β → κ) (f : β → Option α → α) (rows : List β) {t : Table κ α} (h : t.Ascending) :
    (rows.foldl (fun t row => t.update (key row) (f row)) t).Ascending := by
  induction rows generalizing t with
  | nil => exact h
  | cons row rows ih => exact ih (ascending_update trans (key row) (f row) h)

/-- A key stands for what the rows of that key come to, one after the other. -/
theorem get?_foldl_update (asymm : ∀ {a b : κ}, a < b → ¬ b < a)
    (trans : ∀ {a b c : κ}, a < b → b < c → a < c) (key : β → κ) (f : β → Option α → α)
    (rows : List β) {t : Table κ α} (h : t.Ascending) (k : κ) :
    (rows.foldl (fun t row => t.update (key row) (f row)) t).get? k =
      (rows.filter (key · = k)).foldl (fun old row => some (f row old)) (t.get? k) := by
  induction rows generalizing t with
  | nil => rfl
  | cons row rows ih =>
    rw [List.foldl_cons, ih (ascending_update trans (key row) (f row) h),
      get?_update asymm trans h, List.filter_cons]
    by_cases here : key row = k
    · simp [here]
    · simp [here]

end Fold

end Table

/-- What is collected from a start is there once there is anything to collect. -/
theorem foldl_getD {α β : Type} (g : α → β → α) (start : α) (rows : List β) :
    rows.foldl (fun old row => some (g (old.getD start) row)) none =
      if rows = [] then none else some (rows.foldl g start) := by
  have later : ∀ (rows : List β) (a : α),
      rows.foldl (fun old row => some (g (old.getD start) row)) (some a) =
        some (rows.foldl g a) := by
    intro rows
    induction rows with
    | nil => exact fun _ => rfl
    | cons row rows ih => exact fun a => ih (g a row)
  cases rows with
  | nil => rfl
  | cons row rows => exact later rows (g start row)

theorem mem_insertAscending {s s' : String} {items : List String} :
    s ∈ insertAscending s' items ↔ s = s' ∨ s ∈ items := by
  induction items with
  | nil => simp [insertAscending]
  | cons first rest ih =>
    rw [insertAscending]
    split
    · simp
    · split
      · rename_i same
        simp [same]
      · simp only [List.mem_cons, ih]
        tauto

theorem pairwise_insertAscending (s : String) {items : List String}
    (h : items.Pairwise (· < ·)) : (insertAscending s items).Pairwise (· < ·) := by
  induction items with
  | nil => exact List.pairwise_singleton _ _
  | cons first rest ih =>
    obtain ⟨above, ascending⟩ := List.pairwise_cons.1 h
    rw [insertAscending]
    split
    · rename_i less
      refine List.pairwise_cons.2 ⟨?_, h⟩
      intro s' mem
      rcases List.mem_cons.1 mem with rfl | mem
      · exact less
      · exact String.lt_trans less (above s' mem)
    · split
      · exact h
      · rename_i notLess other
        refine List.pairwise_cons.2 ⟨?_, ih ascending⟩
        intro s' mem
        rcases mem_insertAscending.1 mem with rfl | mem
        · exact lt_of_le_of_ne (not_lt.1 notLess) (Ne.symm other)
        · exact above s' mem

/-- The strings that satisfy `P`, in ascending order and each of them once. -/
structure Lists (P : String → Prop) (items : List String) : Prop where
  ascending : items.Pairwise (· < ·)
  mem_iff : ∀ s, s ∈ items ↔ P s

namespace Lists

variable {P Q : String → Prop} {items items' : List String}

theorem congr (h : Lists P items) (same : ∀ s, P s ↔ Q s) : Lists Q items :=
  ⟨h.ascending, fun s => (h.mem_iff s).trans (same s)⟩

theorem unique (h : Lists P items) (h' : Lists Q items') (same : ∀ s, P s ↔ Q s) :
    items = items' := by
  apply List.Pairwise.eq_of_mem_iff h.ascending h'.ascending
  intro s
  rw [(h.congr same).mem_iff, h'.mem_iff]

theorem nodup (h : Lists P items) : items.Nodup :=
  h.ascending.imp fun less => ne_of_lt less

theorem length_le (h : Lists P items) (mem : ∀ s, s ∈ items' ↔ P s) :
    items.length ≤ items'.length := by
  apply List.Subperm.length_le
  exact List.subperm_of_subset h.nodup fun s listed => (mem s).2 ((h.mem_iff s).1 listed)

/-- Any other list of the same strings is longer, if it has repetitions. -/
theorem length_eq_iff (h : Lists P items) (mem : ∀ s, s ∈ items' ↔ P s) :
    items.length = items'.length ↔ items'.Nodup := by
  have within : items.Subperm items' :=
    List.subperm_of_subset h.nodup fun s listed => (mem s).2 ((h.mem_iff s).1 listed)
  constructor
  · intro same
    exact (within.perm_of_length_le same.ge).nodup_iff.1 h.nodup
  · intro nodup
    apply List.Perm.length_eq
    rw [List.perm_ext_iff_of_nodup h.nodup nodup]
    intro s
    rw [h.mem_iff, mem]

theorem foldl_insertAscending {α : Type} (f : α → String) (rows : List α) :
    Lists (fun s => ∃ row ∈ rows, f row = s)
      (rows.foldl (fun items row => insertAscending (f row) items) []) := by
  have collected : ∀ (rows : List α) (items : List String), items.Pairwise (· < ·) →
      Lists (fun s => s ∈ items ∨ ∃ row ∈ rows, f row = s)
        (rows.foldl (fun items row => insertAscending (f row) items) items) := by
    intro rows
    induction rows with
    | nil => exact fun items ascending => ⟨ascending, fun s => by simp⟩
    | cons row rows ih =>
      intro items ascending
      obtain ⟨ordered, mem_iff⟩ := ih _ (pairwise_insertAscending (f row) ascending)
      refine ⟨ordered, fun s => ?_⟩
      rw [List.foldl_cons, mem_iff, mem_insertAscending]
      simp only [List.mem_cons, exists_eq_or_imp, @eq_comm _ (f row)]
      tauto
  simpa using collected rows [] List.Pairwise.nil

end Lists

end JavaMigration
