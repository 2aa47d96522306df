import Mathlib.Data.List.Basic

/-!
# Entries by key

What the fields of a record come to as entries, where some are absent, and what is found there under
a key.
-/

namespace JavaMigration

variable {α β : Type} {key : String}

theorem lookup_cons (key other : String) (value : α) (entries : List (String × α)) :
    List.lookup other ((key, value) :: entries) =
      if other = key then some value else entries.lookup other := by
  by_cases same : other = key
  · simp [same]
  · simp [List.lookup_cons, beq_false_of_ne same, same]

theorem lookup_eq_none {entries : List (String × α)} (absent : key ∉ entries.map Prod.fst) :
    entries.lookup key = none := by
  refine List.lookup_eq_none_iff.2 fun e mem => ?_
  have other : key ≠ e.1 := fun same => absent (same ▸ List.mem_map_of_mem mem)
  simpa using other

def present (entries : List (String × Option α)) : List (String × α) :=
  entries.filterMap fun (key, value) => value.map (key, ·)

theorem present_keys (entries : List (String × Option α)) :
    ((present entries).map Prod.fst).Sublist (entries.map Prod.fst) := by
  induction entries with
  | nil => exact .slnil
  | cons e entries ih =>
    obtain ⟨key, value⟩ := e
    cases value with
    | none => exact ih.cons key
    | some v => exact ih.cons_cons key

theorem forall_present {entries : List (String × Option α)} {P : α → Prop}
    (each : ∀ e ∈ entries, ∀ v ∈ e.2, P v) : ∀ e ∈ present entries, P e.2 := by
  intro e mem
  obtain ⟨⟨key, value⟩, listed, made⟩ := List.mem_filterMap.1 mem
  obtain ⟨v, holds, rfl⟩ := Option.map_eq_some_iff.1 made
  exact each (key, value) listed v holds

theorem lookup_present {entries : List (String × Option α)}
    (distinct : (entries.map Prod.fst).Nodup) (key : String) :
    (present entries).lookup key = (entries.lookup key).join := by
  induction entries with
  | nil => rfl
  | cons e entries ih =>
    obtain ⟨own, value⟩ := e
    obtain ⟨noOther, distinct⟩ := List.nodup_cons.1 distinct
    have rest := ih distinct
    rw [lookup_cons]
    cases value with
    | some v =>
      have step : present ((own, some v) :: entries) = (own, v) :: present entries := rfl
      rw [step, lookup_cons]
      split
      · rfl
      · exact rest
    | none =>
      have step : present ((own, none) :: entries) = present entries := rfl
      rw [step, rest]
      split
      · next same => rw [lookup_eq_none (same ▸ noOther)]; rfl
      · rfl

/-- Items that are written one by one are read back one by one. -/
theorem mapM_map_eq_some {read : β → Option α} {write : α → β} {xs : List α}
    (each : ∀ x ∈ xs, read (write x) = some x) : (xs.map write).mapM read = some xs := by
  induction xs with
  | nil => rfl
  | cons x xs ih =>
    obtain ⟨own, each⟩ := List.forall_mem_cons.1 each
    rw [List.map_cons, List.mapM_cons, own, ih each]
    rfl

theorem length_of_mapM {f : α → Option β} {xs : List α} {ys : List β}
    (h : xs.mapM f = some ys) : ys.length = xs.length := by
  induction xs generalizing ys with
  | nil =>
    cases h
    rfl
  | cons x xs ih =>
    rw [List.mapM_cons] at h
    obtain ⟨y, -, h⟩ := Option.bind_eq_some_iff.1 h
    obtain ⟨rest, found, h⟩ := Option.bind_eq_some_iff.1 h
    cases h
    rw [List.length_cons, List.length_cons, ih found]

end JavaMigration
