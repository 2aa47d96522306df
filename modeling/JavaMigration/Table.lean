/-!
# Tables

Finite tables in the order of their keys, with each key at most once. Every change keeps the order.
-/

namespace JavaMigration

/-- A table, as the list of its rows. -/
abbrev Table (κ α : Type) := List (κ × α)

namespace Table

variable {κ α : Type}

/-- The rows are in the order of their keys, and no key occurs twice. -/
def Ascending [LT κ] (t : Table κ α) : Prop :=
  t.Pairwise fun a b => a.1 < b.1

variable [DecidableEq κ]

def get? (key : κ) (t : Table κ α) : Option α :=
  (t.find? fun row => row.1 = key).map (·.2)

variable [LT κ] [DecidableLT κ]

/-- Sets the value of a key to `f` of its old value. -/
def update (key : κ) (f : Option α → α) : Table κ α → Table κ α
  | [] => [(key, f none)]
  | (k, a) :: rest =>
    if key < k then (key, f none) :: (k, a) :: rest
    else if key = k then (k, f (some a)) :: rest
    else (k, a) :: update key f rest

def insert (key : κ) (a : α) (t : Table κ α) : Table κ α :=
  t.update key fun _ => a

theorem mem_update {key : κ} {f : Option α → α} {t : Table κ α} {row : κ × α}
    (h : row ∈ t.update key f) : row.1 = key ∨ row ∈ t := by
  induction t with
  | nil => simp only [update, List.mem_singleton] at h; simp [h]
  | cons first rest ih =>
    obtain ⟨k, a⟩ := first
    simp only [update] at h
    split at h
    · simp only [List.mem_cons] at h ⊢
      rcases h with rfl | h
      · exact .inl rfl
      · exact .inr h
    · split at h
      · rename_i hk
        simp only [List.mem_cons] at h ⊢
        rcases h with rfl | h
        · exact .inl hk.symm
        · exact .inr (.inr h)
      · simp only [List.mem_cons] at h ⊢
        rcases h with rfl | h
        · exact .inr (.inl rfl)
        · exact (ih h).imp_right .inr

theorem ascending_update [Std.Trichotomous fun a b : κ => a < b]
    (trans : ∀ {a b c : κ}, a < b → b < c → a < c) (key : κ) (f : Option α → α) {t : Table κ α}
    (h : t.Ascending) : (t.update key f).Ascending := by
  induction t with
  | nil => exact List.pairwise_singleton _ _
  | cons first rest ih =>
    obtain ⟨k, a⟩ := first
    obtain ⟨hk, hrest⟩ := List.pairwise_cons.1 h
    simp only [update]
    split
    · rename_i lt
      refine List.pairwise_cons.2 ⟨fun row hrow => ?_, h⟩
      rcases List.mem_cons.1 hrow with rfl | hrow
      · exact lt
      · exact trans lt (hk row hrow)
    · rename_i notLt
      split
      · exact List.pairwise_cons.2 ⟨hk, hrest⟩
      · rename_i ne
        refine List.pairwise_cons.2 ⟨fun row hrow => ?_, ih hrest⟩
        rcases mem_update hrow with hkey | hrow
        · rw [hkey]
          exact Classical.byContradiction fun notGt =>
            ne (Std.Trichotomous.trichotomous (r := fun a b : κ => a < b) key k notLt notGt)
        · exact hk row hrow

end Table

abbrev ByName (α : Type) := Table String α

namespace ByName

/-- Adds to the count of a name, which is zero before. -/
def count (name : String) (n : Nat) (t : ByName Nat) : ByName Nat :=
  t.update name fun old => old.getD 0 + n

def total (t : ByName Nat) : Nat :=
  t.foldr (fun row n => row.2 + n) 0

end ByName

/-- Puts a string into its place in an ascending list, unless it is there already. -/
def insertAscending (s : String) : List String → List String
  | [] => [s]
  | t :: rest =>
    if s < t then s :: t :: rest else if s = t then t :: rest else t :: insertAscending s rest

end JavaMigration
