import JavaMigration.Json.Table
import JavaMigration.Proofs.Entries
import JavaMigration.Proofs.Table
import JavaMigration.Warning

/-!
# Parts of records read back

The fields of an object are found by their keys, and those that are left out are found absent. A
table in order, and a list of strings in order, are put together again as they were, since whatever
is read next comes behind all that has been read.
-/

namespace JavaMigration

theorem Table.insert_of_above {κ α : Type} [DecidableEq κ] [LT κ] [DecidableLT κ]
    (asymm : ∀ {a b : κ}, a < b → ¬ b < a) {key : κ} {a : α} {t : Table κ α}
    (above : ∀ row ∈ t, row.1 < key) : t.insert key a = t ++ [(key, a)] := by
  unfold insert
  induction t with
  | nil => rfl
  | cons first rest ih =>
    obtain ⟨k, b⟩ := first
    have less : k < key := above (k, b) List.mem_cons_self
    have other : key ≠ k := by
      rintro rfl
      exact asymm less less
    rw [update, if_neg (asymm less), if_neg other,
      ih fun row mem => above row (List.mem_cons_of_mem _ mem), List.cons_append]

/-- The strings of an ascending list are put into the places where they stand. -/
theorem foldl_insertAscending_of_pairwise {items : List String} (ascending : items.Pairwise (· < ·)) :
    items.foldl (fun placed s => insertAscending s placed) [] = items := by
  have listed : Lists (fun s => s ∈ items) items := ⟨ascending, fun _ => Iff.rfl⟩
  apply (Lists.foldl_insertAscending id items).unique listed
  simp

namespace ByName

open Json (Value)

variable {α : Type} {read : Value → Option α} {write : α → Value}

theorem foldlM_encode {rows done : ByName α} (ascending : (done ++ rows).Ascending)
    (each : ∀ row ∈ rows, read (write row.2) = some row.2) :
    (rows.map fun (name, a) => (name, write a)).foldlM
      (fun t (name, value) => (read value).map fun a => t.insert name a) done =
        some (done ++ rows) := by
  induction rows generalizing done with
  | nil => simp
  | cons row rows ih =>
    obtain ⟨name, a⟩ := row
    have own : read (write a) = some a := each (name, a) List.mem_cons_self
    have above : ∀ row ∈ done, row.1 < name := fun row mem =>
      (List.pairwise_append.1 ascending).2.2 row mem (name, a) List.mem_cons_self
    have next : done ++ (name, a) :: rows = done ++ [(name, a)] ++ rows := by simp
    rw [next] at ascending ⊢
    simp only [List.map_cons, List.foldlM_cons, own, Option.map_some,
      Table.insert_of_above String.lt_asymm above]
    exact ih ascending fun row mem => each row (List.mem_cons_of_mem _ mem)

/-- A table in order is read back. -/
theorem decode?_encode {t : ByName α} (ascending : t.Ascending)
    (each : ∀ row ∈ t, read (write row.2) = some row.2) : decode? read (t.encode write) = some t :=
  foldlM_encode ascending each

end ByName

namespace Json.Value

variable {α : Type} {key : String}

theorem field?_object {fields : List (String × Value)} (distinct : (fields.map Prod.fst).Nodup)
    (key : String) : (object fields).field? key = fields.lookup key := by
  rw [field?]
  induction fields with
  | nil => rfl
  | cons f fields ih =>
    obtain ⟨own, v⟩ := f
    obtain ⟨noOther, distinct⟩ := List.nodup_cons.1 distinct
    rw [List.reverse_cons, List.find?_append, Option.map_or, ih distinct, lookup_cons]
    split
    · next same =>
      rw [lookup_eq_none (same ▸ noOther)]
      simp [same]
    · next other => simp [Ne.symm other]

theorem field?_ofFields {fields : List (String × Option Value)}
    (distinct : (fields.map Prod.fst).Nodup) (key : String) :
    (ofFields fields).field? key = (fields.lookup key).join := by
  rw [← lookup_present distinct]
  exact field?_object (distinct.sublist (present_keys fields)) key

theorem optional?_ofFields {fields : List (String × Option Value)} {s? : Option String}
    (distinct : (fields.map Prod.fst).Nodup) (found : fields.lookup key = some (s?.map .string)) :
    (ofFields fields).optional? key toString? = some s? := by
  rw [optional?, field?_ofFields distinct, found]
  cases s? with
  | none => rfl
  | some s => rfl

theorem toNat?_nat (n : Nat) : (nat n).toNat? = some n :=
  rfl

theorem toListOf?_array {read : Value → Option α} {write : α → Value}
    (each : ∀ x, read (write x) = some x) (xs : List α) :
    toListOf? read (.array (xs.map write)) = some xs :=
  mapM_map_eq_some fun x _ => each x

theorem toListOf?_strings (items : List String) :
    toListOf? toString? (strings items) = some items := by
  have each : ∀ s, toString? (string s) = some s := fun _ => rfl
  exact toListOf?_array each items

/-- A number is read back if it is finite, and refused otherwise. -/
theorem toBinary64?_real (x : Number.Binary64) :
    (real x).toBinary64? = if x.isFinite then some x else none := by
  unfold real
  split
  · rfl
  · rfl

end Json.Value

namespace Warning

open Json (Value)

theorem decode?_encode (w : Warning) : decode? w.encode = some w := by
  simp [decode?, encode, Value.required?, Value.field?_object, lookup_cons, Value.toString?]

theorem decodeField?_ofFields {fields : List (String × Option Value)} {ws : List Warning}
    (distinct : (fields.map Prod.fst).Nodup)
    (found : fields.lookup "warnings" = some (field ws).2) :
    decodeField? (.ofFields fields) = some ws := by
  rw [decodeField?, Value.orElse?, Value.field?_ofFields distinct, found]
  cases ws with
  | nil => rfl
  | cons w ws => exact Value.toListOf?_array decode?_encode (w :: ws)

end Warning

end JavaMigration
