import JavaMigration.Proofs.Toml.Arrangement

/-!
# Fields read back

The fields of a record are found by their keys, so that the order in which a table is read back does
not matter to them. A list is written as an array of tables or, when empty, as a plain array.
-/

namespace JavaMigration.Toml

variable {key : String} {entries : List (String × Value)} {v : Value} {depth : Nat}

theorem lookup_partition (distinct : (entries.map Prod.fst).Nodup) (key : String) :
    (plainEntries entries ++ sectionEntries entries).lookup key = entries.lookup key := by
  induction entries with
  | nil => rfl
  | cons e entries ih =>
    obtain ⟨own, v⟩ := e
    obtain ⟨noOther, distinct⟩ := List.nodup_cons.1 distinct
    have rest := ih distinct
    rw [List.lookup_append] at rest ⊢
    cases shown : isSection v with
    | false =>
      have front : plainEntries ((own, v) :: entries) = (own, v) :: plainEntries entries := by
        simp [plainEntries, shown]
      have back : sectionEntries ((own, v) :: entries) = sectionEntries entries := by
        simp [sectionEntries, shown]
      rw [front, back, lookup_cons, lookup_cons]
      split
      · rfl
      · exact rest
    | true =>
      have front : plainEntries ((own, v) :: entries) = plainEntries entries := by
        simp [plainEntries, shown]
      have back : sectionEntries ((own, v) :: entries) = (own, v) :: sectionEntries entries := by
        simp [sectionEntries, shown]
      rw [front, back, lookup_cons, lookup_cons]
      split
      · next same =>
        have absent : key ∉ (plainEntries entries).map Prod.fst := fun mem =>
          noOther (same ▸ (List.filter_sublist.map Prod.fst).subset mem)
        rw [lookup_eq_none absent, Option.none_or]
      · exact rest

theorem lookup_arrangedEntries (entries : List (String × Value)) (key : String) :
    (arrangedEntries entries).lookup key = (entries.lookup key).map arranged := by
  induction entries with
  | nil => rfl
  | cons e entries ih =>
    obtain ⟨own, v⟩ := e
    rw [arrangedEntries, lookup_cons, lookup_cons, ih]
    split <;> rfl

theorem field?_arranged (distinct : (entries.map Prod.fst).Nodup) (position : Nat) (key : String) :
    (arranged (.table entries)).field? position key = some ((entries.lookup key).map arranged) := by
  have same : (arrangedEntries entries).map Prod.fst = entries.map Prod.fst := by
    rw [arrangedEntries_eq, List.map_map]
    rfl
  rw [arranged, Value.field?, lookup_partition (same ▸ distinct), lookup_arrangedEntries]

theorem isSection_of_isPlain (plain : v.IsPlain depth) : isSection v = false := by
  cases plain with
  | @array depth items plain =>
    cases items with
    | nil => rfl
    | cons v items =>
      have first := plain v (.head _)
      have noTable : isTable v = false := by cases first <;> rfl
      simp [isSection, noTable]
  | _ => rfl

theorem isSection_of_isStorable (storable : v.IsStorable depth) : isSection v = true := by
  cases storable with
  | table => rfl
  | @array _ items nonempty tables each => simpa [isSection, nonempty] using tables

def Value.IsEntry (depth : Nat) (v : Value) : Prop :=
  v.IsPlain nestingLimit ∨ v.IsStorable depth

def AreKeys (keys : List String) : Prop :=
  keys.Nodup ∧ ∀ key ∈ keys, IsBare key

instance (keys : List String) : Decidable (AreKeys keys) :=
  inferInstanceAs (Decidable (keys.Nodup ∧ ∀ key ∈ keys, IsBare key))

theorem isStorable_table {keys : List String} (named : (entries.map Prod.fst).Sublist keys)
    (proper : AreKeys keys) (each : ∀ e ∈ entries, e.2.IsEntry depth) :
    (Value.table entries).IsStorable (depth + 1) := by
  have bare : ∀ e ∈ entries, IsBare e.1 := fun e mem =>
    proper.2 e.1 (named.subset (List.mem_map_of_mem mem))
  refine .table (proper.1.sublist named) bare ?_ ?_
  · intro e mem noSection
    refine (each e mem).resolve_right fun storable => ?_
    rw [isSection_of_isStorable storable] at noSection
    cases noSection
  · intro e mem shown
    refine (each e mem).resolve_left fun plain => ?_
    rw [isSection_of_isPlain plain] at shown
    cases shown

theorem isEntry_string (s : String) : (Value.string s).IsEntry depth :=
  .inl (.string s)

theorem isEntry_boolean (b : Bool) : (Value.boolean b).IsEntry depth :=
  .inl (.boolean b)

theorem isEntry_strings (items : List String) : (Value.strings items).IsEntry depth := by
  refine .inl (.array ?_)
  exact List.forall_mem_map.2 fun s _ => .string s

theorem isEntry_natural {n : Nat} (small : n < Number.twoTo 63) :
    (Value.integer n).IsEntry depth := by
  have limit : Number.twoTo 63 = 9223372036854775808 := rfl
  refine .inl (.integer ?_ ?_)
  · omega
  · omega

theorem isEntry_optional {α : Type} {write : α → Value} {x? : Option α}
    (each : ∀ x ∈ x?, (write x).IsEntry depth) : ∀ v ∈ x?.map write, v.IsEntry depth := by
  intro v mem
  obtain ⟨x, holds, rfl⟩ := Option.map_eq_some_iff.1 mem
  exact each x holds

/-- A record that is stored as the table `v`, at most `depth` headers deep, and read back. -/
structure IsStored {α : Type} (depth : Nat) (v : Value) (read : Value → Option α) (x : α) :
    Prop where
  table : isTable v = true
  storable : v.IsStorable depth
  decoded : read (arranged v) = some x

theorem IsStored.entry {α : Type} {read : Value → Option α} {x : α}
    (stored : IsStored depth v read x) : v.IsEntry depth :=
  .inr stored.storable

theorem toListOf?_strings (items : List String) :
    Value.toListOf? Value.toString? (arranged (.strings items)) = some items := by
  have each : ∀ s, Value.toString? ((arranged ∘ Value.string) s) = some s := fun _ => rfl
  rw [Value.strings, arranged_array, List.map_map]
  exact mapM_map_eq_some fun s _ => each s

theorem orElse?_present {α : Type} {entries : List (String × Option Value)} {write : α → Value}
    {read : Value → Option α} {x? : Option α} (distinct : (entries.map Prod.fst).Nodup)
    (position : Nat) (found : entries.lookup key = some (x?.map write))
    (each : ∀ x ∈ x?, read (arranged (write x)) = some x) :
    (arranged (.table (present entries))).orElse? position key none
      (fun v => (read v).map some) = some x? := by
  have distinct' := distinct.sublist (present_keys entries)
  rw [Value.orElse?, field?_arranged distinct', lookup_present distinct, found]
  cases x? with
  | none => rfl
  | some x =>
    have own := each x rfl
    simp [own]

section

variable {α : Type} {write : α → Value} {read : Value → Option α}
  (stored : ∀ x, IsStored depth (write x) read x)
include stored

theorem isEntry_list (xs : List α) : (Value.array (xs.map write)).IsEntry depth := by
  cases xs with
  | nil => exact .inl (.array nofun)
  | cons x xs =>
    refine .inr (.array (by simp) ?_ ?_)
    · exact List.forall_mem_map.2 fun x _ => (stored x).table
    · exact List.forall_mem_map.2 fun x _ => (stored x).storable

theorem toListOf?_list (xs : List α) :
    Value.toListOf? read (arranged (.array (xs.map write))) = some xs := by
  rw [arranged_array, List.map_map]
  exact mapM_map_eq_some fun x _ => (stored x).decoded

end

end JavaMigration.Toml
