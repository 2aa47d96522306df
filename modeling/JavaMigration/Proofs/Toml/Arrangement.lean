import Mathlib.Data.List.Nodup
import JavaMigration.Proofs.Toml.Construction

/-!
# Documents read back

The text of a table is read back as the same table, but for the order of the entries: those that are
tables or arrays of tables come after the plain ones, at every level.
-/

namespace JavaMigration.Toml

variable {key : String} {entries : List (String × Value)} {items : List Value}

def sectionEntries (entries : List (String × Value)) : List (String × Value) :=
  entries.filter fun e => isSection e.2

mutual

/-- The value in which each table has its plain entries in front of the others. -/
def arranged : Value → Value
  | .table entries =>
    .table (plainEntries (arrangedEntries entries) ++ sectionEntries (arrangedEntries entries))
  | .array items => .array (arrangedItems items)
  | v => v

def arrangedEntries : List (String × Value) → List (String × Value)
  | [] => []
  | (key, v) :: rest => (key, arranged v) :: arrangedEntries rest

def arrangedItems : List Value → List Value
  | [] => []
  | v :: rest => arranged v :: arrangedItems rest

end

@[simp] theorem arranged_string (s : String) : arranged (.string s) = .string s := rfl

@[simp] theorem arranged_boolean (b : Bool) : arranged (.boolean b) = .boolean b := rfl

theorem arrangedEntries_eq (entries : List (String × Value)) :
    arrangedEntries entries = entries.map fun e => (e.1, arranged e.2) := by
  induction entries with
  | nil => rfl
  | cons e entries ih => rw [arrangedEntries, ih, List.map_cons]

theorem arrangedItems_eq (items : List Value) : arrangedItems items = items.map arranged := by
  induction items with
  | nil => rfl
  | cons v items ih => rw [arrangedItems, ih, List.map_cons]

theorem arranged_array (items : List Value) :
    arranged (.array items) = .array (items.map arranged) := by
  rw [arranged, arrangedItems_eq]

theorem isTable_arranged (v : Value) : isTable (arranged v) = isTable v := by
  cases v <;> rfl

theorem isSection_arranged (v : Value) : isSection (arranged v) = isSection v := by
  cases v with
  | array items =>
    have tables : (isTable ∘ arranged) = isTable := funext isTable_arranged
    simp [arranged_array, isSection, List.all_map, tables]
  | _ => rfl

theorem arranged_of_isPlain {depth : Nat} {v : Value} (plain : v.IsPlain depth) :
    arranged v = v := by
  induction plain with
  | array plain ih => rw [arranged_array, List.map_congr_left ih, List.map_id']
  | _ => rfl

def arrangedSections (entries : List (String × Value)) : List (String × Value) :=
  (sectionEntries entries).map fun e => (e.1, arranged e.2)

theorem arranged_table {depth : Nat}
    (plain : ∀ e ∈ entries, isSection e.2 = false → e.2.IsPlain depth) :
    arranged (.table entries) = .table (plainEntries entries ++ arrangedSections entries) := by
  have same : (plainEntries entries).map (fun e => (e.1, arranged e.2)) = plainEntries entries := by
    have each : ∀ e ∈ plainEntries entries, (e.1, arranged e.2) = e := fun e mem => by
      obtain ⟨mem, noSection⟩ := List.mem_filter.1 mem
      rw [arranged_of_isPlain (plain e mem (by simpa using noSection))]
    rw [List.map_congr_left each, List.map_id']
  have front : plainEntries (arrangedEntries entries) = plainEntries entries := by
    rw [← same, arrangedEntries_eq, plainEntries, plainEntries, List.filter_map]
    simp only [Function.comp_def, isSection_arranged]
  have back : sectionEntries (arrangedEntries entries) = arrangedSections entries := by
    rw [arrangedSections, arrangedEntries_eq, sectionEntries, sectionEntries, List.filter_map]
    simp only [Function.comp_def, isSection_arranged]
  rw [arranged, front, back]

theorem valuesOfEntries_append (first second : List (String × Node)) :
    valuesOfEntries (first ++ second) = valuesOfEntries first ++ valuesOfEntries second := by
  induction first with
  | nil => rfl
  | cons e first ih =>
    obtain ⟨key, node⟩ := e
    simp [valuesOfEntries, ih]

theorem valuesOfEntries_leaves (entries : List (String × Value)) :
    valuesOfEntries (leaves entries) = entries := by
  induction entries with
  | nil => rfl
  | cons e entries ih =>
    have step : leaves (e :: entries) = (e.1, .leaf e.2) :: leaves entries := rfl
    rw [step, valuesOfEntries, ih, Node.toValue]

/-- A table or array of tables whose parts add it under a key that is new. -/
def Adds (v : Value) : Prop :=
  ∀ (key : String) (d : Draft), d.entries.lookup key = none →
    ∃ node, addParts (partsOf key false v) d = some (d.set key node) ∧ node.toValue = arranged v

def Appends (v : Value) : Prop :=
  ∀ (key : String) (d : Draft) (items : List (List (String × Node))), HoldsItems d key items →
    ∃ item, addParts (partsOf key true v) d = some (d.set key (.tables (items ++ [item]))) ∧
      .table (valuesOfEntries item) = arranged v

/-- Entries whose sections are added to the end of a table that has none of them. -/
def Fills (entries : List (String × Value)) : Prop :=
  ∀ d : Draft, (∀ e ∈ sectionEntries entries, d.entries.lookup e.1 = none) →
    ∃ nodes, addParts (partsOfEntries entries) d = some { d with entries := d.entries ++ nodes } ∧
      valuesOfEntries nodes = arrangedSections entries

theorem fills_of_adds (distinct : (entries.map Prod.fst).Nodup)
    (each : ∀ e ∈ entries, isSection e.2 = true → Adds e.2) : Fills entries := by
  induction entries with
  | nil => exact fun d _ => ⟨[], by simp [partsOfEntries, addParts], rfl⟩
  | cons e entries ih =>
    obtain ⟨key, v⟩ := e
    obtain ⟨noOther, distinct⟩ := List.nodup_cons.1 distinct
    have rest := ih distinct fun e mem => each e (.tail _ mem)
    intro d fresh
    cases shown : isSection v with
    | false =>
      have same : sectionEntries ((key, v) :: entries) = sectionEntries entries := by
        simp [sectionEntries, shown]
      rw [same] at fresh
      rw [partsOfEntries, shown, arrangedSections, same]
      exact rest d fresh
    | true =>
      have split : sectionEntries ((key, v) :: entries) = (key, v) :: sectionEntries entries := by
        simp [sectionEntries, shown]
      rw [split] at fresh
      have new : d.entries.lookup key = none := fresh (key, v) (.head _)
      obtain ⟨node, own, value⟩ := each (key, v) (.head _) shown key d new
      obtain ⟨nodes, others, values⟩ := rest (d.set key node) fun e mem => by
        have listed : e.1 ∈ entries.map Prod.fst :=
          List.mem_map_of_mem (List.mem_filter.1 mem).1
        have other : e.1 ≠ key := fun same => noOther (same ▸ listed)
        rw [Draft.lookup_set, if_neg other]
        exact fresh e (.tail _ mem)
      refine ⟨(key, node) :: nodes, ?_, ?_⟩
      · rw [partsOfEntries, shown, if_pos rfl, addParts_append, own, Option.bind_some, others,
          Draft.set_of_fresh new]
        simp
      · rw [valuesOfEntries, value, values, arrangedSections, arrangedSections, split,
          List.map_cons]

theorem lookup_leaves_of_section (distinct : (entries.map Prod.fst).Nodup) {e : String × Value}
    (mem : e ∈ sectionEntries entries) : (leaves (plainEntries entries)).lookup e.1 = none := by
  obtain ⟨mem, shown⟩ := List.mem_filter.1 mem
  have absent : (plainEntries entries).lookup e.1 = none := by
    refine List.lookup_eq_none_iff.2 fun f plain => ?_
    obtain ⟨mem', noSection⟩ := List.mem_filter.1 plain
    have other : e.1 ≠ f.1 := fun same => by
      rw [← List.inj_on_of_nodup_map distinct mem mem' same, shown] at noSection
      cases noSection
    simpa using other
  rw [lookup_leaves, absent, Option.map_none]

theorem fills_leaves (fills : Fills entries) (distinct : (entries.map Prod.fst).Nodup)
    {depth : Nat} (plain : ∀ e ∈ entries, isSection e.2 = false → e.2.IsPlain depth)
    (explicit dotted : Bool) :
    ∃ nodes, addParts (partsOfEntries entries)
        ⟨explicit, dotted, leaves (plainEntries entries)⟩ = some ⟨explicit, dotted, nodes⟩ ∧
      .table (valuesOfEntries nodes) = arranged (.table entries) := by
  obtain ⟨nodes, added, values⟩ := fills ⟨explicit, dotted, leaves (plainEntries entries)⟩
    fun e mem => lookup_leaves_of_section distinct mem
  refine ⟨_, added, ?_⟩
  rw [valuesOfEntries_append, valuesOfEntries_leaves, values, arranged_table plain]

theorem nodup_plainEntries (distinct : (entries.map Prod.fst).Nodup) :
    ((plainEntries entries).map Prod.fst).Nodup :=
  distinct.sublist (List.filter_sublist.map _)

theorem adds_table (fills : Fills entries) (distinct : (entries.map Prod.fst).Nodup)
    {depth : Nat} (plain : ∀ e ∈ entries, isSection e.2 = false → e.2.IsPlain depth)
    (below : isShown false entries = false → partsOfEntries entries ≠ []) :
    Adds (.table entries) := by
  intro key d fresh
  cases shown : isShown false entries with
  | true =>
    obtain ⟨nodes, added, value⟩ := fills_leaves fills distinct plain true false
    have found : (d.set key (.table true false
        (leaves (plainEntries entries)))).entries.lookup key =
          some (.table true false (leaves (plainEntries entries))) := by
      rw [Draft.lookup_set, if_pos rfl]
    refine ⟨.table true false nodes, ?_, value⟩
    rw [partsOf, shown, if_pos rfl, List.singleton_append, addParts_cons,
      define_of_fresh (nodup_plainEntries distinct) fresh, Option.bind_some,
      addParts_below_of_table found, added, Option.map_some, Draft.set_set]
  | false =>
    obtain ⟨nodes, added, value⟩ := fills_leaves fills distinct plain false false
    have none : plainEntries entries = [] := by
      simp only [isShown, Bool.false_or, Bool.or_eq_false_iff, Bool.not_eq_false'] at shown
      exact List.isEmpty_iff.1 shown.1
    rw [none] at added
    refine ⟨.table false false nodes, ?_, value⟩
    have hidden : partsOf key false (.table entries) =
        (partsOfEntries entries).map (.below [key]) := by
      rw [partsOf, shown]
      rfl
    rw [hidden, addParts_below (below shown), Draft.enter_of_fresh fresh]
    exact congrArg (Option.map _) added

theorem appends_table (fills : Fills entries) (distinct : (entries.map Prod.fst).Nodup)
    {depth : Nat} (plain : ∀ e ∈ entries, isSection e.2 = false → e.2.IsPlain depth) :
    Appends (.table entries) := by
  intro key d items held
  obtain ⟨item, added, value⟩ := fills_leaves fills distinct plain true false
  have found : (d.set key (.tables (items ++ [leaves (plainEntries entries)]))).entries.lookup key =
      some (.tables (items ++ [leaves (plainEntries entries)])) := by
    rw [Draft.lookup_set, if_pos rfl]
  refine ⟨item, ?_, value⟩
  have shown : isShown true entries = true := rfl
  rw [partsOf, shown, if_pos rfl, List.singleton_append, addParts_cons,
    append_of_items (nodup_plainEntries distinct) held, Option.bind_some,
    addParts_below_of_tables found, added, Option.map_some, Draft.set_set]

theorem appends_items (each : ∀ v ∈ items, Appends v) {d : Draft}
    {held : List (List (String × Node))} (found : d.entries.lookup key = some (.tables held)) :
    ∃ more, addParts (partsOfItems key items) d = some (d.set key (.tables (held ++ more))) ∧
      valuesOfItems more = items.map arranged := by
  induction items generalizing d held with
  | nil =>
    refine ⟨[], ?_, rfl⟩
    rw [List.append_nil, Draft.set_of_lookup found]
    rfl
  | cons v items ih =>
    obtain ⟨item, own, value⟩ := each v (.head _) key d held (.inr found)
    have kept : (d.set key (.tables (held ++ [item]))).entries.lookup key =
        some (.tables (held ++ [item])) := by rw [Draft.lookup_set, if_pos rfl]
    obtain ⟨more, others, values⟩ := ih (fun v mem => each v (.tail _ mem)) kept
    refine ⟨item :: more, ?_, ?_⟩
    · rw [partsOfItems, addParts_append, own, Option.bind_some, others, Draft.set_set,
        List.append_assoc, List.singleton_append]
    · rw [valuesOfItems, value, values, List.map_cons]

theorem adds_array (nonempty : items ≠ []) (each : ∀ v ∈ items, Appends v) :
    Adds (.array items) := by
  intro key d fresh
  obtain ⟨v, items, rfl⟩ := List.exists_cons_of_ne_nil nonempty
  obtain ⟨item, own, value⟩ := each v (.head _) key d [] (.inl ⟨fresh, rfl⟩)
  have kept : (d.set key (.tables [item])).entries.lookup key = some (.tables [item]) := by
    rw [Draft.lookup_set, if_pos rfl]
  obtain ⟨more, others, values⟩ := appends_items (fun v mem => each v (.tail _ mem)) kept
  refine ⟨.tables (item :: more), ?_, ?_⟩
  · rw [partsOf, partsOfItems, addParts_append, own, Option.bind_some]
    rw [List.nil_append, others, Draft.set_set, List.singleton_append]
  · rw [Node.toValue, valuesOfItems, value, values, arranged_array, List.map_cons]

theorem partsOfEntries_ne_nil {inArray : Bool} (hidden : isShown inArray entries = false)
    (each : ∀ e ∈ entries, isSection e.2 = true → partsOf e.1 false e.2 ≠ []) :
    partsOfEntries entries ≠ [] := by
  simp only [isShown, Bool.or_eq_false_iff, Bool.not_eq_false'] at hidden
  cases entries with
  | nil => cases hidden.2
  | cons e entries =>
    obtain ⟨key, v⟩ := e
    have shown : isSection v = true := by
      by_contra noSection
      have kept := hidden.1.2
      simp [plainEntries, noSection] at kept
    rw [partsOfEntries, if_pos shown]
    exact List.append_ne_nil_of_left_ne_nil (each (key, v) (.head _) shown) _

theorem partsOf_ne_nil {depth : Nat} {v : Value} (storable : v.IsStorable depth) (key : String)
    (inArray : Bool) : partsOf key inArray v ≠ [] := by
  induction storable generalizing key inArray with
  | @table depth entries distinct bare plain sections ih =>
    rw [partsOf]
    split
    · simp
    · next hidden =>
      have below := partsOfEntries_ne_nil (Bool.eq_false_iff.2 hidden) fun e mem shown =>
        ih e mem shown e.1 false
      simpa using below
  | @array depth items nonempty tables each ih =>
    obtain ⟨v, items, rfl⟩ := List.exists_cons_of_ne_nil nonempty
    rw [partsOf, partsOfItems]
    exact List.append_ne_nil_of_left_ne_nil (ih v (.head _) key true) _

theorem adds_of_isStorable {depth : Nat} {v : Value} (storable : v.IsStorable depth) :
    Adds v ∧ (isTable v = true → Appends v) := by
  induction storable with
  | @table depth entries distinct bare plain sections ih =>
    have fills := fills_of_adds distinct fun e mem shown => (ih e mem shown).1
    refine ⟨adds_table fills distinct plain fun hidden => ?_, fun _ =>
      appends_table fills distinct plain⟩
    exact partsOfEntries_ne_nil hidden fun e mem shown =>
      partsOf_ne_nil (sections e mem shown) e.1 false
  | @array depth items nonempty tables each ih =>
    exact ⟨adds_array nonempty fun v mem => (ih v mem).2 (tables v mem), nofun⟩

theorem splitEntries_append {statements : List Statement}
    (heading : splitEntries statements = ([], statements)) (entries : List (String × Value)) :
    splitEntries (entryStatements entries ++ statements) = (pairs entries, statements) := by
  induction entries with
  | nil => exact heading
  | cons e entries ih =>
    have step : entryStatements (e :: entries) ++ statements =
        .entry [] e.1 e.2 :: (entryStatements entries ++ statements) := rfl
    rw [step, splitEntries, ih]
    rfl

theorem splitEntries_parts (parts : List Part) :
    splitEntries (parts.flatMap Part.statements) = ([], parts.flatMap Part.statements) := by
  cases parts with
  | nil => rfl
  | cons p parts =>
    obtain ⟨isItem, path, key, entries⟩ := p
    cases isItem <;> rfl

theorem addSections_parts (parts : List Part) (d : Draft) :
    addSections d (parts.flatMap Part.statements) = addParts parts d := by
  induction parts generalizing d with
  | nil => rw [List.flatMap_nil, addSections]; rfl
  | cons p parts ih =>
    obtain ⟨isItem, path, key, entries⟩ := p
    have splits := splitEntries_append (splitEntries_parts parts) entries
    rw [List.flatMap_cons, addParts_cons]
    cases isItem with
    | true =>
      have step : Part.statements ⟨true, path, key, entries⟩ ++ parts.flatMap Part.statements =
          .arrayHeader path key :: (entryStatements entries ++ parts.flatMap Part.statements) := rfl
      have own : Part.addTo ⟨true, path, key, entries⟩ d = d.append path key (pairs entries) := rfl
      rw [step, addSections, splits, own]
      cases d.append path key (pairs entries) with
      | none => rfl
      | some d => exact ih d
    | false =>
      have step : Part.statements ⟨false, path, key, entries⟩ ++ parts.flatMap Part.statements =
          .header path key :: (entryStatements entries ++ parts.flatMap Part.statements) := rfl
      have own : Part.addTo ⟨false, path, key, entries⟩ d = d.define path key (pairs entries) := rfl
      rw [step, addSections, splits, own]
      cases d.define path key (pairs entries) with
      | none => rfl
      | some d => exact ih d

theorem addSections_entries (entries : List (String × Value)) (statements : List Statement)
    (d : Draft) : addSections d (entryStatements entries ++ statements) =
      (d.insertAll (pairs entries)).bind (addSections · statements) := by
  induction entries generalizing d with
  | nil => rfl
  | cons e entries ih =>
    have step : entryStatements (e :: entries) ++ statements =
        .entry [] e.1 e.2 :: (entryStatements entries ++ statements) := rfl
    have insert : d.insertAll (pairs (e :: entries)) =
        (d.insert [] e.1 e.2).bind fun d => d.insertAll (pairs entries) := rfl
    rw [step, addSections, insert]
    cases d.insert [] e.1 e.2 with
    | none => rfl
    | some d => exact ih d

theorem read?_of_denotes {s : String} {statements : List Statement}
    (denoted : Denotes s.toList statements) :
    read? s = (addSections .empty statements).map Draft.toValue := by
  have read := denoted _ (Nat.lt_succ_self _)
  unfold read?
  cases text : s.toList with
  | nil =>
    rw [text] at read
    simp only [read, Option.bind_eq_bind, Option.bind_some, Option.map_eq_bind]
    rfl
  | cons c rest =>
    rw [text] at denoted read
    have unmarked : c ≠ '\uFEFF' := by
      rintro rfl
      exact denoted.no_mark
    simp only [if_neg unmarked, read, Option.bind_eq_bind, Option.bind_some, Option.map_eq_bind]
    rfl

/-- A table that can be stored is read back from its text, with its plain entries first. -/
theorem read?_render {v : Value} (storable : v.IsStorable (nestingLimit + 1))
    (table : isTable v = true) : read? (render v) = some (arranged v) := by
  cases storable with
  | array => cases table
  | @table _ entries distinct bare plain sections =>
    have denoted := denotes_render (Nat.le_refl _) (.table distinct bare plain sections)
    have fills := fills_of_adds distinct fun e mem shown =>
      (adds_of_isStorable (sections e mem shown)).1
    obtain ⟨nodes, added, value⟩ := fills_leaves fills distinct plain true false
    have defined : addSections .empty (entryStatements (plainEntries entries) ++
        (partsOfEntries entries).flatMap Part.statements) = some ⟨true, false, nodes⟩ := by
      rw [addSections_entries, insertAll_empty (nodup_plainEntries distinct), Option.bind_some,
        addSections_parts, added]
    rw [read?_of_denotes denoted, defined]
    exact congrArg some value

end JavaMigration.Toml
