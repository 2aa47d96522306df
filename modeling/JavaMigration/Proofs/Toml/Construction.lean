import JavaMigration.Proofs.Entries
import JavaMigration.Proofs.Toml.Part

/-!
# Tables from their parts

The parts of a document define its tables one after the other. What they define below a key is what
they would define alone, so that a table is put together from its entries: the plain ones first, and
then those with a header, in order.
-/

namespace JavaMigration.Toml

variable {d : Draft} {key : String}

namespace Draft

theorem lookup_insertEntry (key other : String) (node : Node) (entries : List (String × Node)) :
    (insertEntry key node entries).lookup other =
      if other = key then some node else entries.lookup other := by
  induction entries with
  | nil => rw [insertEntry, lookup_cons]
  | cons e entries ih =>
    obtain ⟨k, old⟩ := e
    rw [insertEntry]
    split
    · next found =>
      subst found
      simp only [lookup_cons]
      split <;> rfl
    · next differs =>
      rw [lookup_cons, lookup_cons, ih]
      split
      · next first => rw [if_neg fun same => differs (first.symm.trans same)]
      · rfl

theorem lookup_set (d : Draft) (key other : String) (node : Node) :
    (d.set key node).entries.lookup other =
      if other = key then some node else d.entries.lookup other :=
  lookup_insertEntry key other node d.entries

theorem insertEntry_of_lookup {node : Node} {entries : List (String × Node)}
    (found : entries.lookup key = some node) : insertEntry key node entries = entries := by
  induction entries with
  | nil => cases found
  | cons e entries ih =>
    obtain ⟨k, old⟩ := e
    rw [lookup_cons] at found
    rw [insertEntry]
    split
    · next same =>
      rw [if_pos same.symm] at found
      rw [same, Option.some.inj found]
    · next differs =>
      rw [if_neg (Ne.symm differs)] at found
      rw [ih found]

theorem set_of_lookup {node : Node} (found : d.entries.lookup key = some node) :
    d.set key node = d := by
  cases d
  exact congrArg _ (insertEntry_of_lookup found)

theorem insertEntry_insertEntry (key : String) (first second : Node)
    (entries : List (String × Node)) :
    insertEntry key second (insertEntry key first entries) = insertEntry key second entries := by
  induction entries with
  | nil => simp [insertEntry]
  | cons e entries ih =>
    obtain ⟨k, old⟩ := e
    by_cases found : k = key <;> simp [insertEntry, found, ih]

theorem set_set (d : Draft) (key : String) (first second : Node) :
    (d.set key first).set key second = d.set key second :=
  congrArg _ (insertEntry_insertEntry key first second d.entries)

theorem insertEntry_of_fresh {node : Node} {entries : List (String × Node)}
    (fresh : entries.lookup key = none) :
    insertEntry key node entries = entries ++ [(key, node)] := by
  induction entries with
  | nil => rfl
  | cons e entries ih =>
    obtain ⟨k, old⟩ := e
    rw [lookup_cons] at fresh
    have differs : k ≠ key := by
      rintro rfl
      rw [if_pos rfl] at fresh
      cases fresh
    rw [if_neg (Ne.symm differs)] at fresh
    rw [insertEntry, if_neg differs, ih fresh, List.cons_append]

theorem set_of_fresh {node : Node} (fresh : d.entries.lookup key = none) :
    d.set key node = { d with entries := d.entries ++ [(key, node)] } :=
  congrArg _ (insertEntry_of_fresh fresh)

def enter (key : String) (f : Draft → Option Draft) (d : Draft) : Option Draft :=
  update false f [key] d

/-- A change of the entries of a table, which stays as it has been defined. -/
def Keeps (f : Draft → Option Draft) : Prop :=
  ∀ d d', f d = some d' → d'.explicit = d.explicit ∧ d'.dotted = d.dotted

theorem update_nil (dotted : Bool) (f : Draft → Option Draft) (d : Draft) :
    update dotted f [] d = f d :=
  rfl

theorem enter_eq (key : String) (f : Draft → Option Draft) (d : Draft) :
    enter key f d =
      match d.entries.lookup key with
      | none => (f ⟨false, false, []⟩).map fun inner =>
        d.set key (.table inner.explicit inner.dotted inner.entries)
      | some (.leaf _) => none
      | some (.table explicit dotted entries) => (f ⟨explicit, dotted, entries⟩).map fun inner =>
        d.set key (.table inner.explicit inner.dotted inner.entries)
      | some (.tables items) => items.getLast?.bind fun last => (f ⟨true, false, last⟩).map
        fun inner => d.set key (.tables (items.dropLast ++ [inner.entries])) := by
  simp only [Option.map_eq_bind]
  rfl

theorem update_cons (f : Draft → Option Draft) (path : List String) :
    update false f (key :: path) d = enter key (update false f path) d :=
  rfl

theorem enter_of_fresh {f : Draft → Option Draft} (fresh : d.entries.lookup key = none) :
    enter key f d = (f ⟨false, false, []⟩).map fun inner =>
      d.set key (.table inner.explicit inner.dotted inner.entries) := by
  rw [enter_eq, fresh]

theorem enter_of_table {f : Draft → Option Draft} {explicit dotted : Bool}
    {entries : List (String × Node)}
    (found : d.entries.lookup key = some (.table explicit dotted entries)) :
    enter key f d = (f ⟨explicit, dotted, entries⟩).map fun inner =>
      d.set key (.table inner.explicit inner.dotted inner.entries) := by
  rw [enter_eq, found]

theorem enter_of_tables {f : Draft → Option Draft} {items : List (List (String × Node))}
    {last : List (String × Node)}
    (found : d.entries.lookup key = some (.tables (items ++ [last]))) :
    enter key f d = (f ⟨true, false, last⟩).map fun inner =>
      d.set key (.tables (items ++ [inner.entries])) := by
  rw [enter_eq, found]
  simp

theorem enter_of_leaf {f : Draft → Option Draft} {v : Value}
    (found : d.entries.lookup key = some (.leaf v)) : enter key f d = none := by
  rw [enter_eq, found]

theorem enter_of_no_tables {f : Draft → Option Draft}
    (found : d.entries.lookup key = some (.tables [])) : enter key f d = none := by
  rw [enter_eq, found]
  rfl

theorem exists_set_of_bind {α β : Type} {start : Option α} {build : α → Option β}
    {node : α → β → Node} {d' : Draft}
    (added : (start.bind fun a => (build a).bind fun b => some (d.set key (node a b))) = some d') :
    ∃ node, d' = d.set key node := by
  obtain ⟨a, -, added⟩ := Option.bind_eq_some_iff.1 added
  obtain ⟨b, -, set⟩ := Option.bind_eq_some_iff.1 added
  exact ⟨node a b, (Option.some.inj set).symm⟩

theorem keeps_enter (key : String) (f : Draft → Option Draft) : Keeps (enter key f) := by
  intro d d' entered
  obtain fresh | ⟨node, found⟩ := Option.eq_none_or_eq_some (d.entries.lookup key)
  · rw [enter_of_fresh fresh] at entered
    obtain ⟨inner, -, rfl⟩ := Option.map_eq_some_iff.1 entered
    exact ⟨rfl, rfl⟩
  cases node with
  | leaf v => rw [enter_of_leaf found] at entered; cases entered
  | table explicit dotted entries =>
    rw [enter_of_table found] at entered
    obtain ⟨inner, -, rfl⟩ := Option.map_eq_some_iff.1 entered
    exact ⟨rfl, rfl⟩
  | tables items =>
    obtain rfl | ⟨items, last, rfl⟩ := items.eq_nil_or_concat
    · rw [enter_of_no_tables found] at entered; cases entered
    · rw [List.concat_eq_append] at found
      rw [enter_of_tables found] at entered
      obtain ⟨inner, -, rfl⟩ := Option.map_eq_some_iff.1 entered
      exact ⟨rfl, rfl⟩

theorem enter_bind {f g : Draft → Option Draft} (keeps : Keeps f) :
    (enter key f d).bind (enter key g) = enter key (fun inner => (f inner).bind g) d := by
  have again {node : Node} : (d.set key node).entries.lookup key = some node := by
    rw [lookup_set, if_pos rfl]
  obtain fresh | ⟨node, found⟩ := Option.eq_none_or_eq_some (d.entries.lookup key)
  · rw [enter_of_fresh fresh, enter_of_fresh fresh]
    cases f ⟨false, false, []⟩ with
    | none => rfl
    | some inner =>
      rw [Option.map_some, Option.bind_some, enter_of_table again]
      simp only [set_set, Option.bind_some]
  cases node with
  | leaf v => rw [enter_of_leaf found, enter_of_leaf found]; rfl
  | table explicit dotted entries =>
    rw [enter_of_table found, enter_of_table found]
    cases f ⟨explicit, dotted, entries⟩ with
    | none => rfl
    | some inner =>
      rw [Option.map_some, Option.bind_some, enter_of_table again]
      simp only [set_set, Option.bind_some]
  | tables items =>
    obtain rfl | ⟨items, last, rfl⟩ := items.eq_nil_or_concat
    · rw [enter_of_no_tables found, enter_of_no_tables found]; rfl
    · rw [List.concat_eq_append] at found
      rw [enter_of_tables found, enter_of_tables found]
      cases done : f ⟨true, false, last⟩ with
      | none => rfl
      | some inner =>
        -- an item has no flags of its own: those that `f` keeps are taken up again
        obtain ⟨explicit, dotted⟩ := keeps _ _ done
        have same : inner = ⟨true, false, inner.entries⟩ := by
          cases inner
          cases explicit
          cases dotted
          rfl
        rw [Option.map_some, Option.bind_some, enter_of_tables again, ← same]
        simp only [set_set, Option.bind_some]

end Draft

def pairs (entries : List (String × Value)) : List (List String × String × Value) :=
  entries.map fun e => ([], e.1, e.2)

namespace Part

def addTo (p : Part) (d : Draft) : Option Draft :=
  if p.isItem then d.append p.path p.key (pairs p.entries)
  else d.define p.path p.key (pairs p.entries)

theorem addTo_below (p : Part) (key : String) (d : Draft) :
    (p.below [key]).addTo d = Draft.enter key p.addTo d := by
  obtain ⟨isItem, path, own, entries⟩ := p
  cases isItem with
  | true => exact Draft.update_cons _ path
  | false => exact Draft.update_cons _ path

theorem keeps_addTo (p : Part) : Draft.Keeps p.addTo := by
  obtain ⟨isItem, path, own, entries⟩ := p
  cases path with
  | cons first path =>
    intro d d' added
    have entered := addTo_below ⟨isItem, path, own, entries⟩ first d
    exact Draft.keeps_enter first _ d d' (entered.symm.trans added)
  | nil =>
    intro d d' added
    obtain ⟨node, rfl⟩ : ∃ node, d' = d.set own node := by
      cases isItem with
      | true =>
        simp only [addTo, Draft.append, Draft.update_nil, if_true, Option.bind_eq_bind] at added
        split at added
        · exact Draft.exists_set_of_bind added
        · exact Draft.exists_set_of_bind added
        · cases added
      | false =>
        simp only [addTo, Draft.define, Draft.update_nil, Bool.false_eq_true, if_false,
          Option.bind_eq_bind] at added
        split at added
        · exact Draft.exists_set_of_bind added
        · exact Draft.exists_set_of_bind added
        · cases added
    exact ⟨rfl, rfl⟩

end Part

def addParts (parts : List Part) (d : Draft) : Option Draft :=
  parts.foldlM (fun d p => p.addTo d) d

theorem addParts_cons (p : Part) (parts : List Part) (d : Draft) :
    addParts (p :: parts) d = (p.addTo d).bind (addParts parts) :=
  List.foldlM_cons

theorem addParts_append (first second : List Part) (d : Draft) :
    addParts (first ++ second) d = (addParts first d).bind (addParts second) :=
  List.foldlM_append

theorem addParts_below {parts : List Part} (nonempty : parts ≠ []) (key : String) (d : Draft) :
    addParts (parts.map (.below [key])) d = Draft.enter key (addParts parts) d := by
  induction parts generalizing d with
  | nil => exact absurd rfl nonempty
  | cons p parts ih =>
    rw [List.map_cons, addParts_cons, Part.addTo_below]
    cases parts with
    | nil =>
      have single : addParts [p] = p.addTo := funext fun d => by
        rw [addParts_cons]
        exact Option.bind_fun_some _
      rw [single]
      exact Option.bind_fun_some _
    | cons q parts =>
      have rest : addParts ((q :: parts).map (.below [key])) =
          Draft.enter key (addParts (q :: parts)) := funext fun d => ih (by simp) d
      rw [rest, Draft.enter_bind p.keeps_addTo]
      rfl

theorem addParts_below_of_table {parts : List Part} {explicit dotted : Bool}
    {entries : List (String × Node)}
    (found : d.entries.lookup key = some (.table explicit dotted entries)) :
    addParts (parts.map (.below [key])) d =
      (addParts parts ⟨explicit, dotted, entries⟩).map fun inner =>
        d.set key (.table inner.explicit inner.dotted inner.entries) := by
  by_cases none : parts = []
  · subst none
    exact congrArg some (Draft.set_of_lookup found).symm
  · rw [addParts_below none, Draft.enter_of_table found]

theorem addParts_below_of_tables {parts : List Part} {items : List (List (String × Node))}
    {last : List (String × Node)}
    (found : d.entries.lookup key = some (.tables (items ++ [last]))) :
    addParts (parts.map (.below [key])) d =
      (addParts parts ⟨true, false, last⟩).map fun inner =>
        d.set key (.tables (items ++ [inner.entries])) := by
  by_cases none : parts = []
  · subst none
    exact congrArg some (Draft.set_of_lookup found).symm
  · rw [addParts_below none, Draft.enter_of_tables found]

def leaves (entries : List (String × Value)) : List (String × Node) :=
  entries.map fun e => (e.1, .leaf e.2)

theorem lookup_leaves (other : String) (entries : List (String × Value)) :
    (leaves entries).lookup other = (entries.lookup other).map .leaf := by
  induction entries with
  | nil => rfl
  | cons e entries ih =>
    have step : leaves (e :: entries) = (e.1, .leaf e.2) :: leaves entries := rfl
    rw [step, lookup_cons, lookup_cons, ih]
    split <;> rfl

theorem insertAll_pairs {entries : List (String × Value)}
    (distinct : (entries.map Prod.fst).Nodup) (own : d.dotted = false)
    (fresh : ∀ e ∈ entries, d.entries.lookup e.1 = none) :
    d.insertAll (pairs entries) = some { d with entries := d.entries ++ leaves entries } := by
  induction entries generalizing d with
  | nil =>
    rw [leaves, List.map_nil, List.append_nil]
    rfl
  | cons e entries ih =>
    obtain ⟨key, v⟩ := e
    have new : d.entries.lookup key = none := fresh (key, v) (.head _)
    obtain ⟨noOther, distinct⟩ := List.nodup_cons.1 distinct
    have inserted : d.insert [] key v = some (d.set key (.leaf v)) := by
      simp [Draft.insert, Draft.update_nil, own, new]
    have rest := @ih (d.set key (.leaf v)) distinct own fun e mem => by
      have listed : e.1 ∈ entries.map Prod.fst := List.mem_map_of_mem mem
      have other : e.1 ≠ key := fun same => noOther (same ▸ listed)
      rw [Draft.lookup_set, if_neg other]
      exact fresh e (.tail _ mem)
    have step : d.insertAll (pairs ((key, v) :: entries)) =
        (d.insert [] key v).bind fun d => d.insertAll (pairs entries) := rfl
    rw [step, inserted, Option.bind_some, rest, Draft.set_of_fresh new]
    simp [leaves]

theorem insertAll_empty {entries : List (String × Value)}
    (distinct : (entries.map Prod.fst).Nodup) :
    Draft.empty.insertAll (pairs entries) = some ⟨true, false, leaves entries⟩ :=
  insertAll_pairs distinct rfl fun _ _ => rfl

theorem define_of_fresh {entries : List (String × Value)}
    (distinct : (entries.map Prod.fst).Nodup) (fresh : d.entries.lookup key = none) :
    Part.addTo ⟨false, [], key, entries⟩ d =
      some (d.set key (.table true false (leaves entries))) := by
  simp [Part.addTo, Draft.define, Draft.update_nil, fresh, insertAll_empty distinct]

/-- The tables that stand under a key so far, if it may be the name of an array of tables. -/
def HoldsItems (d : Draft) (key : String) (items : List (List (String × Node))) : Prop :=
  d.entries.lookup key = none ∧ items = [] ∨ d.entries.lookup key = some (.tables items)

theorem append_of_items {entries : List (String × Value)} {items : List (List (String × Node))}
    (distinct : (entries.map Prod.fst).Nodup) (held : HoldsItems d key items) :
    Part.addTo ⟨true, [], key, entries⟩ d =
      some (d.set key (.tables (items ++ [leaves entries]))) := by
  obtain ⟨fresh, rfl⟩ | found := held
  · simp [Part.addTo, Draft.append, Draft.update_nil, fresh, insertAll_empty distinct]
  · simp [Part.addTo, Draft.append, Draft.update_nil, found, insertAll_empty distinct]

end JavaMigration.Toml
