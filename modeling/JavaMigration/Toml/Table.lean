import JavaMigration.Toml.Value

/-!
# Tables under construction

How the statements of a document define tables. A table is defined once: by its header, by the keys
of dotted entries, or as a value. A header may still define a table of which only tables further
down have been defined, and an array of tables grows by one table for each header.
-/

namespace JavaMigration.Toml

/-- What a key of an unfinished table stands for. -/
inductive Node
  | leaf (v : Value)
  /-- A table that may be `explicit`, by a header of its own, or come from `dotted` keys. -/
  | table (explicit dotted : Bool) (entries : List (String × Node))
  /-- The tables of an array of tables. -/
  | tables (items : List (List (String × Node)))
deriving Inhabited

/-- A table of which the statements so far have been taken in. -/
structure Draft where
  explicit : Bool
  dotted : Bool
  entries : List (String × Node)

namespace Draft

def empty : Draft := ⟨true, false, []⟩

/-- Sets the node of a key: in its place, or at the end if the key is new. -/
def insertEntry (key : String) (node : Node) : List (String × Node) → List (String × Node)
  | [] => [(key, node)]
  | (k, old) :: rest => if k = key then (key, node) :: rest else (k, old) :: insertEntry key node rest

def set (d : Draft) (key : String) (node : Node) : Draft :=
  { d with entries := insertEntry key node d.entries }

/--
Applies `f` to the table at `path`, creating what is missing on the way, by dotted keys or by a
header. Dotted keys may not enter a table with a header of its own.
-/
def update (dotted : Bool) (f : Draft → Option Draft) : List String → Draft → Option Draft
  | [], d => f d
  | key :: path, d => do
    match d.entries.lookup key with
    | none =>
      let inner ← update dotted f path ⟨false, dotted, []⟩
      some (d.set key (.table inner.explicit inner.dotted inner.entries))
    | some (.leaf _) => none
    | some (.table explicit dotted' entries) =>
      if dotted && explicit then none
      else
        let inner ← update dotted f path ⟨explicit, dotted', entries⟩
        some (d.set key (.table inner.explicit inner.dotted inner.entries))
    | some (.tables items) =>
      let last ← items.getLast?
      let inner ← update dotted f path ⟨true, false, last⟩
      some (d.set key (.tables (items.dropLast ++ [inner.entries])))

/-- Adds one entry with a key of one or more parts. -/
def insert (d : Draft) (path : List String) (key : String) (v : Value) : Option Draft :=
  update true (fun inner =>
    if inner.dotted = path.isEmpty || (inner.entries.lookup key).isSome then none
    else some (inner.set key (.leaf v))) path d

def insertAll (d : Draft) (pairs : List (List String × String × Value)) : Option Draft :=
  pairs.foldlM (fun d (path, key, v) => d.insert path key v) d

/-- Defines the table that a header names, with the entries below the header. -/
def define (d : Draft) (path : List String) (key : String)
    (pairs : List (List String × String × Value)) : Option Draft :=
  update false (fun parent => do
    let start ← match parent.entries.lookup key with
      | none => some empty
      | some (.table false false entries) => some ⟨true, false, entries⟩
      | some _ => none
    let inner ← start.insertAll pairs
    some (parent.set key (.table true false inner.entries))) path d

/-- Appends a table to the array that a header names, with the entries below the header. -/
def append (d : Draft) (path : List String) (key : String)
    (pairs : List (List String × String × Value)) : Option Draft :=
  update false (fun parent => do
    let items ← match parent.entries.lookup key with
      | none => some []
      | some (.tables items) => some items
      | some _ => none
    let inner ← empty.insertAll pairs
    some (parent.set key (.tables (items ++ [inner.entries])))) path d

end Draft

mutual

def Node.toValue : Node → Value
  | .leaf v => v
  | .table _ _ entries => .table (valuesOfEntries entries)
  | .tables items => .array (valuesOfItems items)

def valuesOfEntries : List (String × Node) → List (String × Value)
  | [] => []
  | (key, node) :: rest => (key, node.toValue) :: valuesOfEntries rest

def valuesOfItems : List (List (String × Node)) → List Value
  | [] => []
  | entries :: rest => .table (valuesOfEntries entries) :: valuesOfItems rest

end

def Draft.toValue (d : Draft) : Value :=
  .table (valuesOfEntries d.entries)

end JavaMigration.Toml
