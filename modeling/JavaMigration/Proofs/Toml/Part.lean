import JavaMigration.Proofs.Toml.Statement

/-!
# Parts of a document

A table is written as its plain entries and one part for each header that it shows. The text is read
back as the statements of these parts, in order.
-/

namespace JavaMigration.Toml

/--
A table, or an array of them, whose headers are at most `depth` keys deep: with distinct bare keys,
and plain values besides its own tables and arrays of tables.
-/
inductive Value.IsStorable : Nat → Value → Prop
  | table {depth : Nat} {entries : List (String × Value)} (distinct : (entries.map Prod.fst).Nodup)
      (bare : ∀ e ∈ entries, IsBare e.1)
      (plain : ∀ e ∈ entries, isSection e.2 = false → e.2.IsPlain nestingLimit)
      (sections : ∀ e ∈ entries, isSection e.2 = true → IsStorable depth e.2) :
      IsStorable (depth + 1) (.table entries)
  | array {depth : Nat} {items : List Value} (nonempty : items ≠ [])
      (tables : ∀ v ∈ items, isTable v = true) (each : ∀ v ∈ items, IsStorable depth v) :
      IsStorable depth (.array items)

def plainEntries (entries : List (String × Value)) : List (String × Value) :=
  entries.filter fun e => !isSection e.2

def isShown (inArray : Bool) (entries : List (String × Value)) : Bool :=
  inArray || !(plainEntries entries).isEmpty || entries.isEmpty

/-- What stands under one header, which names a table or an item of an array of tables. -/
structure Part where
  isItem : Bool
  path : List String
  key : String
  entries : List (String × Value)

namespace Part

def heading (p : Part) : Statement :=
  if p.isItem then .arrayHeader p.path p.key else .header p.path p.key

def below (path : List String) (p : Part) : Part :=
  { p with path := path ++ p.path }

@[simp] theorem below_nil : below [] = id := rfl

theorem below_comp_below (first second : List String) :
    below first ∘ below second = below (first ++ second) :=
  funext fun p => by simp [below]

end Part

def entryStatements (entries : List (String × Value)) : List Statement :=
  entries.map fun e => .entry [] e.1 e.2

def Part.statements (p : Part) : List Statement :=
  p.heading :: entryStatements p.entries

mutual

def partsOf (key : String) (inArray : Bool) : Value → List Part
  | .table entries =>
    (if isShown inArray entries then [⟨inArray, [], key, plainEntries entries⟩] else []) ++
      (partsOfEntries entries).map (.below [key])
  | .array items => partsOfItems key items
  | _ => []

def partsOfEntries : List (String × Value) → List Part
  | [] => []
  | (key, v) :: rest => (if isSection v then partsOf key false v else []) ++ partsOfEntries rest

def partsOfItems (key : String) : List Value → List Part
  | [] => []
  | v :: rest => partsOf key true v ++ partsOfItems key rest

end

variable {path : List String} {entries : List (String × Value)} {statements : List Statement}
  {text : List Char}

theorem writeEntries_eq (entries : List (String × Value)) :
    writeEntries entries = String.join ((plainEntries entries).map fun e => entryLine e.1 e.2) :=
  rfl

theorem writeEntries_eq_empty :
    writeEntries entries = "" ↔ (plainEntries entries).isEmpty = true := by
  rw [writeEntries_eq, ← String.toList_eq_nil_iff, String.toList_join]
  cases plainEntries entries with
  | nil => simp
  | cons e entries => simp [entryLine]

theorem isShown_false (entries : List (String × Value)) :
    isShown false entries = !(decide (writeEntries entries = "") && !entries.isEmpty) := by
  have same : decide (writeEntries entries = "") = (plainEntries entries).isEmpty := by
    rw [Bool.eq_iff_iff, decide_eq_true_iff, writeEntries_eq_empty]
  simp [isShown, same]

theorem Denotes.lines (more : Denotes text statements) (bare : ∀ e ∈ entries, IsBare e.1)
    (plain : ∀ e ∈ entries, e.2.IsPlain nestingLimit) :
    Denotes ((String.join (entries.map fun e => entryLine e.1 e.2)).toList ++ text)
      (entryStatements entries ++ statements) := by
  induction entries with
  | nil => simpa [entryStatements] using more
  | cons e entries ih =>
    have rest := ih (fun e mem => bare e (.tail _ mem)) fun e mem => plain e (.tail _ mem)
    have line := rest.entry (bare e (.head _)) (plain e (.head _))
    simpa [String.toList_join, entryStatements] using line

theorem Denotes.plainLines (more : Denotes text statements) (bare : ∀ e ∈ entries, IsBare e.1)
    (plain : ∀ e ∈ entries, isSection e.2 = false → e.2.IsPlain nestingLimit) :
    Denotes ((writeEntries entries).toList ++ text)
      (entryStatements (plainEntries entries) ++ statements) := by
  rw [writeEntries_eq]
  refine more.lines (fun e mem => bare e (List.mem_filter.1 mem).1) fun e mem => ?_
  obtain ⟨mem, noSection⟩ := List.mem_filter.1 mem
  exact plain e mem (by simpa using noSection)

def SectionsDenote (sections : List Section) (statements : List Statement) : Prop :=
  ∀ first, Denotes (joinSections first sections).toList statements

theorem sectionsDenote_nil : SectionsDenote [] [] :=
  fun _ => denotes_nil

theorem SectionsDenote.cons {s : Section} {sections : List Section} {own : List Statement}
    (more : SectionsDenote sections statements)
    (read : ∀ text, Denotes text statements →
      Denotes (s.header.toList ++ (s.body.toList ++ text)) (own ++ statements)) :
    SectionsDenote (s :: sections) (own ++ statements) := by
  intro first
  have body := read _ (more (first && s.header = "" && s.body = ""))
  rw [joinSections]
  simp only [String.toList_append, List.append_assoc]
  split
  · simpa using body
  · simpa using body.newline

/-- A value whose sections are read as its parts, wherever its key stands. -/
def HasParts (depth : Nat) (v : Value) : Prop :=
  ∀ (path : List String) (key : String) (inArray : Bool), path.length + depth ≤ nestingLimit →
    (∀ k ∈ path ++ [key], IsBare k) → ∀ (sections : List Section) (statements : List Statement),
    SectionsDenote sections statements →
    SectionsDenote (sectionsOf (path ++ [key]) inArray v ++ sections)
      (((partsOf key inArray v).map (.below path)).flatMap Part.statements ++ statements)

theorem sectionsDenote_entries {depth : Nat} (few : path.length + depth ≤ nestingLimit)
    (above : ∀ k ∈ path, IsBare k) (bare : ∀ e ∈ entries, IsBare e.1)
    (each : ∀ e ∈ entries, isSection e.2 = true → HasParts depth e.2) {sections : List Section}
    (more : SectionsDenote sections statements) :
    SectionsDenote (sectionsOfEntries path entries ++ sections)
      (((partsOfEntries entries).map (.below path)).flatMap Part.statements ++ statements) := by
  induction entries with
  | nil => simpa [sectionsOfEntries, partsOfEntries] using more
  | cons e entries ih =>
    obtain ⟨key, v⟩ := e
    have rest := ih (fun e mem => bare e (.tail _ mem)) fun e mem => each e (.tail _ mem)
    rw [sectionsOfEntries, partsOfEntries]
    split
    · next isSection =>
      have keys : ∀ k ∈ path ++ [key], IsBare k := by
        intro k mem
        obtain mem | mem := List.mem_append.1 mem
        · exact above k mem
        · exact List.mem_singleton.1 mem ▸ bare (key, v) (.head _)
      have own := each (key, v) (.head _) isSection path key false few keys _ _ rest
      simpa using own
    · simpa using rest

theorem hasParts_items {depth : Nat} {items : List Value}
    (each : ∀ v ∈ items, HasParts depth v) : HasParts depth (.array items) := by
  intro path key inArray few bare sections statements more
  rw [sectionsOf, partsOf]
  induction items with
  | nil => simpa [sectionsOfItems, partsOfItems] using more
  | cons v items ih =>
    have rest := ih fun v mem => each v (.tail _ mem)
    have own := each v (.head _) path key true few bare _ _ rest
    rw [sectionsOfItems, partsOfItems]
    simpa using own

theorem hasParts_table {depth : Nat} (bare : ∀ e ∈ entries, IsBare e.1)
    (plain : ∀ e ∈ entries, isSection e.2 = false → e.2.IsPlain nestingLimit)
    (each : ∀ e ∈ entries, isSection e.2 = true → HasParts depth e.2) :
    HasParts (depth + 1) (.table entries) := by
  intro path key inArray few keys sections statements more
  have inner : SectionsDenote (sectionsOfEntries (path ++ [key]) entries ++ sections)
      (((partsOfEntries entries).map (.below (path ++ [key]))).flatMap Part.statements ++
        statements) :=
    sectionsDenote_entries (by simp; omega) keys bare each more
  have shape : ((partsOf key inArray (.table entries)).map (.below path)).flatMap Part.statements ++
      statements = (if isShown inArray entries then
        Part.statements ⟨inArray, path, key, plainEntries entries⟩ else []) ++
        (((partsOfEntries entries).map (.below (path ++ [key]))).flatMap Part.statements ++
          statements) := by
    rw [partsOf]
    simp only [List.map_append, List.map_map, Part.below_comp_below, List.flatMap_append,
      List.append_assoc]
    split <;> simp [Part.below]
  have named : (path ++ [key]).isEmpty = false := by simp
  rw [shape, sectionsOf, named]
  refine inner.cons fun text more => ?_
  have body := more.plainLines bare plain
  cases inArray with
  | true => exact body.arrayHeader keys (by omega)
  | false =>
    cases hidden : decide (writeEntries entries = "") && !entries.isEmpty with
    | false =>
      rw [isShown_false, hidden]
      exact body.header keys (by omega)
    | true =>
      have noLines : writeEntries entries = "" := by
        simp only [Bool.and_eq_true, decide_eq_true_eq] at hidden
        exact hidden.1
      rw [isShown_false, hidden, noLines]
      exact more

theorem hasParts_of_isStorable {depth : Nat} {v : Value} (storable : v.IsStorable depth) :
    HasParts depth v := by
  induction storable with
  | table distinct bare plain sections ih => exact hasParts_table bare plain ih
  | array nonempty tables each ih => exact hasParts_items ih

/-- The text of a table is read as its plain entries and its parts. -/
theorem denotes_render {depth : Nat} (few : depth ≤ nestingLimit)
    (storable : (Value.table entries).IsStorable (depth + 1)) :
    Denotes (render (.table entries)).toList
      (entryStatements (plainEntries entries) ++
        (partsOfEntries entries).flatMap Part.statements) := by
  cases storable with
  | table distinct bare plain sections =>
    have root : ([] : List String).length + depth ≤ nestingLimit := by simpa using few
    have inner := sectionsDenote_entries root (by simp) bare
      (fun e mem isSection => hasParts_of_isStorable (sections e mem isSection)) sectionsDenote_nil
    have whole := inner.cons (s := ⟨"", writeEntries entries⟩) fun _ more =>
      more.plainLines bare plain
    simpa [render, sectionsOf] using whole true

end JavaMigration.Toml
