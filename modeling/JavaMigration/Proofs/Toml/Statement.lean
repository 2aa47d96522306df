import JavaMigration.Proofs.Toml.Inline

/-!
# Statements

Each line that a table is written with is read back as one statement: an entry with a plain value,
or the header of a table or of an item in an array of tables.
-/

namespace JavaMigration.Toml

variable {c : Char} {rest text : List Char} {key : String} {path : List String}

def IsBare (key : String) : Prop :=
  key ≠ "" ∧ ∀ c ∈ key.toList, isBareKeyChar c = true

instance (key : String) : Decidable (IsBare key) :=
  -- by the characters of the key: there is also an instance that goes through all characters
  @instDecidableAnd _ _ inferInstance (List.decidableBAll (isBareKeyChar ·) key.toList)

theorem writeKey_of_isBare (bare : IsBare key) : writeKey key = key := by
  have all : key.toList.all isBareKeyChar = true := List.all_eq_true.2 bare.2
  simp [writeKey, bare.1, all]

theorem IsBare.toList_eq (bare : IsBare key) :
    ∃ c tail, key.toList = c :: tail ∧ isBareKeyChar c = true := by
  obtain ⟨c, tail, starts⟩ := List.exists_cons_of_ne_nil (mt String.toList_eq_nil_iff.1 bare.1)
  exact ⟨c, tail, starts, bare.2 c (by rw [starts]; exact .head _)⟩

theorem isBareKeyChar_ne (bare : isBareKeyChar c = true) :
    c ∉ [' ', '\t', '\n', '\r', '#', '"', '\'', '[', ']', '.', '=', '\uFEFF'] := by
  intro mem
  simp only [List.mem_cons, List.not_mem_nil, or_false] at mem
  rcases mem with rfl | rfl | rfl | rfl | rfl | rfl | rfl | rfl | rfl | rfl | rfl | rfl <;>
    exact absurd bare (by decide)

theorem dropWhile_isLineSpace (noBlank : c ∉ [' ', '\t']) :
    (c :: rest).dropWhile isLineSpace = c :: rest := by
  simp only [List.mem_cons, List.not_mem_nil, or_false, not_or] at noBlank
  simp [isLineSpace, noBlank]

theorem readKeyPart_of_isBare (bare : IsBare key) (stop : isBareKeyChar c = false) :
    readKeyPart (key.toList ++ c :: rest) = some (key, c :: rest) := by
  have taken : (key.toList ++ c :: rest).takeWhile isBareKeyChar = key.toList := by
    rw [List.takeWhile_append_of_pos bare.2]
    simp [stop]
  have left : (key.toList ++ c :: rest).dropWhile isBareKeyChar = c :: rest := by
    rw [List.dropWhile_append_of_pos bare.2]
    simp [stop]
  obtain ⟨first, tail, starts, opening⟩ := bare.toList_eq
  have others := isBareKeyChar_ne opening
  have whole : String.ofList (first :: tail) = key := by rw [← starts, String.ofList_toList]
  simp only [starts, List.cons_append] at taken left ⊢
  unfold readKeyPart
  split
  · next quote => exact absurd (List.cons.inj quote).1 fun same => others (by simp [same])
  · next quote => exact absurd (List.cons.inj quote).1 fun same => others (by simp [same])
  · change (if ((first :: (tail ++ c :: rest)).takeWhile isBareKeyChar).isEmpty then none else
      some (String.ofList ((first :: (tail ++ c :: rest)).takeWhile isBareKeyChar),
        (first :: (tail ++ c :: rest)).dropWhile isBareKeyChar)) = _
    rw [taken, left, whole]
    rfl

theorem readKeyParts_writePath {after : List Char} (fuel : Nat) (nonempty : path ≠ [])
    (bare : ∀ key ∈ path, IsBare key) (few : path.length ≤ fuel) (stop : isBareKeyChar c = false)
    (trimmed : (c :: rest).dropWhile isLineSpace = after) (noPoint : ∀ more, after ≠ '.' :: more) :
    readKeyParts fuel ((writePath path).toList ++ c :: rest) = some (path, after) := by
  induction path generalizing fuel with
  | nil => exact absurd rfl nonempty
  | cons key path ih =>
    obtain ⟨fuel, rfl⟩ : ∃ n, fuel = n + 1 := ⟨fuel - 1, by simp at few; omega⟩
    have first := bare key (.head _)
    obtain ⟨d, tail, starts, opening⟩ := first.toList_eq
    have untrimmed : ∀ more, (key.toList ++ more).dropWhile isLineSpace = key.toList ++ more := by
      intro more
      rw [starts]
      exact dropWhile_isLineSpace fun mem => isBareKeyChar_ne opening (List.mem_append_left _ mem)
    cases path with
    | nil =>
      have text : (writePath [key]).toList = key.toList := by
        simp [writePath, writeKey_of_isBare first]
      rw [text, readKeyParts, untrimmed, readKeyPart_of_isBare first stop]
      simp only [Option.bind_eq_bind, Option.bind_some, trimmed]
    | cons other path =>
      have text : (writePath (key :: other :: path)).toList =
          key.toList ++ '.' :: (writePath (other :: path)).toList := by
        simp [writePath, writeKey_of_isBare first]
      have more := ih fuel (by simp) (fun key mem => bare key (.tail _ mem)) (by simpa using few)
      rw [text, List.append_assoc, List.cons_append, readKeyParts, untrimmed,
        readKeyPart_of_isBare first (by decide)]
      simp only [Option.bind_eq_bind, Option.bind_some]
      rw [dropWhile_isLineSpace (by decide)]
      simp [more]

theorem readKey_writePath {after : List Char} (bare : ∀ k ∈ path ++ [key], IsBare k)
    (few : path.length < nestingLimit) (stop : isBareKeyChar c = false)
    (trimmed : (c :: rest).dropWhile isLineSpace = after) (noPoint : ∀ more, after ≠ '.' :: more) :
    readKey ((writePath (path ++ [key])).toList ++ c :: rest) = some ((path, key), after) := by
  have parts := readKeyParts_writePath nestingLimit (by simp) bare (by simp; omega) stop trimmed
    noPoint
  simp [readKey, parts]

theorem writePath_cons (bare : ∀ k ∈ path ++ [key], IsBare k) :
    ∃ c tail, (writePath (path ++ [key])).toList = c :: tail ∧ isBareKeyChar c = true := by
  cases path with
  | nil =>
    have only : IsBare key := bare key (by simp)
    obtain ⟨c, tail, starts, opening⟩ := only.toList_eq
    refine ⟨c, tail, ?_, opening⟩
    simpa [writePath, writeKey_of_isBare only] using starts
  | cons first path =>
    have first' : IsBare first := bare first (by simp)
    obtain ⟨c, tail, starts, opening⟩ := first'.toList_eq
    refine ⟨c, tail ++ '.' :: (writePath (path ++ [key])).toList, ?_, opening⟩
    simp [writePath, writeKey_of_isBare first', String.intercalate_cons_of_ne_nil, starts]

/-- A text from which the reader takes the statements, whatever fuel beyond its length it has. -/
def Denotes (text : List Char) (statements : List Statement) : Prop :=
  ∀ fuel, text.length < fuel → readStatements fuel text = some statements

theorem denotes_nil : Denotes [] [] := by
  intro fuel enough
  obtain ⟨fuel, rfl⟩ : ∃ n, fuel = n + 1 := ⟨fuel - 1, by omega⟩
  rfl

variable {statements : List Statement}

theorem Denotes.newline (more : Denotes text statements) : Denotes ('\n' :: text) statements := by
  intro fuel enough
  obtain ⟨fuel, rfl⟩ : ∃ n, fuel = n + 1 := ⟨fuel - 1, by omega⟩
  have rest := more fuel (by simpa using enough)
  rw [readStatements, dropWhile_isLineSpace (by decide)]
  simp [skipNewline?, rest]

theorem Denotes.line {line : List Char} {statement : Statement} (more : Denotes text statements)
    (noBlank : c ∉ [' ', '\t', '\n', '\r', '#'])
    (read : readStatement (c :: (line ++ '\n' :: text)) = some (statement, '\n' :: text)) :
    Denotes (c :: (line ++ '\n' :: text)) (statement :: statements) := by
  intro fuel enough
  obtain ⟨fuel, rfl⟩ : ∃ n, fuel = n + 1 := ⟨fuel - 1, by omega⟩
  have after : readStatements fuel text = some statements :=
    more fuel (by simp only [List.length_cons, List.length_append] at enough; omega)
  simp only [List.mem_cons, List.not_mem_nil, or_false, not_or] at noBlank
  have trimmed : (c :: (line ++ '\n' :: text)).dropWhile isLineSpace =
      c :: (line ++ '\n' :: text) :=
    dropWhile_isLineSpace (by simp [noBlank])
  have noBreak : skipNewline? (c :: (line ++ '\n' :: text)) = none := by
    cases line <;> simp [skipNewline?, noBlank]
  have ended : skipLineEnd ('\n' :: text) = some text := by
    rw [skipLineEnd, dropWhile_isLineSpace (by decide)]
    rfl
  rw [readStatements, trimmed]
  split
  · next none => cases none
  · next mark => exact absurd (List.cons.inj mark).1 noBlank.2.2.2.2
  · rw [noBreak]
    simp [read, ended, after]

variable {v : Value}

def entryLine (key : String) (v : Value) : String :=
  writeKey key ++ " = " ++ writeValue v ++ "\n"

theorem Denotes.entry (more : Denotes text statements) (bare : IsBare key)
    (plain : v.IsPlain nestingLimit) :
    Denotes ((entryLine key v).toList ++ text) (.entry [] key v :: statements) := by
  obtain ⟨c, tail, starts, opening⟩ := bare.toList_eq
  obtain ⟨d, inner, value, opens⟩ := writeValue_cons plain
  have others := isBareKeyChar_ne opening
  have trimmed : (' ' :: ((writeValue v).toList ++ '\n' :: text)).dropWhile isLineSpace =
      (writeValue v).toList ++ '\n' :: text := by
    rw [value, List.dropWhile_cons_of_pos rfl]
    exact dropWhile_isLineSpace fun mem => opens (List.mem_append_left _ mem)
  have name : readKey ((writePath ([] ++ [key])).toList ++
      ' ' :: '=' :: ' ' :: ((writeValue v).toList ++ '\n' :: text)) =
        some (([], key), '=' :: ' ' :: ((writeValue v).toList ++ '\n' :: text)) :=
    readKey_writePath (by simpa using bare) (by decide) (by decide) rfl (by simp)
  have single : (writePath ([] ++ [key])).toList = c :: tail := by
    simp [writePath, writeKey_of_isBare bare, starts]
  have read := isReadAs_of_isPlain plain
    (2 * ((writeValue v).toList ++ '\n' :: text).length + 2) '\n' text (by simp; omega) (.inr rfl)
  have shape : (entryLine key v).toList ++ text =
      c :: ((tail ++ ' ' :: '=' :: ' ' :: (writeValue v).toList) ++ '\n' :: text) := by
    simp [entryLine, writeKey_of_isBare bare, starts]
  rw [shape]
  refine more.line (fun mem => others (List.mem_append_left _ mem)) ?_
  have noHeader : c ≠ '[' := by rintro rfl; exact absurd opening (by decide)
  rw [single] at name
  have tailShape : (c :: tail) ++ ' ' :: '=' :: ' ' :: ((writeValue v).toList ++ '\n' :: text) =
      c :: ((tail ++ ' ' :: '=' :: ' ' :: (writeValue v).toList) ++ '\n' :: text) := by simp
  rw [tailShape] at name
  unfold readStatement
  split
  · next header => exact absurd (List.cons.inj header).1 noHeader
  · next header => exact absurd (List.cons.inj header).1 noHeader
  · rw [name]
    simp only [Option.bind_eq_bind, Option.bind_some]
    rw [trimmed, read]
    rfl

theorem Denotes.header (more : Denotes text statements) (bare : ∀ k ∈ path ++ [key], IsBare k)
    (few : path.length < nestingLimit) :
    Denotes (("[" ++ writePath (path ++ [key]) ++ "]\n").toList ++ text)
      (.header path key :: statements) := by
  obtain ⟨c, tail, starts, opening⟩ := writePath_cons bare
  have name : readKey ((writePath (path ++ [key])).toList ++ ']' :: '\n' :: text) =
      some ((path, key), ']' :: '\n' :: text) :=
    readKey_writePath bare few (by decide) rfl (by simp)
  have shape : ("[" ++ writePath (path ++ [key]) ++ "]\n").toList ++ text =
      '[' :: (c :: tail ++ [']'] ++ '\n' :: text) := by
    simp [starts]
  rw [shape]
  refine more.line (by decide) ?_
  have noArray : c ≠ '[' := by rintro rfl; exact absurd opening (by decide)
  rw [starts] at name
  simp only [List.append_assoc, List.cons_append, List.nil_append] at name ⊢
  simp [readStatement, noArray, name]

theorem Denotes.arrayHeader (more : Denotes text statements) (bare : ∀ k ∈ path ++ [key], IsBare k)
    (few : path.length < nestingLimit) :
    Denotes (("[[" ++ writePath (path ++ [key]) ++ "]]\n").toList ++ text)
      (.arrayHeader path key :: statements) := by
  have name : readKey ((writePath (path ++ [key])).toList ++ ']' :: ']' :: '\n' :: text) =
      some ((path, key), ']' :: ']' :: '\n' :: text) :=
    readKey_writePath bare few (by decide) rfl (by simp)
  have shape : ("[[" ++ writePath (path ++ [key]) ++ "]]\n").toList ++ text =
      '[' :: ('[' :: (writePath (path ++ [key])).toList ++ [']', ']'] ++ '\n' :: text) := by
    simp
  rw [shape]
  refine more.line (by decide) ?_
  simp only [List.append_assoc, List.cons_append, List.nil_append] at name ⊢
  simp [readStatement, name]

theorem Denotes.no_mark (marked : Denotes ('\uFEFF' :: text) statements) : False := by
  have trimmed : ('\uFEFF' :: text).dropWhile isLineSpace = '\uFEFF' :: text :=
    dropWhile_isLineSpace (by decide)
  have part : readKeyPart ('\uFEFF' :: text) = none := rfl
  have parts : readKeyParts nestingLimit ('\uFEFF' :: text) = none := by
    rw [nestingLimit, readKeyParts, trimmed, part]
    rfl
  have read := marked _ (Nat.lt_succ_self _)
  rw [readStatements, trimmed] at read
  simp [skipNewline?, readStatement, readKey, parts] at read

end JavaMigration.Toml
