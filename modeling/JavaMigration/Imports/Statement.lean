import JavaMigration.Text.Blank
import JavaMigration.Text.Word

/-!
# Import statements

Where in a source text a name is imported. An import is the word `import`, at least one blank
character and a name; it counts wherever it stands, also within comments and strings.
-/

namespace JavaMigration.Imports

open Text

/-- What follows `start` in a text that begins with it. -/
def stripStart? (start s : List Char) : Option (List Char) :=
  if start.isPrefixOf s then some (s.drop start.length) else none

/-- The first result of `f` after at least one blank character, most blank characters first. -/
def afterBlanks? {α : Type} (f : List Char → Option α) : List Char → Option α
  | [] => none
  | c :: rest => if isBlank c then afterBlanks? f rest <|> f rest else none

def keyword : List Char := ['i', 'm', 'p', 'o', 'r', 't']

/-- The result of `f` on what is imported at the start of a text. -/
def importing? {α : Type} (f : List Char → Option α) (s : List Char) : Option α :=
  (stripStart? keyword s).bind (afterBlanks? f)

/-- Whether a word can start after the character `previous`. -/
def isBoundary (previous : Option Char) : Bool :=
  !(previous.map isWord).getD false

/-- Whether some import in the text, which `previous` precedes, starts with `name`. -/
def imports (name : List Char) (previous : Option Char) : List Char → Bool
  | [] => false
  | c :: rest =>
    ((importing? (stripStart? name) (c :: rest)).isSome && isBoundary previous) ||
      imports name (some c) rest

/-- The characters of the rest of an imported name. -/
def isNameChar (c : Char) : Bool :=
  c.isAlphanum || c = '_' || c = '.' || c = '*'

/-- A name below the namespace `source` up to its semicolon: its rest, and what follows it. -/
def nameBelow? (source s : List Char) : Option (List Char × List Char) := do
  let s ← stripStart? (source ++ ['.']) s
  let name := s.takeWhile isNameChar
  match s.dropWhile isNameChar with
  | ';' :: after => if name.isEmpty then none else some (name, after)
  | _ => none

/-- An import of a name below `source`, at the start of a text. -/
def importBelow? (source s : List Char) : Option (List Char × List Char) :=
  importing? (nameBelow? source) s

theorem length_of_stripStart {start s t : List Char} (h : stripStart? start s = some t) :
    t.length + start.length ≤ s.length := by
  simp only [stripStart?] at h
  split at h
  · rename_i hp
    have := (List.isPrefixOf_iff_prefix.1 hp).length_le
    cases h
    simp
    omega
  · simp at h

theorem length_of_afterBlanks {α : Type} {f : List Char → Option (α × List Char)} {s : List Char}
    {r : α × List Char} (hf : ∀ t r, f t = some r → r.2.length ≤ t.length)
    (h : afterBlanks? f s = some r) : r.2.length ≤ s.length := by
  induction s with
  | nil => simp [afterBlanks?] at h
  | cons c rest ih =>
    simp only [afterBlanks?] at h
    split at h
    · cases ht : afterBlanks? f rest with
      | none =>
        have := hf _ _ (by simpa [ht] using h)
        simp only [List.length_cons]
        omega
      | some r' =>
        have := ih (by simpa [ht] using h)
        simp only [List.length_cons]
        omega
    · simp at h

theorem length_of_nameBelow {source s name after : List Char}
    (h : nameBelow? source s = some (name, after)) : after.length ≤ s.length := by
  simp only [nameBelow?, Option.bind_eq_bind, Option.bind_eq_some_iff] at h
  obtain ⟨t, ht, h⟩ := h
  have h1 := length_of_stripStart ht
  have h2 := (List.dropWhile_sublist isNameChar (l := t)).length_le
  split at h
  · rename_i rest hr
    split at h
    · simp at h
    · cases h
      rw [hr, List.length_cons] at h2
      omega
  · simp at h

theorem length_of_importBelow {source s name after : List Char}
    (h : importBelow? source s = some (name, after)) : after.length < s.length := by
  simp only [importBelow?, importing?, Option.bind_eq_some_iff] at h
  obtain ⟨t, ht, h⟩ := h
  have h1 := length_of_stripStart ht
  have h2 := length_of_afterBlanks (fun _ _ h => length_of_nameBelow h) h
  simp only [keyword, List.length_cons, List.length_nil] at h1 h2
  omega

end JavaMigration.Imports
