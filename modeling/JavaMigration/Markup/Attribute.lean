import JavaMigration.Markup.Entity

/-!
# Attribute lists

The part of a tag that follows its name: keys, equals signs and quoted values. Offsets count bytes
from the start of the tag's content.
-/

namespace JavaMigration.Markup

open Text

/-- The white space of markup, which separates names and attributes. -/
def isSpace (c : Char) : Bool :=
  c = ' ' || c = '\t' || c = '\n' || c = '\r'

inductive AttributeError
  | expectedEquals (offset : Nat)
  | expectedValue (offset : Nat)
  | unquotedValue (offset : Nat)
  | unclosedValue (offset : Nat) (quote : Char)
  | duplicated (offset earlier : Nat)
deriving DecidableEq, Repr

def AttributeError.message : AttributeError → String
  | .expectedEquals n =>
    s!"position {n}: attribute key must be directly followed by `=` or space"
  | .expectedValue n => s!"position {n}: `=` must be followed by an attribute value"
  | .unquotedValue n => s!"position {n}: attribute value must be enclosed in `\"` or `'`"
  | .unclosedValue n quote => s!"position {n}: missing closing quote `{quote}` in attribute value"
  | .duplicated n earlier =>
    s!"position {n}: duplicated attribute, previous declaration at position {earlier}"

/-- One attribute as it stands in a tag. An unreadable value is the last thing in the list. -/
structure RawAttribute where
  key : List Char
  offset : Nat
  value : Except AttributeError (List Char)

/-- The attributes of a tag up to the first key without an equals sign, and the error there. -/
structure AttributeList where
  attributes : List RawAttribute
  failure : Option AttributeError

/--
Reads attributes from the rest `s` of a tag's content, at offset `n` of `total`. A key takes at
least one character, whatever it is; the next key may follow a closing quote directly.
-/
def scanAttributes (total n : Nat) (s : List Char) : AttributeList :=
  match hs : s.dropWhile isSpace with
  | [] => ⟨[], none⟩
  | first :: rest =>
    let start := n + width (s.takeWhile isSpace)
    let inKey (c : Char) := c ≠ '=' && !isSpace c
    let key := first :: rest.takeWhile inKey
    let gap := (rest.dropWhile inKey).takeWhile isSpace
    let equals := start + width key + width gap
    match he : (rest.dropWhile inKey).dropWhile isSpace with
    | [] => ⟨[], some (.expectedEquals total)⟩
    | c :: afterEquals =>
      if c ≠ '=' then ⟨[], some (.expectedEquals equals)⟩
      else
        let opening := equals + 1 + width (afterEquals.takeWhile isSpace)
        match hq : afterEquals.dropWhile isSpace with
        | [] => ⟨[⟨key, start, .error (.expectedValue total)⟩], none⟩
        | quote :: body =>
          if quote ≠ '"' && quote ≠ '\'' then
            ⟨[⟨key, start, .error (.unquotedValue opening)⟩], none⟩
          else
            let value := body.takeWhile (· ≠ quote)
            match hc : body.dropWhile (· ≠ quote) with
            | [] => ⟨[⟨key, start, .error (.unclosedValue total quote)⟩], none⟩
            | _ :: after =>
              have : after.length < s.length := by
                have h1 := (List.dropWhile_sublist isSpace (l := s)).length_le
                have h2 := (List.dropWhile_sublist inKey (l := rest)).length_le
                have h3 := (List.dropWhile_sublist isSpace (l := rest.dropWhile inKey)).length_le
                have h4 := (List.dropWhile_sublist isSpace (l := afterEquals)).length_le
                have h5 := (List.dropWhile_sublist (· ≠ quote) (l := body)).length_le
                rw [hs] at h1
                rw [he] at h3
                rw [hq] at h4
                rw [hc] at h5
                simp only [List.length_cons] at h1 h3 h4 h5
                omega
              let others := scanAttributes total (opening + 1 + width value + 1) after
              ⟨⟨key, start, .ok value⟩ :: others.attributes, others.failure⟩
termination_by s.length

/-- Why a tag's attributes are refused. -/
inductive TagError
  | attribute (e : AttributeError)
  | entity (e : EntityError)
deriving DecidableEq, Repr

def TagError.message : TagError → String
  | .attribute e => e.message
  | .entity e => e.message

/--
The attributes with their references resolved, in order. A key that `seen` lists, with its offset,
is refused before its value is looked at.
-/
def resolveAttributes (seen : List (List Char × Nat)) :
    List RawAttribute → Except TagError (List (String × String))
  | [] => .ok []
  | a :: rest =>
    match seen.lookup a.key with
    | some earlier => .error (.attribute (.duplicated a.offset earlier))
    | none =>
      match a.value with
      | .error e => .error (.attribute e)
      | .ok value =>
        match unescapeList value with
        | .error e => .error (.entity e)
        | .ok value =>
          (resolveAttributes (seen ++ [(a.key, a.offset)]) rest).map
            ((String.ofList a.key, String.ofList value) :: ·)

/-- The attributes of a start tag, given its content from offset `n` on. -/
def readAttributes (total n : Nat) (s : List Char) : Except TagError (List (String × String)) := do
  let list := scanAttributes total n s
  let attributes ← resolveAttributes [] list.attributes
  match list.failure with
  | some e => .error (.attribute e)
  | none => .ok attributes

end JavaMigration.Markup
