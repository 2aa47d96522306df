import JavaMigration.Proofs.Entries
import JavaMigration.Proofs.Text.Bytes

/-!
# Charsets of single bytes

Texts are stored in UTF-8. A reader who takes the bytes to be of a charset with one byte for every
character finds the text as it is where all of it is ASCII, and nowhere else.
-/

namespace JavaMigration.Text

def IsAscii (s : String) : Prop :=
  ∀ c ∈ s.toList, c.toNat ≤ 127

instance : DecidablePred IsAscii :=
  fun s => List.decidableBAll (fun c : Char => c.toNat ≤ 127) s.toList

@[simp]
theorem isAscii_append {s t : String} : IsAscii (s ++ t) ↔ IsAscii s ∧ IsAscii t := by
  simp only [IsAscii, String.toList_append, List.forall_mem_append]

theorem IsAscii.of_part {s t : String} (h : IsAscii s) (within : t.toList <:+: s.toList) :
    IsAscii t :=
  fun c mem => h c (within.subset mem)

theorem isAscii_ofList {s : List Char} : IsAscii (String.ofList s) ↔ ∀ c ∈ s, c.toNat ≤ 127 := by
  rw [IsAscii, String.toList_ofList]

/-- The charsets that have the ASCII characters in their places, and at most one byte for each. -/
inductive Charset
  | usAscii | latin1
deriving DecidableEq, Repr

namespace Charset

def ofName? (name : String) : Option Charset :=
  if name.toUpper = "US-ASCII" then some usAscii
  else if name.toUpper = "ISO-8859-1" then some latin1
  else none

def decodeByte? : Charset → UInt8 → Option Char
  | usAscii, b => if b.toNat ≤ 127 then some (Char.ofNat b.toNat) else none
  | latin1, b => some (Char.ofNat b.toNat)

/-- The text that a reader finds in the bytes. -/
def decode? (c : Charset) (stored : List UInt8) : Option String :=
  (stored.mapM c.decodeByte?).map String.ofList

end Charset

variable {chars : List Char}

theorem utf8EncodeChar_of_ascii {c : Char} (ascii : c.toNat ≤ 127) :
    String.utf8EncodeChar c = [UInt8.ofNat c.toNat] :=
  if_pos ascii

theorem flatMap_utf8EncodeChar_of_ascii (ascii : ∀ c ∈ chars, c.toNat ≤ 127) :
    chars.flatMap String.utf8EncodeChar = chars.map fun c => UInt8.ofNat c.toNat := by
  induction chars with
  | nil => rfl
  | cons c chars ih =>
    obtain ⟨own, ascii⟩ := List.forall_mem_cons.1 ascii
    rw [List.flatMap_cons, utf8EncodeChar_of_ascii own, ih ascii]
    rfl

theorem length_le_flatMap_utf8EncodeChar (chars : List Char) :
    chars.length ≤ (chars.flatMap String.utf8EncodeChar).length := by
  induction chars with
  | nil => exact Nat.le_refl _
  | cons c chars ih =>
    have positive := c.utf8Size_pos
    rw [List.flatMap_cons, List.length_append, String.length_utf8EncodeChar, List.length_cons]
    omega

/-- A text with no more bytes than characters is ASCII. -/
theorem ascii_of_length (short : (chars.flatMap String.utf8EncodeChar).length ≤ chars.length) :
    ∀ c ∈ chars, c.toNat ≤ 127 := by
  induction chars with
  | nil => exact nofun
  | cons c chars ih =>
    have positive := c.utf8Size_pos
    have others := length_le_flatMap_utf8EncodeChar chars
    rw [List.flatMap_cons, List.length_append, String.length_utf8EncodeChar,
      List.length_cons] at short
    have single : c.utf8Size = 1 := by omega
    have own : c.toNat ≤ 127 := Char.utf8Size_eq_one_iff.1 single
    intro d mem
    rcases List.mem_cons.1 mem with rfl | mem
    · exact own
    · exact ih (by omega) d mem

theorem decodeByte?_of_ascii (charset : Charset) {c : Char} (ascii : c.toNat ≤ 127) :
    charset.decodeByte? (UInt8.ofNat c.toNat) = some c := by
  have byte : (UInt8.ofNat c.toNat).toNat = c.toNat :=
    UInt8.toNat_ofNat_of_lt' (Nat.lt_of_le_of_lt ascii (by decide))
  cases charset with
  | usAscii => rw [Charset.decodeByte?, byte, if_pos ascii, Char.ofNat_toNat]
  | latin1 => rw [Charset.decodeByte?, byte, Char.ofNat_toNat]

/-- The stored text is found as it is in a charset of single bytes exactly if it is ASCII. -/
theorem decode?_bytes (charset : Charset) (s : String) :
    charset.decode? (bytes s) = some s ↔ IsAscii s := by
  rw [bytes_eq, Charset.decode?]
  constructor
  · intro found
    obtain ⟨chars, decoded, rfl⟩ := Option.map_eq_some_iff.1 found
    have length := length_of_mapM decoded
    rw [String.toList_ofList] at length
    rw [isAscii_ofList]
    exact ascii_of_length length.ge
  · intro ascii
    rw [flatMap_utf8EncodeChar_of_ascii ascii,
      mapM_map_eq_some fun c mem => decodeByte?_of_ascii charset (ascii c mem)]
    exact congrArg some String.ofList_toList

end JavaMigration.Text
