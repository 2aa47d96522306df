/-!
# Blank characters

The white space of Unicode, and texts trimmed of it at both ends.
-/

namespace JavaMigration.Text

/-- The characters with the Unicode property `White_Space`. -/
def isBlank (c : Char) : Bool :=
  (9 ≤ c.toNat && c.toNat ≤ 13) || c.toNat = 32 || c.toNat = 0x85 || c.toNat = 0xA0 ||
  c.toNat = 0x1680 || (0x2000 ≤ c.toNat && c.toNat ≤ 0x200A) || c.toNat = 0x2028 ||
  c.toNat = 0x2029 || c.toNat = 0x202F || c.toNat = 0x205F || c.toNat = 0x3000

/-- `s` without the characters of the class `p` at its end. -/
def trimEndList (p : Char → Bool) (s : List Char) : List Char :=
  (s.reverse.dropWhile p).reverse

/-- `s` without the characters of the class `p` at either end. -/
def trimList (p : Char → Bool) (s : List Char) : List Char :=
  trimEndList p (s.dropWhile p)

/-- `s` without blank characters at either end. -/
def trim (s : String) : String :=
  String.ofList (trimList isBlank s.toList)

/-- Whether `s` has no character that is not blank. -/
def allBlank (s : String) : Bool :=
  s.toList.all isBlank

/-- The number of bytes that `s` takes in UTF-8. -/
def width : List Char → Nat
  | [] => 0
  | c :: s => c.utf8Size + width s

@[simp] theorem width_nil : width [] = 0 := rfl

@[simp] theorem width_cons (c : Char) (s : List Char) : width (c :: s) = c.utf8Size + width s := rfl

@[simp] theorem width_append (s t : List Char) : width (s ++ t) = width s + width t := by
  induction s with
  | nil => simp
  | cons c s ih => simp [ih, Nat.add_assoc]

end JavaMigration.Text
