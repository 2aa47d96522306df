/-!
# Bytes of texts

A text is stored in UTF-8, character by character. Bytes that are no text are still shown as one:
wherever no character begins, or one that has begun does not go on, a replacement character stands
for what has been read of it.
-/

namespace JavaMigration.Text

/-- The bytes that a text is stored as. -/
def bytes (s : String) : List UInt8 :=
  s.toList.flatMap String.utf8EncodeChar

instance coeBytes : Coe String (List UInt8) where
  coe := bytes

/-- A character of several bytes that has begun. -/
structure Begun where
  /-- What its bytes stand for so far. -/
  value : Nat
  /-- How many bytes are to come. -/
  missing : Nat
  low : UInt8 := 0x80
  high : UInt8 := 0xbf
deriving DecidableEq

namespace Begun

/-- The character that begins with a byte. The next byte rules out what is written too long. -/
def ofByte? (b : UInt8) : Option Begun :=
  if 0xc2 ≤ b && b ≤ 0xdf then some { value := b.toNat % 32, missing := 1 }
  else if b = 0xe0 then some { value := 0, missing := 2, low := 0xa0 }
  else if b = 0xed then some { value := 13, missing := 2, high := 0x9f }
  else if 0xe1 ≤ b && b ≤ 0xef then some { value := b.toNat % 16, missing := 2 }
  else if b = 0xf0 then some { value := 0, missing := 3, low := 0x90 }
  else if b = 0xf4 then some { value := 4, missing := 3, high := 0x8f }
  else if 0xf1 ≤ b && b ≤ 0xf3 then some { value := b.toNat % 8, missing := 3 }
  else none

def add (b : UInt8) (c : Begun) : Begun :=
  { value := c.value * 64 + b.toNat % 64, missing := c.missing - 1 }

end Begun

def replacement : Char := '\ufffd'

/-- What a byte stands for outside a character, and the character that it begins. -/
def showFirst (b : UInt8) : List Char × Option Begun :=
  if b < 0x80 then ([Char.ofNat b.toNat], none)
  else
    match Begun.ofByte? b with
    | some c => ([], some c)
    | none => ([replacement], none)

/-- What is shown with the next byte, and the character that is open after it. -/
def showNext (begun : Option Begun) (b : UInt8) : List Char × Option Begun :=
  match begun with
  | none => showFirst b
  | some c =>
    if c.low ≤ b && b ≤ c.high then
      if c.missing = 1 then ([Char.ofNat (c.add b).value], none) else ([], some (c.add b))
    else (replacement :: (showFirst b).1, (showFirst b).2)

def lossyFrom : Option Begun → List UInt8 → List Char
  | none, [] => []
  | some _, [] => [replacement]
  | begun, b :: rest => (showNext begun b).1 ++ lossyFrom (showNext begun b).2 rest

/-- The text that bytes are shown as, also if they are none. -/
def lossy (stored : List UInt8) : String :=
  String.ofList (lossyFrom none stored)

end JavaMigration.Text
