/-!
# Powers

The powers of natural numbers that the scales of binary and decimal numbers are made of.
-/

namespace JavaMigration.Number

/-- `base ^ n`. -/
def power (base n : Nat) : Nat :=
  Nat.pow base n

/-- The scale of `n` binary digits. -/
def twoTo (n : Nat) : Nat :=
  power 2 n

/-- The scale of `n` decimal digits. -/
def tenTo (n : Nat) : Nat :=
  power 10 n

end JavaMigration.Number
