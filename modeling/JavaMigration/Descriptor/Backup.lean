import JavaMigration.Descriptor.File

/-!
# Backups

Copies of descriptors under names of their own. The name holds a time stamp; where it is taken, the
first free number is appended, so no backup replaces anything.
-/

namespace JavaMigration.Descriptor

/-- The name of a backup: the first one bears no number. -/
def backupPath (p : Path) (stamp : String) (n : Nat) : Path :=
  ⟨p.bytes ++ Text.bytes (".backup-" ++ stamp ++ if n = 0 then "" else s!"-{n}")⟩

/-- Where a new file goes, if nothing is there. -/
def vacancy (t : FileTree) (p : Path) : Except FileError (Option Location) := do
  let l ← if FileTree.namesDirectory p then t.target p else t.locate p
  .ok (if (t.entry? l).isSome then none else some l)

/--
The first free backup name from number `n` on, among the next `fuel` ones. Numbers have no bound
here; a tree with `2 ^ 32` copies of one stamp, at which a number of 32 bits would start again, does
not come about.
-/
def freeBackup (t : FileTree) (p : Path) (stamp : String) :
    (fuel n : Nat) → Except FileError (Path × Location)
  | 0, _ => .error .notFound
  | fuel + 1, n => do
    match ← vacancy t (backupPath p stamp n) with
    | some l => .ok (backupPath p stamp n, l)
    | none => freeBackup t p stamp fuel (n + 1)

/--
Copies the file at a path to its first free backup name. One more name than there are entries is
enough, since all names differ. Of a directory only an empty copy is left, of what cannot be opened
none.
-/
def createBackup (t : FileTree) (p : Path) (stamp : String) :
    FileTree × Except DescriptorError Path :=
  let free := do
    match ← t.find p with
    | (_, .special) => .error .noDevice
    | _ => freeBackup t p stamp (t.entries.length + 2) 0
  match free with
  | .error e => (t, .error (.backup p e))
  | .ok (copy, l) =>
    match t.content p with
    | .ok content => (t.put l (.file content), .ok copy)
    | .error e => (t.put l (.file .empty), .error (.backup p e))

end JavaMigration.Descriptor
