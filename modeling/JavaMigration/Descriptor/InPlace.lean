import JavaMigration.Descriptor.Backup

/-!
# Upgrading a descriptor in place

The descriptor at a path is replaced by its upgrade, after a backup. Nothing is written to it where
any step fails.
-/

namespace JavaMigration.Descriptor

structure Options where
  strategy : Strategy := .bomImport
  backsUp : Bool := true
deriving DecidableEq, Repr

structure Summary where
  path : Path
  backup : Option Path
  strategy : Strategy
  changes : Changes
deriving DecidableEq, Repr

def upgradedText (s : UpgradeSettings) (strategy : Strategy) (t : FileTree) (p : Path) :
    Except DescriptorError (String × Changes) := do
  (upgradeText s strategy (← readText t p)).mapError .upgrade

/-- Upgrades the descriptor at a path, where the backup is already taken. -/
def replaceByUpgrade (s : UpgradeSettings) (strategy : Strategy) (t : FileTree) (p : Path)
    (backup : Option Path) : FileTree × Except DescriptorError Summary :=
  match upgradedText s strategy t p with
  | .error e => (t, .error e)
  | .ok (xml, changes) =>
    match t.writeText p xml with
    | .error e => (t, .error (.file e))
    | .ok t => (t, .ok ⟨p, backup, strategy, changes⟩)

/-- Upgrades the descriptor at a path. The stamp goes into the name of the backup. -/
def upgradeFile (s : UpgradeSettings) (o : Options) (stamp : String) (t : FileTree) (p : Path) :
    FileTree × Except DescriptorError Summary :=
  if t.isFile p then
    if o.backsUp then
      match createBackup t p stamp with
      | (t, .error e) => (t, .error e)
      | (t, .ok copy) => replaceByUpgrade s o.strategy t p (some copy)
    else replaceByUpgrade s o.strategy t p none
  else (t, .error (.notFound p))

end JavaMigration.Descriptor
