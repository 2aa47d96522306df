import JavaMigration.Detection
import JavaMigration.Project.DeclaredVersions
import JavaMigration.Project.Report
import JavaMigration.Walk

/-!
# Scanning a project

A scan takes the snapshot of a project from its files. Files that cannot be read are left out with a
warning each: first the descriptors, then the one at the root, then the sources.
-/

namespace JavaMigration.Project

inductive ScanError
  | rootNotFound (root : Path)
  | walk (e : WalkError)
deriving DecidableEq, Repr

namespace ScanError

def message : ScanError → String
  | rootNotFound root => s!"Project path does not exist: {root.text}"
  | walk e => e.message

def code : ScanError → String
  | rootNotFound _ => "SCAN_ROOT_NOT_FOUND"
  | walk e => e.code

end ScanError

/-- The text of each descriptor, or the warning that it cannot be read. -/
def readDescriptors (t : FileTree) (descriptors : List Path) : List (Except Warning String) :=
  descriptors.map fun p =>
    (t.text p).mapError fun e => ⟨p.text, s!"unreadable descriptor: {e.message}"⟩

def results {ε α : Type} (xs : List (Except ε α)) : List α :=
  xs.filterMap fun
    | .ok a => some a
    | .error _ => none

def faults {ε α : Type} (xs : List (Except ε α)) : List ε :=
  xs.filterMap fun
    | .ok _ => none
    | .error e => some e

/-- The shape of a project, by its descriptors, their texts and the number of its sources. -/
def shapeOf (d : DetectionSettings) (root : Path) (descriptors : List Path) (texts : List String)
    (sourceCount : Nat) : Structure :=
  let isMulti := decide (1 < descriptors.length)
  { topology := if isMulti then .multiModule else .singleModule
    usesFramework := texts.any (mentions d.frameworkMarker)
    descriptorCount := descriptors.length
    sourceCount
    modules :=
      if isMulti then descriptors.map fun p => root.relativeTo (p.parent?.getD root) else [] }

/-- The versions that the descriptor at the root declares, or the warning that it is no use. -/
def rootVersions (d : DetectionSettings) (t : FileTree) (root : Path) : Except Warning Versions :=
  let p := root.join ⟨FileMatcher.descriptorName⟩
  (Versions.read d t p).mapError fun e => ⟨p.text, s!"root descriptor not usable: {e.message}"⟩

/-- A source with the table entries that it imports from. -/
structure SourceHits where
  /-- The path below the root. -/
  path : String
  hits : Hits
deriving DecidableEq, Repr

/-- The hits of each source, or the warning that it cannot be read. -/
def readSources (s : Settings) (t : FileTree) (root : Path) (sources : List Path) :
    List (Except Warning SourceHits) :=
  sources.map fun p =>
    match t.textWithin s.scan.sizeLimit? p with
    | .ok content => .ok ⟨root.relativeTo p, Detection.detect s.detection content⟩
    | .error e => .error ⟨p.text, s!"unreadable source file: {e.message}"⟩

/-- The namespaces that a source imports from, one by one. -/
def namespacesOf (d : DetectionSettings) (source : SourceHits) : List String :=
  source.hits.namespaces.filterMap (d.namespaces[·]?)

/-- How many sources import from each namespace. -/
def namespaceUsage (d : DetectionSettings) (sources : List SourceHits) : ByName Nat :=
  (sources.flatMap (namespacesOf d)).foldl (fun t name => t.count name 1) []

/-- Which sources import from each namespace. -/
def namespaceFiles (d : DetectionSettings) (sources : List SourceHits) : ByName (List String) :=
  let uses := sources.flatMap fun source => (namespacesOf d source).map fun name =>
    (name, source.path)
  uses.foldl (fun t (name, path) => t.update name fun old => insertAscending path (old.getD [])) []

/-- The sources that hit the entry of the table of legacy APIs at a position. -/
def apiFiles (sources : List SourceHits) (position : Nat) : List String :=
  (sources.filter fun source => position ∈ source.hits.deprecated).foldl
    (fun files source => insertAscending source.path files) []

/-- The legacy APIs that some source uses. -/
def apiUsages (d : DetectionSettings) (sources : List SourceHits) : List ApiUsage :=
  d.deprecatedApis.zipIdx.filterMap fun (entry, position) =>
    match apiFiles sources position with
    | [] => none
    | files => some ⟨entry.api, files⟩

/-- The name of a project: that of its directory, as it is shown. -/
def nameOf (t : FileTree) (root : Path) : String :=
  ((t.resolve root).fileName?.map Text.lossy).getD root.text

/-- The snapshot of a project whose descriptors and sources are at the given paths. -/
def snapshotOf (s : Settings) (t : FileTree) (root : Path) (descriptors sources : List Path) :
    Snapshot :=
  let texts := readDescriptors t descriptors
  let versions := rootVersions s.detection t root
  let hits := readSources s t root sources
  { name := nameOf t root
    shape := shapeOf s.detection root descriptors (results texts) sources.length
    versions := (results [versions]).headD {}
    namespaceUsage := namespaceUsage s.detection (results hits)
    namespaceFiles := namespaceFiles s.detection (results hits)
    deprecatedApis := apiUsages s.detection (results hits)
    warnings := faults texts ++ faults [versions] ++ faults hits }

/-- Scans the project in the directory `root`. -/
def scan (enumerate : Enumeration) (s : Settings) (t : FileTree) (root : Path) :
    Except ScanError Snapshot :=
  if t.isDirectory root then do
    let descriptors ← (enumerate t root .descriptors).mapError .walk
    let sources ← (enumerate t root .sources).mapError .walk
    .ok (snapshotOf s t root descriptors sources)
  else .error (.rootNotFound root)

/-- Scans a project and reports on it. -/
def analyze (s : Settings) (time : String) (t : FileTree) (root : Path) :
    Except ScanError Report := do
  let snapshot ← scan (walk s.scan) s t root
  .ok (.ofSnapshot snapshot (assess s.risk snapshot) time)

end JavaMigration.Project
