import JavaMigration.Proofs.Project.DeclaredVersions
import JavaMigration.Proofs.Project.Sources

/-!
# Scans after an upgrade

What a scan finds out about the Java version of a project whose descriptor is the output of an
upgrade. The descriptor can be read if its names are proper. It declares the target version then,
and the project is at no risk for its Java version, unless some property in front of its own
properties declares another one.
-/

namespace JavaMigration.Project

open Markup Descriptor

variable {t : FileTree} {p : Path} {d : Document} {strategy : Strategy}
  {processors : List Coordinate}

theorem read_eq_ok {y : String} {detection : DetectionSettings} {versions : Versions}
    (stored : t.text p = .ok y) :
    Versions.read detection t p = .ok versions ↔
      ∃ d, Document.parse y = .ok d ∧ Versions.ofProject detection d.root = versions := by
  have present := FileTree.isFile_of_content (FileTree.text_eq_ok.1 stored)
  cases read : Document.parse y <;>
    simp [Versions.read, readDocument, readText, present, stored, read, Except.mapError, bind,
      Except.bind]

/-- What the settings have to be like for an upgrade to set what a scan looks up. -/
structure SetsPlatform (s : UpgradeSettings) (detection : DetectionSettings) (target : String) :
    Prop where
  stable : IsStable s
  mem : detection.platformProperty ∈ s.javaProperties
  set : propertyTexts s detection.platformProperty = some target
  foreign : detection.platformProperty ∉ stepNames
  trimmed : Text.trim target = target

theorem setsPlatform_builtIn : SetsPlatform .builtIn .builtIn "21" where
  stable := by decide
  mem := by decide
  set := by decide +kernel
  foreign := by decide
  trimmed := by decide

namespace SetsPlatform

variable {s : UpgradeSettings} {detection : DetectionSettings} {target : String}

/-- An upgraded project declares the target version, or what stands in front of it. -/
theorem java_ofProject (h : SetsPlatform s detection target) (strategy : Strategy)
    (processors : List Coordinate) (project : Element) :
    (Versions.ofProject detection (upgradeRoot s strategy processors project)).java =
      match earlier? detection.platformProperty (upgradeRoot s strategy processors project) with
      | some declared => declared.trimmedText?
      | none => some target := by
  obtain ⟨properties, c, own, found, text⟩ :=
    exists_child?_upgradeRoot h.stable h.mem h.set strategy processors project
  have declared := property?_eq own found
  rw [Versions.ofProject, declared]
  cases earlier? detection.platformProperty (upgradeRoot s strategy processors project) with
  | none => rw [Option.getD_none, text, h.trimmed]
  | some e => rfl

/-- The text of an upgraded document declares what its tree does, unless that is blank. -/
theorem read_upgradeAt (h : SetsPlatform s detection target) (readable : d.IsReadable)
    (stored : t.text p = .ok (upgradeAt s strategy processors d).render) :
    ∃ versions, Versions.read detection t p = .ok versions ∧
      versions.java = (Versions.ofProject detection
        (upgradeRoot s strategy processors d.root)).java.filter (· ≠ "") := by
  have parsed := Document.parse_render_reread
    (isReadable_upgradeAt h.stable strategy processors readable)
  refine ⟨_, (read_eq_ok stored).2 ⟨_, parsed, rfl⟩, ?_⟩
  have same := property?_with_leading detection.platformProperty
    (upgradeRoot s strategy processors d.root).normal []
  exact same.trans (property?_normal _ _)

end SetsPlatform

theorem versions_of_scan {enumerate : Enumeration} {settings : Settings} {root : Path}
    {versions : Versions} {snapshot : Snapshot}
    (read : Versions.read settings.detection t (root.join ⟨FileMatcher.descriptorName⟩) =
      .ok versions)
    (scanned : scan enumerate settings t root = .ok snapshot) : snapshot.versions = versions := by
  have found : rootVersions settings.detection t root = .ok versions := by
    rw [rootVersions, read]
    rfl
  obtain ⟨-, descriptors, sources, -, -, rfl⟩ := scan_eq_ok.1 scanned
  simp only [snapshotOf, found]
  rfl

/-- Only the rule about the Java version raises a finding about it. -/
theorem javaRisk?_of_mem_assess {r : RiskSettings} {snapshot : Snapshot} {f : Finding}
    (mem : f ∈ assess r snapshot) (about : f.item = "JDK version too low") :
    javaRisk? r snapshot = some f := by
  simp only [assess, List.mem_filterMap, id, exists_eq_right, List.mem_cons, List.not_mem_nil,
    or_false] at mem
  rcases mem with found | found | found | found | found
  · exact found.symm
  · obtain ⟨version, -, found⟩ := Option.bind_eq_some_iff.1 found.symm
    split at found <;> cases found
    simp at about
  · simp only [usageRisk?] at found
    split at found
    · cases found
      simp at about
    · split at found <;> cases found
      simp at about
  · unfold apiRisk? at found
    split at found <;> cases found
    simp at about
  · unfold moduleRisk? at found
    split at found <;> cases found
    simp at about

def holding (y : String) : FileTree where
  entries := [(["pom.xml"], .file y.toUTF8)]
  ascending := List.pairwise_singleton _ _

theorem text_holding (y : String) : (holding y).text ⟨"/pom.xml"⟩ = .ok y := by
  rw [FileTree.text_eq_ok]
  apply FileTree.content_eq_of_find (l := ["pom.xml"])
  rw [FileTree.find_eq_ok]
  exact ⟨rfl, rfl⟩

theorem exists_scan_holding (y : String) (settings : Settings) :
    ∃ snapshot, scan (fun _ _ _ => .ok []) settings (holding y) ⟨"/"⟩ = .ok snapshot := by
  have directory : (holding y).isDirectory ⟨"/"⟩ = true := rfl
  exact ⟨_, if_pos directory⟩

theorem spellsMark_start_slash : SpellsMark "<b/>" (.empty "b" []) := by
  refine ⟨['b', '/', '>'], by decide, ?_⟩
  have tag : IsTag "b" [] := ⟨by decide, by simp, by simp⟩
  exact readsMark_empty tag

theorem spellsMark_stop_slash : SpellsMark "</b/>" (.stop "b/") := by
  refine ⟨['/', 'b', '/', '>'], by decide, ?_⟩
  intro rest position
  exact ⟨_, rfl, rfl, rfl⟩

/-- A root whose name ends with a slash is read back as an empty one, its text as one outside. -/
theorem parse_render_slash {children : List Element}
    (writable : ∀ c ∈ children, c.All Element.IsWritable) :
    ∃ fault, Document.parse
      (Document.render { root := { name := "b/", text := some "t", children } }) =
        .error fault := by
  have solid : solidText? (some "t") = some "t" := by decide
  have header : SpellsMark Declaration.standard.render
      (.declaration (readDeclaration (itemsText Declaration.standard.items))) :=
    ⟨_, Declaration.toList_render _, fun rest => by
      simpa using readsMark_header _ (by decide) rest⟩
  have root := @Element.spells_tagPieces 0 { name := "b/", text := some "t", children } _ _
    (by simp [Element.isVacant, solid]) spellsMark_start_slash spellsMark_stop_slash
    (fun c mem => Element.spells_pieces 1 (writable c mem)) (by simp)
  have pieces : Document.pieces { root := { name := "b/", text := some "t", children } } =
      .mark 0 Declaration.standard.render ::
        Element.tagPieces 0 { name := "b/", text := some "t", children } := by
    rw [Document.pieces, Element.pieces_eq]
    simp
  obtain ⟨located, length, same, read⟩ := Document.exists_reading (pieces ▸ Spells.mark header root)
  simp only [solid, Option.toList_some, List.map_cons, List.map_nil, List.cons_append] at same
  obtain ⟨first, rest, rfl, isHeader, same⟩ := List.map_eq_cons_iff.1 same
  obtain ⟨second, rest, rfl, isRoot, same⟩ := List.map_eq_cons_iff.1 same
  obtain ⟨third, rest, rfl, isText, -⟩ := List.map_eq_cons_iff.1 same
  have solid : Text.allBlank "t" = false := by decide
  refine ⟨.malformed ⟨third.stop, "text outside the root element"⟩, read.trans ?_⟩
  simp [Document.ofReading, Draft.step, isHeader, isRoot, isText, Draft.close, Draft.addText, solid,
    bind, Except.bind]

theorem item_ne_of_target {snapshot : Snapshot} (target : snapshot.versions.java = some "21") :
    ∀ f ∈ assess .builtIn snapshot, f.item ≠ "JDK version too low" := by
  intro f mem about
  have raised := javaRisk?_of_mem_assess mem about
  rw [javaRisk?, target] at raised
  simp [RiskSettings.builtIn] at raised

theorem exists_item_of_old {snapshot : Snapshot} (old : snapshot.versions.java = some "1.7") :
    ∃ f ∈ assess .builtIn snapshot, f.item = "JDK version too low" := by
  have raised : ∃ f, javaRisk? .builtIn snapshot = some f ∧ f.item = "JDK version too low" := by
    rw [javaRisk?, old]
    exact ⟨_, rfl, rfl⟩
  obtain ⟨f, raised, about⟩ := raised
  exact ⟨f, by simp [assess, raised], about⟩

/--
What an upgrade with the built-in settings declares as the Java version: that of the first list of
properties, in document order, that stands in front of the properties of the project and has one,
and the target version where none has, as is the case if none had before. Where the names of a
descriptor are proper, this is read from the output, and where none stands in front, a scan never
raises the finding that the Java version is too low.
-/
theorem upgrade_declares_target (strategy : Strategy) {xml : String} {d : Document}
    (read : Document.parse xml = .ok d) :
    ∃ y changes root, upgradeText .builtIn strategy xml = .ok (y, changes) ∧
      upgradeProject .builtIn strategy d.root = .ok (root, changes) ∧
      (Versions.ofProject .builtIn root).java =
        (match earlier? "java.version" root with
        | some declared => declared.trimmedText?
        | none => some "21") ∧
      (earlier? "java.version" d.root = none → earlier? "java.version" root = none) ∧
      ((d.root.All fun e => IsName e.name ∧ ∀ a ∈ e.attributes, IsName a.1) →
        ∀ (t : FileTree) (p : Path), t.text p = .ok y →
          ∃ versions, Versions.read .builtIn t p = .ok versions ∧
            versions.java = (Versions.ofProject .builtIn root).java.filter (· ≠ "") ∧
            (earlier? "java.version" root = none → versions.java = some "21" ∧
              ∀ (enumerate : Enumeration) (settings : Settings) (directory : Path)
                (snapshot : Snapshot), settings.detection = .builtIn →
                p = directory.join ⟨FileMatcher.descriptorName⟩ →
                scan enumerate settings t directory = .ok snapshot →
                snapshot.versions = versions ∧
                  ∀ f ∈ assess .builtIn snapshot, f.item ≠ "JDK version too low")) := by
  have sets := setsPlatform_builtIn
  obtain ⟨processors, found⟩ := exists_processors_builtIn strategy
  have java := sets.java_ofProject strategy processors d.root
  refine ⟨_, _, upgradeRoot .builtIn strategy processors d.root,
    upgradeText_eq_ok.2 ⟨d, processors, read, found, rfl, rfl⟩, ?_, java, ?_, ?_⟩
  · rw [upgradeProject_eq, found]
    rfl
  · exact earlier?_upgradeRoot .builtIn sets.foreign strategy processors
  intro names t p stored
  obtain ⟨versions, reads, declared⟩ :=
    sets.read_upgradeAt (Document.isReadable_of_parse read names) stored
  refine ⟨versions, reads, declared, ?_⟩
  intro absent
  have target : versions.java = some "21" := by
    have none : earlier? DetectionSettings.builtIn.platformProperty
        (upgradeRoot .builtIn strategy processors d.root) = none := absent
    rw [declared, java, none]
    rfl
  refine ⟨target, ?_⟩
  rintro enumerate settings directory snapshot detection rfl scanned
  have same : snapshot.versions = versions := versions_of_scan (detection ▸ reads) scanned
  exact ⟨same, item_ne_of_target (same ▸ target)⟩

/-- A project with its properties in front of those of a profile. -/
theorem upgrade_declares_target_profile :
    let x := "<project><properties/><profile><properties><java.version>6</java.version>" ++
      "</properties></profile></project>"
    ∃ d y changes versions snapshot, Document.parse x = .ok d ∧
      (d.root.All fun e => IsName e.name ∧ ∀ a ∈ e.attributes, IsName a.1) ∧
      earlier? "java.version" d.root = none ∧
      upgradeText .builtIn .bomImport x = .ok (y, changes) ∧
      (holding y).text ⟨"/pom.xml"⟩ = .ok y ∧
      Versions.read .builtIn (holding y) ⟨"/pom.xml"⟩ = .ok versions ∧
      versions.java = some "21" ∧
      scan (fun _ _ _ => .ok []) {} (holding y) ⟨"/"⟩ = .ok snapshot ∧
      ∀ f ∈ assess .builtIn snapshot, f.item ≠ "JDK version too low" := by
  intro x
  let profile : Element :=
    { name := "profile",
      children :=
        [{ name := "properties", children := [{ name := "java.version", text := some "6" }] }] }
  let d : Document :=
    { root := { name := "project", children := [{ name := "properties" }, profile] } }
  have read : Document.parse x = .ok d := by decide +kernel
  have names : d.root.All fun e => IsName e.name ∧ ∀ a ∈ e.attributes, IsName a.1 := by decide
  have absent : earlier? "java.version" d.root = none := by decide
  obtain ⟨y, changes, root, upgraded, -, -, kept, reads⟩ := upgrade_declares_target .bomImport read
  obtain ⟨versions, found, -, after⟩ := reads names (holding y) ⟨"/pom.xml"⟩ (text_holding y)
  obtain ⟨target, scans⟩ := after (kept absent)
  obtain ⟨snapshot, scanned⟩ := exists_scan_holding y {}
  have quiet := (scans _ {} ⟨"/"⟩ snapshot rfl (by decide) scanned).2
  exact ⟨d, y, changes, versions, snapshot, read, names, absent, upgraded, text_holding y, found,
    target, scanned, quiet⟩

/--
A project whose profile stands in front of the properties that the upgrade sets, and one with a name
that is read but not read back.
-/
theorem upgrade_hides_target :
    (let x := "<project><profiles><profile><properties><java.version>1.7</java.version>" ++
        "</properties></profile></profiles></project>"
      ∃ y changes versions, upgradeText .builtIn .bomImport x = .ok (y, changes) ∧
        (holding y).text ⟨"/pom.xml"⟩ = .ok y ∧
        Versions.read .builtIn (holding y) ⟨"/pom.xml"⟩ = .ok versions ∧
        versions.java = some "1.7" ∧
        ∀ snapshot : Snapshot, snapshot.versions = versions →
          ∃ f ∈ assess .builtIn snapshot, f.item = "JDK version too low") ∧
    (let x := "<b/ >t</b/>"
      ∃ y changes, upgradeText .builtIn .parentInheritance x = .ok (y, changes) ∧
        (holding y).text ⟨"/pom.xml"⟩ = .ok y ∧
        ∀ versions, Versions.read .builtIn (holding y) ⟨"/pom.xml"⟩ ≠ .ok versions) := by
  constructor
  · intro x
    let properties : Element :=
      { name := "properties", children := [{ name := "java.version", text := some "1.7" }] }
    let profiles : Element :=
      { name := "profiles", children := [{ name := "profile", children := [properties] }] }
    let d : Document := { root := { name := "project", children := [profiles] } }
    let processors : List Coordinate := [⟨"org.projectlombok", "lombok", "1.18.36"⟩,
      ⟨"org.mapstruct", "mapstruct-processor", "1.5.5.Final"⟩]
    have read : Document.parse x = .ok d := by decide +kernel
    have found : processorsFor .builtIn .bomImport = .ok processors := processorsFor_builtIn
    have names : d.root.All fun e => IsName e.name ∧ ∀ a ∈ e.attributes, IsName a.1 := by decide
    have upgraded := upgradeText_eq_ok.2 ⟨d, processors, read, found, rfl, rfl⟩
    obtain ⟨versions, reads, declared⟩ := setsPlatform_builtIn.read_upgradeAt
      (Document.isReadable_of_parse read names) (text_holding _)
    have java : (Versions.ofProject .builtIn
        (upgradeRoot .builtIn .bomImport processors d.root)).java = some "1.7" := by
      decide +kernel
    have old : versions.java = some "1.7" := by
      rw [declared, java]
      rfl
    refine ⟨_, _, versions, upgraded, text_holding _, reads, old, ?_⟩
    intro snapshot same
    exact exists_item_of_old (same ▸ old)
  · intro x
    let d : Document := { root := { name := "b/", text := some "t" } }
    have read : Document.parse x = .ok d := by decide +kernel
    have found : processorsFor .builtIn .parentInheritance = .ok [] := rfl
    have upgraded := upgradeText_eq_ok.2 ⟨d, [], read, found, rfl, rfl⟩
    have root : upgradeRoot .builtIn .parentInheritance [] d.root =
        { name := "b/", text := some "t",
          children := (upgradeRoot .builtIn .parentInheritance [] d.root).children } := by
      decide +kernel
    have writable : ∀ c ∈ (upgradeRoot .builtIn .parentInheritance [] d.root).children,
        c.All Element.IsWritable := by
      decide +kernel
    obtain ⟨fault, unread⟩ := parse_render_slash writable
    refine ⟨_, _, upgraded, text_holding _, ?_⟩
    intro versions reads
    obtain ⟨d', parsed, -⟩ := (read_eq_ok (text_holding _)).1 reads
    rw [upgradeAt, root, unread] at parsed
    cases parsed

end JavaMigration.Project
