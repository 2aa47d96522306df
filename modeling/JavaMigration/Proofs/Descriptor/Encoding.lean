import JavaMigration.Proofs.Descriptor.Guarantees
import JavaMigration.Proofs.Descriptor.Qualifier
import JavaMigration.Proofs.Markup.Encoding

/-!
# Upgraded descriptors in the charset that they declare

An upgrade keeps the header of a descriptor. Where the settings are ASCII it brings in nothing that
is not, so whether the upgraded descriptor is found in the charset of its header depends on what it
has kept of the attribute values and the texts that were read.
-/

namespace JavaMigration

/-- All that an upgrade takes from its settings is ASCII: the names as they are, and the texts. -/
structure UpgradeSettings.IsAscii (s : UpgradeSettings) : Prop where
  keys : ∀ key ∈ s.javaProperties, Text.IsAscii key
  texts : s.Fits fun text => Text.IsAscii (Text.trim text)
  processors : ∀ p ∈ s.compilerPlugin.annotationProcessors,
    Text.IsAscii (Text.trim p.groupId) ∧ Text.IsAscii (Text.trim p.artifactId)

theorem UpgradeSettings.isAscii_builtIn : builtIn.IsAscii where
  keys := by decide
  texts :=
    { target := by decide
      parent := ⟨by decide, by decide, by decide⟩
      bom := ⟨by decide, by decide, by decide⟩
      overrides := by decide
      pins := by decide
      plugin := ⟨by decide, by decide, by decide⟩
      args := by decide }
  processors := by decide

end JavaMigration

namespace JavaMigration.Descriptor

open Markup Text

variable {s : UpgradeSettings} {strategy : Strategy} {processors : List Coordinate}

theorem isAscii_qualify {e : Element} {name : String} (h : IsAscii e.name) (ascii : IsAscii name) :
    IsAscii (e.qualify name) := by
  unfold Element.qualify Element.qualifier?
  split
  · rename_i q qualified
    split at qualified
    · cases qualified
    · rw [← Option.some.inj qualified, isAscii_append, isAscii_append, isAscii_ofList]
      have front : ∀ c ∈ e.name.toList.takeWhile (· ≠ ':'), c.toNat ≤ 127 := fun c mem =>
        h c ((List.takeWhile_sublist _).subset mem)
      exact ⟨⟨front, by decide⟩, ascii⟩
  · exact ascii

theorem localName_newChild_suffix (e : Element) (name : String) :
    (e.newChild name).localName.toList <:+ name.toList := by
  cases qualified : e.qualifier? with
  | none =>
    have spelled : (e.newChild name).name = name := by
      simp [Element.newChild, Element.qualify, qualified]
    unfold Element.localName
    rw [spelled]
    split
    · exact List.suffix_rfl
    · rename_i c rest found
      rw [String.toList_ofList]
      exact suffix_of_dropWhile found
  | some q =>
    have whole := localName_of_qualified (notMem_of_qualifier? qualified)
      (toList_name_newChild qualified name)
    rw [whole]
    simp

theorem isSteady_follows :
    IsSteady (Element.Follows asciiRule) IsAscii fun _ => True where
  withText _ _ h _ := ⟨h.tag, h.comments⟩
  newChild e name h ascii := ⟨⟨isAscii_qualify h.tag.1 ascii, nofun⟩, nofun⟩
  withChildren _ _ h _ := ⟨h.tag, h.comments⟩
  names := by decide
  literals _ _ := trivial

theorem isSteady_hasAsciiData :
    IsSteady Element.HasAsciiData (fun _ => True) fun text => IsAscii (trim text) where
  withText e text h ascii := by
    refine ⟨h.values, ?_⟩
    rintro t ⟨⟩
    exact ascii
  newChild _ _ _ _ := ⟨nofun, nofun⟩
  withChildren _ _ h _ := ⟨h.values, h.text⟩
  names _ _ := trivial
  literals := by decide

theorem version_of_takesVersion {texts : String → Prop} {p : AnnotationProcessor} {c : Coordinate}
    (set : s.Fits texts) (taken : TakesVersion s p c) : texts c.version := by
  obtain ⟨-, -, found⟩ := taken
  unfold UpgradeSettings.pinnedByKey? at found
  split at found
  · cases found
  · exact set.pinned found

theorem fits_of_takesVersion {texts : String → Prop} {ps : List AnnotationProcessor}
    (set : s.Fits texts) (named : ∀ p ∈ ps, texts p.groupId ∧ texts p.artifactId)
    (taken : List.Forall₂ (TakesVersion s) ps processors) :
    ∀ c ∈ processors, c.Fits texts := by
  induction taken with
  | nil => exact nofun
  | cons first _ ih =>
    obtain ⟨own, named⟩ := List.forall_mem_cons.1 named
    intro c mem
    rcases List.mem_cons.1 mem with rfl | mem
    · exact ⟨first.1 ▸ own.1, first.2.1 ▸ own.2, version_of_takesVersion set first⟩
    · exact ih named c mem

theorem fits_of_processorsFor (ascii : s.IsAscii)
    (found : processorsFor s strategy = .ok processors) :
    ∀ p ∈ processors, p.Fits fun text => IsAscii (trim text) := by
  cases strategy with
  | parentInheritance =>
    cases found
    exact nofun
  | bomImport =>
    exact fits_of_takesVersion ascii.texts ascii.processors (takesVersion_of_processorPaths found)

theorem follows_upgradeAt (ascii : s.IsAscii) (strategy : Strategy) (processors : List Coordinate)
    {d : Document} (h : d.Follows asciiRule) :
    (upgradeAt s strategy processors d).Follows asciiRule := by
  refine { h with root := ?_ }
  apply isSteady_follows.keeps_upgradeRoot s.fits_any (fun p _ => p.fits_any) ascii.keys
  · intro key mem e
    exact (ascii.keys key mem).of_part (localName_newChild_suffix e key).isInfix
  · exact h.root

/-- An upgrade with ASCII settings leaves data that is ASCII so. -/
theorem hasAsciiData_upgradeAt (ascii : s.IsAscii)
    (found : processorsFor s strategy = .ok processors) {d : Document}
    (h : d.root.All Element.HasAsciiData) :
    (upgradeAt s strategy processors d).root.All Element.HasAsciiData :=
  isSteady_hasAsciiData.keeps_upgradeRoot ascii.texts (fits_of_processorsFor ascii found)
    (fun _ _ => trivial) (fun _ _ _ => trivial) strategy d.root h

theorem upgradeDocument_eq_ok (found : processorsFor s strategy = .ok processors) (d : Document) :
    upgradeDocument s strategy d =
      .ok (upgradeAt s strategy processors d, changesOf s strategy d.root) := by
  rw [upgradeDocument_eq, found]
  rfl

/--
A document that is read from ASCII, under a header that names a charset of single bytes, is found in
that charset exactly if its attribute values and trimmed texts are ASCII. The same is so of the
document that it is upgraded to where the settings are ASCII, and all data is ASCII in that one if
it is in the document.
-/
theorem found_in_declared_charset {xml : String} {d : Document} {h : Declaration}
    {charset : Charset} (ascii : IsAscii xml) (read : Document.parse xml = .ok d)
    (declared : d.declaration = some h) (named : h.charset? = some charset) :
    (IsFoundIn charset h d.render ↔ d.root.All Element.HasAsciiData) ∧
      ∀ (s : UpgradeSettings) (strategy : Strategy) (text : String) (changes : Changes),
        s.IsAscii → upgradeText s strategy xml = .ok (text, changes) →
          ∃ d', upgradeDocument s strategy d = .ok (d', changes) ∧ text = d'.render ∧
            (IsFoundIn charset h text ↔ d'.root.All Element.HasAsciiData) ∧
            (d.root.All Element.HasAsciiData → d'.root.All Element.HasAsciiData) := by
  have marks : d.Follows asciiRule := Document.follows_asciiRule ascii read
  constructor
  · exact isFoundIn_render_iff named declared marks
  · intro s strategy text changes settings upgraded
    obtain ⟨d₀, processors, read₀, found, rfl, rfl⟩ := upgradeText_eq_ok.1 upgraded
    obtain rfl : d₀ = d := Except.ok.inj (read₀.symm.trans read)
    refine ⟨upgradeAt s strategy processors d₀, upgradeDocument_eq_ok found d₀, rfl, ?_, ?_⟩
    · apply isFoundIn_render_iff named
      · exact declared
      · exact follows_upgradeAt settings strategy processors marks
    · exact hasAsciiData_upgradeAt settings found

/-- References that stand for `A` and for a space that is trimmed leave the document in ASCII. -/
theorem found_in_declared_charset_references :
    let xml := "<?xml version=\"1.0\" encoding=\"us-ascii\"?><m:a b='&#65;'>1&#160;</m:a>"
    ∃ d h text changes, IsAscii xml ∧ Document.parse xml = .ok d ∧ d.declaration = some h ∧
      h.charset? = some .usAscii ∧ UpgradeSettings.builtIn.IsAscii ∧
      upgradeText .builtIn .parentInheritance xml = .ok (text, changes) ∧
      IsFoundIn .usAscii h d.render ∧ IsFoundIn .usAscii h text := by
  intro xml
  let h : Declaration := ⟨"1.0", some "us-ascii", none⟩
  let d : Document :=
    { declaration := some h
      root := { name := "m:a", attributes := [("b", "A")], text := some "1\u00a0" } }
  have ascii : IsAscii xml := by decide
  have read : Document.parse xml = .ok d := by decide +kernel
  have named : h.charset? = some .usAscii := by decide +kernel
  have data : d.root.All Element.HasAsciiData := by decide
  have upgraded := upgradeText_eq_ok.2
    ⟨d, [], read, (rfl : processorsFor .builtIn .parentInheritance = _), rfl, rfl⟩
  obtain ⟨written, upgrade⟩ := found_in_declared_charset ascii read rfl named
  obtain ⟨d', -, -, found, kept⟩ := upgrade .builtIn .parentInheritance _ _
    UpgradeSettings.isAscii_builtIn upgraded
  exact ⟨d, h, _, _, ascii, read, rfl, named, UpgradeSettings.isAscii_builtIn, upgraded,
    written.2 data, found.2 (kept data)⟩

/--
A reference to a letter that is not ASCII is written as the letter, and an upgrade keeps it; and
what the settings bring in need not be ASCII, either. In both cases the declared charset is left.
-/
theorem reference_leaves_charset :
    (let xml := "<?xml version=\"1.0\" encoding=\"US-ASCII\"?><a>&#233;</a>"
      ∃ d h text changes, IsAscii xml ∧ Document.parse xml = .ok d ∧ d.declaration = some h ∧
        h.charset? = some .usAscii ∧
        upgradeText .builtIn .parentInheritance xml = .ok (text, changes) ∧
        ¬ IsAscii d.render ∧ ¬ IsFoundIn .usAscii h d.render ∧
        ¬ IsAscii text ∧ ¬ IsFoundIn .usAscii h text) ∧
      (let xml := "<?xml version=\"1.0\" encoding=\"ISO-8859-1\"?><a/>"
        let s := { UpgradeSettings.builtIn with targetJavaVersion := "\u00e9" }
        ∃ d h text changes, IsAscii xml ∧ Document.parse xml = .ok d ∧ d.declaration = some h ∧
          h.charset? = some .latin1 ∧
          upgradeText s .parentInheritance xml = .ok (text, changes) ∧
          IsAscii d.render ∧ ¬ IsAscii text ∧ ¬ IsFoundIn .latin1 h text) := by
  have leaves : ∀ {charset : Charset} {h : Declaration} {s : String}, ¬ IsAscii s →
      ¬ IsFoundIn charset h s := fun foreign found => foreign ((decode?_bytes _ _).1 found.found)
  constructor
  · intro xml
    let h : Declaration := ⟨"1.0", some "US-ASCII", none⟩
    let d : Document :=
      { declaration := some h
        root := { name := "a", text := some "\u00e9" } }
    have read : Document.parse xml = .ok d := by decide +kernel
    have upgraded := upgradeText_eq_ok.2
      ⟨d, [], read, (rfl : processorsFor .builtIn .parentInheritance = _), rfl, rfl⟩
    have written : ¬ IsAscii d.render := by decide +kernel
    have kept : ¬ IsAscii (upgradeAt .builtIn .parentInheritance [] d).render := by
      refine fun all => absurd (isAscii_render.1 all).2 ?_
      decide +kernel
    exact ⟨d, h, _, _, by decide, read, rfl, by decide +kernel, upgraded, written,
      leaves written, kept, leaves kept⟩
  · intro xml s
    let h : Declaration := ⟨"1.0", some "ISO-8859-1", none⟩
    let d : Document :=
      { declaration := some h
        root := { name := "a" } }
    have read : Document.parse xml = .ok d := by decide +kernel
    have upgraded := upgradeText_eq_ok.2
      ⟨d, [], read, (rfl : processorsFor s .parentInheritance = _), rfl, rfl⟩
    have brought : ¬ IsAscii (upgradeAt s .parentInheritance [] d).render := by
      refine fun all => absurd (isAscii_render.1 all).2 ?_
      decide +kernel
    exact ⟨d, h, _, _, by decide, read, rfl, by decide +kernel, upgraded, by decide +kernel,
      brought, leaves brought⟩

end JavaMigration.Descriptor
