import JavaMigration.Proofs.Markup.Copying
import JavaMigration.Proofs.Text.Charset

/-!
# Documents in the charset that they declare

A document is stored in UTF-8 under the header that it was read with. The header may name a charset
of single bytes, and then the document is found in it as it was written where all of it is ASCII.
For a document that was read from ASCII, that depends on its attribute values and its texts only,
since references in these may stand for any character.
-/

namespace JavaMigration.Markup

open Text

theorem isAscii_between {front back s : String} (hf : IsAscii front) (hb : IsAscii back) :
    IsAscii (front ++ s ++ back) ↔ IsAscii s := by
  simp only [isAscii_append, hf, hb, true_and, and_true]

theorem isAscii_escape {s : String} : IsAscii (escape s) ↔ IsAscii s := by
  have each : ∀ c : Char, IsAscii (String.ofList (escapeChar c)) ↔ c.toNat ≤ 127 := by
    intro c
    fun_cases escapeChar c with
    | case6 => rw [isAscii_ofList, List.forall_mem_singleton]
    | _ => subst_vars; decide
  simp only [isAscii_ofList] at each
  simp only [IsAscii, toList_escape, escapeList, List.forall_mem_flatMap, each]

def Piece.content : Piece → String
  | mark _ s => s
  | text s => s

@[simp]
theorem Piece.content_mark (depth : Nat) (s : String) : (mark depth s).content = s :=
  rfl

@[simp]
theorem Piece.content_text (s : String) : (text s).content = s :=
  rfl

/-- Laying pieces out brings in nothing but spaces and line breaks. -/
theorem isAscii_layout {pieces : List Piece} (breakLine : Bool) :
    IsAscii (layout breakLine pieces) ↔ ∀ p ∈ pieces, IsAscii p.content := by
  have spaces : ∀ depth, IsAscii (indentation depth) := by
    intro depth
    rw [indentation, isAscii_ofList]
    intro c mem
    rw [List.eq_of_mem_replicate mem]
    decide
  have newLine : IsAscii "\n" := by decide
  induction pieces generalizing breakLine with
  | nil => simp [layout, IsAscii]
  | cons p pieces ih =>
    rw [List.forall_mem_cons]
    cases p with
    | text s => simp only [layout, isAscii_append, ih, Piece.content_text]
    | mark depth s =>
      rw [layout]
      split
      · simp only [isAscii_append, newLine, spaces, ih, Piece.content_mark, true_and]
      · simp only [isAscii_append, ih, Piece.content_mark]

def asciiRule : Rule where
  header h := ∀ v ∈ h.values, IsAscii v
  tag name attributes := IsAscii name ∧ ∀ a ∈ attributes, IsAscii a.1
  comment := IsAscii

@[mk_iff]
structure Element.HasAsciiData (e : Element) : Prop where
  values : ∀ a ∈ e.attributes, IsAscii a.2
  text : ∀ t ∈ e.trimmedText?, IsAscii t

instance : DecidablePred Element.HasAsciiData := fun e =>
  decidable_of_iff _ (Element.hasAsciiData_iff e).symm

theorem isAscii_join {items : List String} :
    IsAscii (String.join items) ↔ ∀ s ∈ items, IsAscii s := by
  simp only [IsAscii, String.toList_join, List.forall_mem_flatMap]

theorem isAscii_renderAttribute {a : String × String} :
    IsAscii (renderAttribute a) ↔ IsAscii a.1 ∧ IsAscii a.2 := by
  have marks : IsAscii " " ∧ IsAscii "=\"" ∧ IsAscii "\"" := by decide
  simp only [renderAttribute, toString, isAscii_append, isAscii_escape, marks, true_and, and_true]

theorem isAscii_tagContent {e : Element} :
    IsAscii e.tagContent ↔ asciiRule.tag e.name e.attributes ∧ ∀ a ∈ e.attributes, IsAscii a.2 := by
  simp only [Element.tagContent, isAscii_append, isAscii_join, List.forall_mem_map,
    isAscii_renderAttribute, asciiRule, forall_and, and_assoc]

theorem isAscii_commentMark {depth : Nat} {s : String} :
    IsAscii (commentMark depth s).content ↔ IsAscii s :=
  isAscii_between (by decide) (by decide)

theorem hasAsciiData_iff_solidText {e : Element} :
    e.HasAsciiData ↔
      (∀ a ∈ e.attributes, IsAscii a.2) ∧ ∀ t ∈ (solidText? e.text).toList, IsAscii t := by
  have empty : IsAscii "" := by decide
  have solid : (∀ t ∈ e.trimmedText?, IsAscii t) ↔
      ∀ t ∈ (solidText? e.text).toList, IsAscii t := by
    rw [solidText?, Element.trimmedText?]
    cases e.text.map trim with
    | none => simp
    | some t => by_cases blank : t = "" <;> simp [Option.filter, blank, empty]
  rw [Element.hasAsciiData_iff, solid]

theorem isAscii_tagPieces (depth : Nat) (e : Element) :
    (∀ p ∈ e.tagPieces depth, IsAscii p.content) ↔
      asciiRule.tag e.name e.attributes ∧ e.HasAsciiData ∧ (∀ s ∈ e.trailing, IsAscii s) ∧
        ∀ c ∈ e.children, ∀ p ∈ c.pieces (depth + 1), IsAscii p.content := by
  have openTag : IsAscii ("<" ++ e.tagContent ++ ">") ↔ IsAscii e.tagContent :=
    isAscii_between (by decide) (by decide)
  have emptyTag : IsAscii ("<" ++ e.tagContent ++ "/>") ↔ IsAscii e.tagContent :=
    isAscii_between (by decide) (by decide)
  have stopTag : IsAscii ("</" ++ e.name ++ ">") ↔ IsAscii e.name :=
    isAscii_between (by decide) (by decide)
  rw [hasAsciiData_iff_solidText]
  unfold Element.tagPieces
  split
  · rename_i vacant
    obtain ⟨⟨none, childless⟩, bare⟩ :
        (solidText? e.text = none ∧ e.children = []) ∧ e.trailing = [] := by
      simpa [Element.isVacant] using vacant
    simp [none, childless, bare, emptyTag, isAscii_tagContent]
  · simp only [List.forall_mem_cons, List.forall_mem_append, List.forall_mem_map,
      List.forall_mem_flatMap, Piece.content_mark, Piece.content_text, isAscii_commentMark,
      isAscii_escape, openTag, stopTag, isAscii_tagContent]
    constructor
    · rintro ⟨⟨tag, values⟩, text, children, trailing, -⟩
      exact ⟨tag, ⟨values, text⟩, trailing, children⟩
    · rintro ⟨tag, ⟨values, text⟩, trailing, children⟩
      exact ⟨⟨tag, values⟩, text, children, trailing, tag.1, List.forall_mem_nil _⟩

/-- An element is written in ASCII exactly if all is ASCII in it and in the elements below it. -/
theorem isAscii_pieces (depth : Nat) (e : Element) :
    (∀ p ∈ e.pieces depth, IsAscii p.content) ↔
      e.All fun x => x.Follows asciiRule ∧ x.HasAsciiData := by
  induction e using Element.inductionOnChildren generalizing depth with
  | step e ih =>
    have below : (∀ c ∈ e.children, ∀ p ∈ c.pieces (depth + 1), IsAscii p.content) ↔
        ∀ c ∈ e.children, c.All fun x => x.Follows asciiRule ∧ x.HasAsciiData :=
      forall₂_congr fun c mem => ih c mem (depth + 1)
    have marks : e.Follows asciiRule ↔ asciiRule.tag e.name e.attributes ∧
        (∀ s ∈ e.leading, IsAscii s) ∧ ∀ s ∈ e.trailing, IsAscii s := by
      rw [← List.forall_mem_append]
      exact ⟨fun h => ⟨h.tag, h.comments⟩, fun h => ⟨h.1, h.2⟩⟩
    rw [Element.pieces_eq, List.forall_mem_append, isAscii_tagPieces, Element.all_iff, below,
      marks, List.forall_mem_map]
    simp only [isAscii_commentMark]
    tauto

theorem isAscii_header {h : Declaration} : IsAscii h.render ↔ asciiRule.header h := by
  have keys : IsAscii "encoding" ∧ IsAscii "standalone" := by decide
  have marks : IsAscii "<?xml version=\"" ∧ IsAscii " " ∧ IsAscii "=\"" ∧ IsAscii "\"" ∧
      IsAscii "?>" ∧ IsAscii "" := by decide
  have item : ∀ key v : String, IsAscii (s!" {key}=\"{v}\"") ↔ IsAscii key ∧ IsAscii v := by
    intro key v
    simp only [toString, isAscii_append, marks, true_and, and_true]
  obtain ⟨version, encoding, standalone⟩ := h
  unfold Declaration.render
  cases encoding <;> cases standalone <;>
    simp only [isAscii_append, item, keys, marks, true_and, and_true, asciiRule,
      Declaration.values, Option.toList_none, Option.toList_some, List.nil_append,
      List.cons_append, List.forall_mem_cons, List.not_mem_nil, false_imp_iff, implies_true,
      and_assoc]

/-- A document is written in ASCII exactly if its marks and its data are. -/
theorem isAscii_render {d : Document} :
    IsAscii d.render ↔ d.Follows asciiRule ∧ d.root.All Element.HasAsciiData := by
  have newLine : IsAscii "\n" := by decide
  have header : IsAscii (d.declaration.getD .standard).render ↔
      ∀ h ∈ d.declaration, asciiRule.header h := by
    rw [isAscii_header]
    cases d.declaration with
    | none =>
      have standard : asciiRule.header .standard := by unfold asciiRule; decide
      simp [standard]
    | some h => simp
  have split : (d.root.All fun x => x.Follows asciiRule ∧ x.HasAsciiData) ↔
      d.root.All (Element.Follows asciiRule) ∧ d.root.All Element.HasAsciiData := by
    simp only [Element.All, forall_and]
  simp only [Document.render, isAscii_append, isAscii_layout, Document.pieces,
    List.forall_mem_cons, List.forall_mem_append, List.forall_mem_map, isAscii_commentMark,
    isAscii_pieces, Piece.content_mark, header, split, newLine, and_true]
  constructor
  · rintro ⟨header, ⟨prolog, marks, data⟩, epilog⟩
    exact ⟨⟨header, List.forall_mem_append.2 ⟨prolog, epilog⟩, marks⟩, data⟩
  · rintro ⟨⟨header, outside, marks⟩, data⟩
    obtain ⟨prolog, epilog⟩ := List.forall_mem_append.1 outside
    exact ⟨header, ⟨prolog, marks, data⟩, epilog⟩

/-- The marks of a document are ASCII if it was read from ASCII. -/
theorem Document.follows_asciiRule {s : String} {d : Document} (ascii : IsAscii s)
    (read : Document.parse s = .ok d) : d.Follows asciiRule := by
  apply (Document.copied_of_parse read).imp
  · intro header copied v mem
    rcases copied v mem with rfl | within
    · decide
    · exact ascii.of_part within
  · intro name attributes copied
    exact ⟨ascii.of_part copied.1, fun a mem => ascii.of_part (copied.2 a mem)⟩
  · intro comment copied
    exact ascii.of_part copied

/-- The charset of single bytes that a header names, if it names one. -/
def Declaration.charset? (h : Declaration) : Option Charset :=
  h.encoding.bind Charset.ofName?

/--
A text stands under a header that names this charset, and a reader who takes the bytes that it is
stored as to be of the charset finds it as it is.
-/
structure IsFoundIn (charset : Charset) (h : Declaration) (s : String) : Prop where
  named : h.charset? = some charset
  front : h.render.toList <+: s.toList
  found : charset.decode? (bytes s) = some s

theorem prefix_render {h : Declaration} {d : Document} (declared : d.declaration = some h) :
    h.render.toList <+: d.render.toList := by
  have written : d.pieces = .mark 0 h.render :: d.pieces.tail := by
    rw [Document.pieces, declared]
    rfl
  rw [Document.render, written, layout]
  simp

/-- A document that has ASCII marks is found in its charset exactly if its data is ASCII too. -/
theorem isFoundIn_render_iff {charset : Charset} {h : Declaration} {d : Document}
    (named : h.charset? = some charset) (declared : d.declaration = some h)
    (marks : d.Follows asciiRule) :
    IsFoundIn charset h d.render ↔ d.root.All Element.HasAsciiData := by
  have written : charset.decode? (bytes d.render) = some d.render ↔
      d.root.All Element.HasAsciiData := by
    rw [decode?_bytes, isAscii_render, and_iff_right marks]
  rw [← written]
  exact ⟨fun h => h.found, fun found => ⟨named, prefix_render declared, found⟩⟩

end JavaMigration.Markup
