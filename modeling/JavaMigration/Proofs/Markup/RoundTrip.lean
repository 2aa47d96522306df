import JavaMigration.Proofs.Markup.Layout
import JavaMigration.Proofs.Markup.Nesting

/-!
# Writing and reading a document

A document with proper names, distinct attributes, and comments and header values that do not end
early is read back from its text in its normal form, which has the same text.
-/

namespace JavaMigration.Markup

open Text

namespace Element

/-- What the tags and the comments of an element need in order to be read back. -/
structure IsWritable (e : Element) : Prop where
  tag : IsTag e.name e.attributes
  comments : ∀ s ∈ e.leading ++ e.trailing, IsCommentText s

theorem isWritable_iff (e : Element) : e.IsWritable ↔
    (IsName e.name ∧ (∀ a ∈ e.attributes, IsName a.1) ∧ (e.attributes.map Prod.fst).Nodup) ∧
      ∀ s ∈ e.leading ++ e.trailing, IsCommentText s :=
  ⟨fun ⟨⟨name, keys, distinct⟩, comments⟩ => ⟨⟨name, keys, distinct⟩, comments⟩,
    fun ⟨⟨name, keys, distinct⟩, comments⟩ => ⟨⟨name, keys, distinct⟩, comments⟩⟩

instance : DecidablePred IsWritable := fun e => decidable_of_iff _ (isWritable_iff e).symm

theorem piecesAll_eq (depth : Nat) (cs : List Element) :
    piecesAll depth cs = cs.flatMap (pieces depth) := by
  induction cs with
  | nil => rfl
  | cons c cs ih => rw [piecesAll, ih, List.flatMap_cons]

theorem writtenText?_eq (e : Element) : e.writtenText? = (solidText? e.text).map escape := by
  rw [writtenText?, trimmedText?, solidText?]
  cases e.text.map trim with
  | none => rfl
  | some s => by_cases empty : s = "" <;> simp [Option.filter, empty]

def tagPieces (depth : Nat) (e : Element) : List Piece :=
  if e.isVacant then [.mark depth ("<" ++ e.tagContent ++ "/>")]
  else
    .mark depth ("<" ++ e.tagContent ++ ">") ::
      ((solidText? e.text).toList.map (fun s => .text (escape s)) ++
        (e.children.flatMap (pieces (depth + 1)) ++
          (e.trailing.map (commentMark (depth + 1)) ++ [.mark depth ("</" ++ e.name ++ ">")])))

theorem pieces_eq (depth : Nat) (e : Element) :
    e.pieces depth = e.leading.map (commentMark depth) ++ e.tagPieces depth := by
  obtain ⟨name, attributes, text, children, leading, trailing⟩ := e
  have same : (((solidText? text).map escape).isNone && children.isEmpty && trailing.isEmpty) =
      isVacant ⟨name, attributes, text, children, leading, trailing⟩ := by
    cases h : solidText? text <;> simp [isVacant, h]
  rw [pieces, tagPieces, writtenText?_eq, piecesAll_eq]
  simp only [same]
  split
  · rfl
  · cases solidText? text <;> simp [tagContent]

end Element

theorem spellsMark_comment {s : String} (h : IsCommentText s) :
    SpellsMark ("<!--" ++ s ++ "-->") (.comment s) :=
  ⟨'!' :: '-' :: '-' :: (s.toList ++ ['-', '-', '>']), by simp,
    fun rest => by simpa using readsMark_comment h rest⟩

theorem spells_comments (depth : Nat) {texts : List String} (h : ∀ s ∈ texts, IsCommentText s) :
    Spells (texts.map (commentMark depth)) (texts.map .comment) := by
  induction texts with
  | nil => exact .nil
  | cons s texts ih =>
    exact .mark (spellsMark_comment (h s (by simp))) (ih fun t ht => h t (by simp [ht]))

theorem spellsText_escape {text : Option String} {s : String} (h : solidText? text = some s) :
    SpellsText (escape s) s where
  nonempty := by simpa using (solidText?_eq_some.1 h).2
  trimmed := by
    rw [toList_escape]
    exact isTrimmed_escapeList ((isTrimmed_of_solidText? h).mono fun c => isBlank_of_isSpace)
  plain := by rw [toList_escape]; exact lt_notMem_escapeList _
  resolved := by simp

namespace Element

def BeginsWithMark (pieces : List Piece) : Prop :=
  ∃ depth s rest, pieces = .mark depth s :: rest

theorem beginsWithMark_tagPieces (depth : Nat) (e : Element) :
    BeginsWithMark (e.tagPieces depth) := by
  rw [tagPieces]
  split
  · exact ⟨_, _, _, rfl⟩
  · exact ⟨_, _, _, rfl⟩

theorem beginsWithMark_comments (depth : Nat) (texts : List String) {pieces : List Piece}
    (h : BeginsWithMark pieces) : BeginsWithMark (texts.map (commentMark depth) ++ pieces) := by
  cases texts with
  | nil => exact h
  | cons s texts => exact ⟨_, _, _, rfl⟩

theorem beginsWithMark_children (depth : Nat) (cs : List Element) {pieces : List Piece}
    (h : BeginsWithMark pieces) : BeginsWithMark (cs.flatMap (Element.pieces depth) ++ pieces) := by
  cases cs with
  | nil => exact h
  | cons c cs =>
    obtain ⟨d, s, rest, first⟩ := c.beginsWithMark_tagPieces depth
    rw [List.flatMap_cons, pieces_eq, List.append_assoc, List.append_assoc]
    exact beginsWithMark_comments depth c.leading ⟨d, s, _, by rw [first]; rfl⟩

/-- What an element encloses is spelled between its tags, whatever those are read as. -/
theorem spells_tagPieces {depth : Nat} {e : Element} {opening closing : Event}
    (solid : e.isVacant = false) (first : SpellsMark ("<" ++ e.tagContent ++ ">") opening)
    (last : SpellsMark ("</" ++ e.name ++ ">") closing)
    (children : ∀ c ∈ e.children, Spells (c.pieces (depth + 1)) c.events)
    (comments : ∀ s ∈ e.trailing, IsCommentText s) :
    Spells (e.tagPieces depth)
      (opening :: ((solidText? e.text).toList.map .text ++
        (e.children.flatMap events ++ (e.trailing.map .comment ++ [closing])))) := by
  have flat (cs : List Element) (sub : ∀ c ∈ cs, c ∈ e.children) :
      Spells (cs.flatMap (pieces (depth + 1))) (cs.flatMap events) := by
    induction cs with
    | nil => exact .nil
    | cons c cs ih =>
      exact (children c (sub c (by simp))).append (ih fun x mem => sub x (by simp [mem]))
  have inside : Spells (e.children.flatMap (pieces (depth + 1)) ++
      (e.trailing.map (commentMark (depth + 1)) ++ [.mark depth ("</" ++ e.name ++ ">")]))
      (e.children.flatMap events ++ (e.trailing.map .comment ++ [closing])) :=
    (flat e.children fun _ mem => mem).append
      ((spells_comments _ comments).append (.singleton last))
  rw [tagPieces, solid]
  refine .mark first ?_
  cases text : solidText? e.text with
  | none => exact inside
  | some s =>
    refine .cons_text (spellsText_escape text) ?_ inside
    exact beginsWithMark_children _ _ (beginsWithMark_comments _ _ ⟨_, _, _, rfl⟩)

/-- Every element that can be written is spelled by its pieces, at any depth. -/
theorem spells_pieces (depth : Nat) {e : Element} (h : e.All IsWritable) :
    Spells (e.pieces depth) e.events := by
  induction e using inductionOnChildren generalizing depth with
  | step e ih =>
    obtain ⟨tag, comments⟩ := h.self
    rw [pieces_eq, events]
    refine (spells_comments depth fun s hs => comments s (by simp [hs])).append ?_
    cases vacant : e.isVacant with
    | true =>
      rw [tagPieces, tagEvents_eq, vacant]
      exact .singleton ⟨tagText e.name e.attributes ++ ['/', '>'], by simp,
        fun rest => by simpa using readsMark_empty tag rest⟩
    | false =>
      rw [tagEvents_eq, vacant]
      apply spells_tagPieces vacant
      · exact ⟨tagText e.name e.attributes ++ ['>'], by simp,
          fun rest => by simpa using readsMark_start tag rest⟩
      · exact ⟨'/' :: (e.name.toList ++ ['>']), by simp,
          fun rest => by simpa using readsMark_stop tag.name rest⟩
      · exact fun c mem => ih c mem (depth + 1) (h.child mem)
      · exact fun s mem => comments s (by simp [mem])

end Element

namespace Document

/-- What a document needs in order to be read back. -/
structure IsWritable (d : Document) : Prop where
  root : d.root.All Element.IsWritable
  comments : ∀ s ∈ d.prolog ++ d.epilog, IsCommentText s
  header : ∀ h ∈ d.declaration, ∀ v ∈ h.values, IsHeaderValue v

theorem isWritable_iff (d : Document) : d.IsWritable ↔ d.root.All Element.IsWritable ∧
    (∀ s ∈ d.prolog ++ d.epilog, IsCommentText s) ∧
      ∀ h ∈ d.declaration.toList, ∀ v ∈ h.values, IsHeaderValue v :=
  ⟨fun ⟨root, comments, header⟩ => ⟨root, comments, by simpa using header⟩,
    fun ⟨root, comments, header⟩ => ⟨root, comments, by simpa using header⟩⟩

instance : DecidablePred IsWritable := fun d => decidable_of_iff _ (isWritable_iff d).symm

variable {d : Document}

def events (d : Document) : List Event :=
  .declaration (d.declaration.getD .standard) :: (d.prolog.map .comment ++
    (d.root.events ++ d.epilog.map .comment))

/-- What a document needs in order to be read at all. -/
structure IsReadable (d : Document) : Prop where
  root : d.root.All Element.IsWritable
  comments : ∀ s ∈ d.prolog ++ d.epilog, IsCommentText s
  header : ∀ h ∈ d.declaration, ∀ v ∈ h.values, ¬['?', '>'] <:+: v.toList

/-- The document with its header as that is read from what is written for it. -/
def reread (d : Document) : Document :=
  { d with declaration := some (readDeclaration (itemsText (d.declaration.getD .standard).items)) }

theorem IsWritable.isReadable (h : d.IsWritable) : d.IsReadable where
  root := h.root
  comments := h.comments
  header := fun header declared v mem => (h.header header declared v mem).2

theorem IsWritable.normal_reread (h : d.IsWritable) : d.reread.normal = d.normal := by
  have header : ∀ v ∈ (d.declaration.getD .standard).values, IsHeaderValue v := by
    cases declared : d.declaration with
    | none => decide
    | some header => exact h.header header declared
  simp only [normal, reread, readDeclaration_items _ header, Option.getD_some]

theorem spells_pieces (h : d.IsReadable) : Spells d.pieces d.reread.events := by
  have header : ∀ v ∈ (d.declaration.getD .standard).values, ¬['?', '>'] <:+: v.toList := by
    cases declared : d.declaration with
    | none => decide
    | some header => exact h.header header declared
  have comments (texts : List String) (sub : ∀ s ∈ texts, s ∈ d.prolog ++ d.epilog) :
      Spells (texts.map (commentMark 0)) (texts.map .comment) :=
    spells_comments 0 fun s hs => h.comments s (sub s hs)
  rw [pieces, events, List.append_assoc]
  refine .mark ⟨_, Declaration.toList_render _, fun rest => ?_⟩ ?_
  · simpa [reread] using readsMark_header _ header rest
  · exact (comments _ fun s hs => by simp [hs]).append
      ((Element.spells_pieces 0 h.root).append (comments _ fun s hs => by simp [hs]))

theorem takes_prolog (texts : List String) {d : Draft} (outside : d.enclosing = [])
    (first : d.root = none) :
    d.Takes (texts.map .comment) { d with prolog := d.prolog ++ texts } := by
  induction texts generalizing d with
  | nil => simpa using Draft.Takes.nil
  | cons s texts ih =>
    refine .cons { d with prolog := d.prolog ++ [s] } (fun _ _ => ?_) ?_
    · simp [Draft.step, Draft.addComment, outside, first]
    · simpa using ih (d := { d with prolog := d.prolog ++ [s] }) outside first

theorem takes_epilog (texts : List String) {d : Draft} {root : Element}
    (outside : d.enclosing = []) (last : d.root = some root) :
    d.Takes (texts.map .comment) { d with epilog := d.epilog ++ texts } := by
  induction texts generalizing d with
  | nil => simpa using Draft.Takes.nil
  | cons s texts ih =>
    refine .cons { d with epilog := d.epilog ++ [s] } (fun _ _ => ?_) ?_
    · simp [Draft.step, Draft.addComment, outside, last]
    · simpa using ih (d := { d with epilog := d.epilog ++ [s] }) outside last

theorem takes_events (d : Document) : Draft.Takes {} d.events
    { declaration := d.normal.declaration, prolog := d.normal.prolog, root := some d.normal.root,
      epilog := d.normal.epilog } := by
  rw [events, Element.events, List.append_assoc]
  refine .cons { declaration := d.normal.declaration } (fun _ _ => rfl) ?_
  refine (takes_prolog d.prolog rfl rfl).append _ ?_
  refine (takes_prolog d.root.leading rfl rfl).append _ ?_
  apply Draft.Takes.append _ (Draft.isBuilt d.root fun _ => rfl)
  simpa [normal] using takes_epilog d.epilog
    (d := { declaration := d.normal.declaration, prolog := d.normal.prolog,
            root := some d.normal.root }) rfl rfl

/-- A document is read by the events that its pieces spell. -/
theorem exists_reading {events : List Event} (h : Spells d.pieces events) :
    ∃ located length, located.map (·.event) = events ∧
      Document.parse d.render = ofReading ⟨located, .ok length⟩ := by
  have whole : d.render.toList = (layout false d.pieces).toList ++ ['\n'] := by
    simp [render]
  obtain ⟨read, length, ending⟩ := h.readsAs_layout false 0
  rw [← whole] at read ending
  have noMark : Markup.events d.render = eventsFrom 0 d.render.toList := by
    have first : ∃ rest, d.render.toList = '<' :: rest :=
      ⟨_, by rw [whole]; simp [pieces, layout, Declaration.toList_render]; rfl⟩
    obtain ⟨rest, first⟩ := first
    rw [Markup.events, first]
    rfl
  refine ⟨_, length, read, ?_⟩
  rw [parse, noMark, ← ending]

/-- The text of a document is read as its normal form, with whatever is read as its header. -/
theorem parse_render_reread (h : d.IsReadable) : Document.parse d.render = .ok d.reread.normal := by
  obtain ⟨located, length, spelled, read⟩ := exists_reading (spells_pieces h)
  have built := takes_events d.reread located spelled
  rw [read, ofReading, built]
  rfl

/-- A document is read back from its text in its normal form. -/
theorem parse_render (h : d.IsWritable) : Document.parse d.render = .ok d.normal := by
  rw [parse_render_reread h.isReadable, h.normal_reread]

end Document

namespace Element

theorem isVacant_normal (e : Element) : e.normal.isVacant = e.isVacant := by
  rw [isVacant, isVacant, text_normal, solidText?_solidText?, children_normal, trailing_normal]
  cases e.children <;> rfl

theorem pieces_normal (depth : Nat) (e : Element) : e.normal.pieces depth = e.pieces depth := by
  induction e using inductionOnChildren generalizing depth with
  | step e ih =>
    have children : (e.children.map normal).flatMap (pieces (depth + 1)) =
        e.children.flatMap (pieces (depth + 1)) := by
      rw [List.flatMap_map]
      exact List.flatMap_congr fun c mem => ih c mem (depth + 1)
    rw [pieces_eq, pieces_eq, tagPieces, tagPieces, isVacant_normal, leading_normal, text_normal,
      solidText?_solidText?, children_normal, children, trailing_normal, name_normal, tagContent,
      tagContent, name_normal, attributes_normal]

theorem tagPieces_normal (depth : Nat) (e : Element) :
    e.normal.tagPieces depth = e.tagPieces depth := by
  have whole := pieces_normal depth e
  rw [pieces_eq, pieces_eq, leading_normal] at whole
  exact List.append_cancel_left whole

end Element

namespace Document

theorem render_normal (d : Document) : d.normal.render = d.render := by
  have root : d.normal.root.pieces 0 = d.root.tagPieces 0 := by
    rw [Element.pieces_eq]
    exact Element.tagPieces_normal 0 d.root
  have prolog : d.normal.prolog = d.prolog ++ d.root.leading := rfl
  have epilog : d.normal.epilog = d.epilog := rfl
  have header : d.normal.declaration.getD .standard = d.declaration.getD .standard := rfl
  rw [render, render, pieces, pieces, root, prolog, epilog, header, Element.pieces_eq 0 d.root]
  simp

/-- A document comes back from its text in its normal form, and that has the same text. -/
theorem render_round_trip (d : Document) (h : d.IsWritable) :
    parse d.render = .ok d.normal ∧ d.normal.render = d.render :=
  ⟨parse_render h, render_normal d⟩

/-- Mixed content with blanks and special characters at every place that may hold them. -/
theorem render_round_trip_mixed :
    let d : Document :=
      { prolog := [" - "],
        root :=
          { name := "m:project", attributes := [("a", "<'\n\"&>"), ("b", "")],
            text := some "\u00A0 ]]> & x\t ", leading := ["--"], trailing := ["", "-"],
            children :=
              [{ name := "m:empty", text := some " \n" },
                { name := ":", text := some "1", leading := ["->"],
                  children := [{ name := "x-1.y", text := some "" }] }] },
        epilog := ["<end>"] }
    d.IsWritable ∧ parse d.render = .ok d.normal ∧ d.normal.render = d.render := by
  intro d
  have writable : d.IsWritable := by decide
  exact ⟨writable, render_round_trip d writable⟩

end Document

end JavaMigration.Markup
