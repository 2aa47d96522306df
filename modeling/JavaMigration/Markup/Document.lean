import JavaMigration.Markup.Element
import JavaMigration.Markup.Event

/-!
# Documents

A document is a root element with a header and the comments around it. It is built from a sequence
of events by a stack of open elements, and accepted exactly when its tags nest and nothing but
comments and blank text stands outside the root.
-/

namespace JavaMigration.Markup

open Text

structure Document where
  declaration : Option Declaration := none
  prolog : List String := []
  root : Element
  epilog : List String := []
deriving DecidableEq, Repr

inductive DocumentError
  | malformed (fault : Malformed)
  | missingRoot
deriving DecidableEq, Repr

/-- A document of which a part has been read. -/
structure Draft where
  declaration : Option Declaration := none
  prolog : List String := []
  root : Option Element := none
  epilog : List String := []
  /-- The open elements, the innermost first. -/
  enclosing : List Element := []
  /-- The comments since the last tag inside the root, which belong to the next one. -/
  pending : List String := []
deriving DecidableEq, Repr

namespace Draft

/-- Puts a finished element under the innermost open one, or in the place of the root. -/
def close (position : Nat) (e : Element) (d : Draft) : Except Malformed Draft :=
  match d.enclosing, d.root with
  | parent :: outer, _ => .ok { d with enclosing := parent.push e :: outer }
  | [], none => .ok { d with root := some e }
  | [], some _ => .error ⟨position, "multiple root elements"⟩

/-- Appends character data to the innermost open element. Outside the root only blanks may stand. -/
def addText (position : Nat) (s : String) (d : Draft) : Except Malformed Draft :=
  match d.enclosing with
  | e :: outer => .ok { d with enclosing := e.withText (e.text.getD "" ++ s) :: outer }
  | [] => if allBlank s then .ok d else .error ⟨position, "text outside the root element"⟩

def addComment (s : String) (d : Draft) : Draft :=
  match d.enclosing, d.root with
  | _ :: _, _ => { d with pending := d.pending ++ [s] }
  | [], none => { d with prolog := d.prolog ++ [s] }
  | [], some _ => { d with epilog := d.epilog ++ [s] }

/-- Takes one event in. An end tag has to bear the name of the innermost open element. -/
def step (d : Draft) (e : Located) : Except Malformed Draft :=
  match e.event with
  | .declaration header => .ok { d with declaration := some header }
  | .start name attributes =>
    let opened : Element := { name, attributes, leading := d.pending }
    .ok { d with enclosing := opened :: d.enclosing, pending := [] }
  | .empty name attributes =>
    { d with pending := [] }.close e.stop { name, attributes, leading := d.pending }
  | .stop name =>
    match d.enclosing with
    | [] =>
      .error ⟨e.start,
        s!"ill-formed document: close tag `</{name}>` does not match any open tag"⟩
    | opened :: outer =>
      if name = opened.name then
        { d with enclosing := outer, pending := [] }.close e.stop
          { opened with trailing := d.pending }
      else
        .error ⟨e.start,
          s!"ill-formed document: expected `</{opened.name}>`, but `</{name}>` was found"⟩
  | .text s => d.addText e.stop s
  | .cdata s => d.addText e.stop s
  | .comment s => .ok (d.addComment s)
  | .instruction => .ok d
  | .doctype => .ok d

/-- The document, once all `length` bytes have been read. -/
def finish (length : Nat) (d : Draft) : Except DocumentError Document :=
  match d.enclosing, d.root with
  | e :: _, _ => .error (.malformed ⟨length, s!"unclosed element <{e.name}>"⟩)
  | [], none => .error .missingRoot
  | [], some root => .ok ⟨d.declaration, d.prolog, root, d.epilog⟩

end Draft

/-- The document that a sequence of events describes. The first fault in the sequence counts. -/
def Document.ofReading (r : Reading) : Except DocumentError Document :=
  match r.events.foldlM Draft.step {} with
  | .error fault => .error (.malformed fault)
  | .ok d =>
    match r.ending with
    | .error fault => .error (.malformed fault)
    | .ok length => d.finish length

def Document.parse (s : String) : Except DocumentError Document :=
  Document.ofReading (events s)

end JavaMigration.Markup
