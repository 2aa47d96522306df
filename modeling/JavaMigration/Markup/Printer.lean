import JavaMigration.Markup.Document

/-!
# Written documents

A document is written as a sequence of marks, each on a line of its own and indented by its depth,
and of texts, which stand directly behind the start tag of their element. The mark after a text
follows it without a line break.
-/

namespace JavaMigration.Markup

open Text

/-- A mark at a depth of nesting, or a text. -/
inductive Piece
  | mark (depth : Nat) (s : String)
  | text (s : String)
deriving DecidableEq, Repr

def indentation (depth : Nat) : String :=
  String.ofList (List.replicate (4 * depth) ' ')

/-- Joins the pieces. The first mark, and each one after a text, starts no new line. -/
def layout (breakLine : Bool) : List Piece → String
  | [] => ""
  | .text s :: rest => s ++ layout false rest
  | .mark depth s :: rest =>
    if breakLine then "\n" ++ indentation depth ++ s ++ layout true rest
    else s ++ layout true rest

def Declaration.render (d : Declaration) : String :=
  let item (key : String) (value : Option String) :=
    match value with
    | some v => s!" {key}=\"{v}\""
    | none => ""
  "<?xml version=\"" ++ d.version ++ "\"" ++ item "encoding" d.encoding ++
    item "standalone" d.standalone ++ "?>"

def commentMark (depth : Nat) (s : String) : Piece :=
  .mark depth ("<!--" ++ s ++ "-->")

def renderAttribute (a : String × String) : String :=
  s!" {a.1}=\"{escape a.2}\""

/-- What stands inside the angle brackets of a start tag. -/
def Element.tagContent (e : Element) : String :=
  e.name ++ String.join (e.attributes.map renderAttribute)

/-- The text as it is written: trimmed and escaped, and none where nothing but blanks is left. -/
def Element.writtenText? (e : Element) : Option String :=
  match e.trimmedText? with
  | some s => if s = "" then none else some (escape s)
  | none => none

mutual

/-- The pieces of `e`. An element that has nothing to enclose is written as an empty tag. -/
def Element.pieces (depth : Nat) : Element → List Piece
  | ⟨name, attributes, text, children, leading, trailing⟩ =>
    let e : Element := { name, attributes, text }
    let before := leading.map (commentMark depth)
    if e.writtenText?.isNone && children.isEmpty && trailing.isEmpty then
      before ++ [.mark depth ("<" ++ e.tagContent ++ "/>")]
    else
      before ++ .mark depth ("<" ++ e.tagContent ++ ">") ::
        (e.writtenText?.toList.map .text ++ Element.piecesAll (depth + 1) children ++
          trailing.map (commentMark (depth + 1)) ++ [.mark depth ("</" ++ name ++ ">")])

def Element.piecesAll (depth : Nat) : List Element → List Piece
  | [] => []
  | e :: rest => Element.pieces depth e ++ Element.piecesAll depth rest

end

def Document.pieces (d : Document) : List Piece :=
  .mark 0 (d.declaration.getD .standard).render ::
    (d.prolog.map (commentMark 0) ++ d.root.pieces 0 ++ d.epilog.map (commentMark 0))

/-- The text of a document, with the standard header where it has none and a final newline. -/
def Document.render (d : Document) : String :=
  layout false d.pieces ++ "\n"

end JavaMigration.Markup
