import JavaMigration.Markup.Attribute

/-!
# Markup events

A text of markup as the sequence of its tags, character data and comments. Every event carries the
byte span it was read from; the sequence ends at the end of the text or at the first fault.
-/

namespace JavaMigration.Markup

open Text

/-- The header `<?xml ...?>` of a document. -/
structure Declaration where
  version : String
  encoding : Option String
  standalone : Option String
deriving DecidableEq, Repr

/-- The header of a document that has none of its own. -/
def Declaration.standard : Declaration := ⟨"1.0", some "UTF-8", none⟩

inductive Event
  | declaration (d : Declaration)
  | start (name : String) (attributes : List (String × String))
  | empty (name : String) (attributes : List (String × String))
  | stop (name : String)
  | text (s : String)
  | cdata (s : String)
  | comment (s : String)
  | instruction
  | doctype
deriving DecidableEq, Repr

/-- A fault in a document, at a byte of it. -/
structure Malformed where
  position : Nat
  detail : String
deriving DecidableEq, Repr

/-- An event with the first byte of its text and the byte after the last. -/
structure Located where
  event : Event
  start : Nat
  stop : Nat
deriving DecidableEq, Repr

/-- The events of a text, and its length where all of it could be read. -/
structure Reading where
  events : List Located
  ending : Except Malformed Nat

def Reading.cons (e : Located) (r : Reading) : Reading :=
  ⟨e :: r.events, r.ending⟩

/-- Splits `s` at the first occurrence of `mark`, which is in neither part. -/
def splitAtMark (mark : List Char) (s : List Char) : Option (List Char × List Char) :=
  if mark.isPrefixOf s then some ([], s.drop mark.length)
  else
    match s with
    | [] => none
    | c :: rest => (splitAtMark mark rest).map fun (before, after) => (c :: before, after)

/-- Splits the text after a `<` at the `>` that closes the tag, one outside quotes. -/
def splitTag (quote : Option Char) : List Char → Option (List Char × List Char)
  | [] => none
  | c :: rest =>
    let next :=
      match quote with
      | some q => if c = q then none else some q
      | none => if c = '"' || c = '\'' then some c else none
    if quote = none && c = '>' then some ([], rest)
    else (splitTag next rest).map fun (before, after) => (c :: before, after)

/-- Splits the text after a `<` at the `>` that balances it, with `depth` further `<` open. -/
def splitBalanced (depth : Nat) : List Char → Option (List Char × List Char)
  | [] => none
  | c :: rest =>
    if c = '>' && depth = 0 then some ([], rest)
    else
      let depth := if c = '<' then depth + 1 else if c = '>' then depth - 1 else depth
      (splitBalanced depth rest).map fun (before, after) => (c :: before, after)

theorem length_of_splitAtMark {mark s before after : List Char}
    (h : splitAtMark mark s = some (before, after)) : after.length ≤ s.length := by
  induction s generalizing before with
  | nil =>
    unfold splitAtMark at h
    split at h
    · cases h; simp
    · simp at h
  | cons c rest ih =>
    unfold splitAtMark at h
    split at h
    · cases h; simp
    · obtain ⟨p, hr, he⟩ := Option.map_eq_some_iff.1 h
      cases he
      have : p.2.length ≤ rest.length := ih hr
      simp only [List.length_cons]
      omega

theorem length_of_splitAtMark_drop {mark s before after : List Char} {n : Nat}
    (h : splitAtMark mark (s.drop n) = some (before, after)) : after.length ≤ s.length :=
  Nat.le_trans (length_of_splitAtMark h) (by rw [List.length_drop]; exact Nat.sub_le _ _)

theorem length_of_splitTag {quote : Option Char} {s before after : List Char}
    (h : splitTag quote s = some (before, after)) : after.length < s.length := by
  induction s generalizing before quote with
  | nil => simp [splitTag] at h
  | cons c rest ih =>
    simp only [splitTag] at h
    split at h
    · cases h; simp
    · obtain ⟨p, hr, he⟩ := Option.map_eq_some_iff.1 h
      cases he
      have : p.2.length < rest.length := ih hr
      simp only [List.length_cons]
      omega

theorem length_of_splitBalanced {depth : Nat} {s before after : List Char}
    (h : splitBalanced depth s = some (before, after)) : after.length < s.length := by
  induction s generalizing before depth with
  | nil => simp [splitBalanced] at h
  | cons c rest ih =>
    simp only [splitBalanced] at h
    split at h
    · cases h; simp
    · obtain ⟨p, hr, he⟩ := Option.map_eq_some_iff.1 h
      cases he
      have : p.2.length < rest.length := ih hr
      simp only [List.length_cons]
      omega

/-- The value of the first attribute called `key`, as written. -/
def rawValue? (list : List RawAttribute) (key : String) : Option String :=
  match list.find? fun a => a.key = key.toList || !a.value.toBool with
  | some ⟨_, _, .ok value⟩ => some (String.ofList value)
  | _ => none

/-- The header with the given content after its name. References in it are not resolved. -/
def readDeclaration (content : List Char) : Declaration :=
  let list := (scanAttributes (3 + width content) 3 content).attributes
  { version := (rawValue? (list.take 1) "version").getD "1.0"
    encoding := rawValue? list "encoding"
    standalone := rawValue? list "standalone" }

/-- The event of a processing instruction, given the text between `<?` and `?>`. -/
def readInstruction (content : List Char) : Event :=
  if ['x', 'm', 'l'].isPrefixOf content then
    match content.drop 3 with
    | [] => .declaration (readDeclaration [])
    | c :: rest => if isSpace c then .declaration (readDeclaration (c :: rest)) else .instruction
  else .instruction

/-- The event of a start tag or an empty tag, given the text between its angle brackets. -/
def readStart (content : List Char) : Except TagError Event := do
  let isEmpty := content.getLast? = some '/'
  let content := if isEmpty then content.dropLast else content
  let name := content.takeWhile (!isSpace ·)
  let attributes ←
    readAttributes (width content) (width name) (content.dropWhile (!isSpace ·))
  if isEmpty then .ok (.empty (String.ofList name) attributes)
  else .ok (.start (String.ofList name) attributes)

/-- The name in an end tag, given the text between `</` and `>`: trailing white space is dropped. -/
def readStop (content : List Char) : Event :=
  if content.all isSpace then .stop (String.ofList content)
  else .stop (String.ofList (trimEndList isSpace content))

/-- What opens after a `<`. -/
inductive Opening
  | comment | cdata | doctype | instruction | stop | start
  /-- A mark that begins like a comment or CDATA section and is neither. -/
  | badComment | badCdata
  | unknown | nothing

def Opening.ofText : List Char → Opening
  | [] => .nothing
  | '!' :: '-' :: '-' :: _ => .comment
  | '!' :: '-' :: _ => .badComment
  | '!' :: '[' :: 'C' :: 'D' :: 'A' :: 'T' :: 'A' :: '[' :: _ => .cdata
  | '!' :: '[' :: _ => .badCdata
  | '!' :: 'D' :: _ => .doctype
  | '!' :: 'd' :: _ => .doctype
  | '!' :: _ => .unknown
  | '?' :: _ => .instruction
  | '/' :: _ => .stop
  | _ :: _ => .start

def unclosedTag : String := "syntax error: tag not closed: `>` not found before end of input"
def unclosedComment : String :=
  "syntax error: comment not closed: `-->` not found before end of input"
def unclosedCdata : String := "syntax error: CDATA not closed: `]]>` not found before end of input"
def unclosedDoctype : String :=
  "syntax error: DOCTYPE not closed: `>` not found before end of input"
def unclosedInstruction : String :=
  "syntax error: processing instruction or xml declaration not closed: " ++
    "`?>` not found before end of input"
def unknownMark : String := "syntax error: unknown or missed symbol in markup"
def namelessDoctype : String :=
  "ill-formed document: `<!DOCTYPE>` declaration does not contain a name of a document type"

/-- A mark that was read: the event in it, the byte after its `>`, and what follows there. -/
structure Mark (s : List Char) where
  event : Event
  stop : Nat
  rest : List Char
  shorter : rest.length ≤ s.length

/--
Reads the mark whose `<`, at byte `position`, precedes `s`. The error of a tag's attributes is
placed after the tag, that of a document type without a name at its `>`, and every other error at
the `<`.
-/
def readMark (position : Nat) (s : List Char) : Except Malformed (Mark s) :=
  match Opening.ofText s with
  | .nothing => .error ⟨position, unclosedTag⟩
  | .badComment => .error ⟨position, unclosedComment⟩
  | .badCdata => .error ⟨position, unclosedCdata⟩
  | .unknown => .error ⟨position, unknownMark⟩
  | .comment =>
    match h : splitAtMark ['-', '-', '>'] (s.drop 3) with
    | none => .error ⟨position, unclosedComment⟩
    | some (content, rest) =>
      .ok ⟨.comment (String.ofList content), position + 7 + width content, rest,
        length_of_splitAtMark_drop h⟩
  | .cdata =>
    match h : splitAtMark [']', ']', '>'] (s.drop 8) with
    | none => .error ⟨position, unclosedCdata⟩
    | some (content, rest) =>
      .ok ⟨.cdata (String.ofList content), position + 12 + width content, rest,
        length_of_splitAtMark_drop h⟩
  | .doctype =>
    match h : splitBalanced 0 s with
    | none => .error ⟨position, unclosedDoctype⟩
    | some (content, rest) =>
      have := length_of_splitBalanced h
      if (content.take 8).map Char.toUpper ≠ ['!', 'D', 'O', 'C', 'T', 'Y', 'P', 'E'] then
        .error ⟨position, unclosedDoctype⟩
      else if (content.drop 8).all isSpace then
        .error ⟨position + 1 + width content, namelessDoctype⟩
      else .ok ⟨.doctype, position + 2 + width content, rest, by omega⟩
  | .instruction =>
    match h : splitAtMark ['?', '>'] s with
    | none => .error ⟨position, unclosedInstruction⟩
    | some ([], _) => .error ⟨position, unclosedInstruction⟩
    | some (_ :: content, rest) =>
      have := length_of_splitAtMark h
      .ok ⟨readInstruction content, position + 4 + width content, rest, by omega⟩
  | .stop =>
    match h : splitTag none s with
    | none => .error ⟨position, unclosedTag⟩
    | some (content, rest) =>
      have := length_of_splitTag h
      .ok ⟨readStop (content.drop 1), position + 2 + width content, rest, by omega⟩
  | .start =>
    match h : splitTag none s with
    | none => .error ⟨position, unclosedTag⟩
    | some (content, rest) =>
      have := length_of_splitTag h
      match readStart content with
      | .error e => .error ⟨position + 2 + width content, e.message⟩
      | .ok event => .ok ⟨event, position + 2 + width content, rest, by omega⟩

/--
The events of `s`, which begins at byte `position`. White space is dropped before and after a run of
character data; an error of its entities is placed where the run ends.
-/
def eventsFrom (position : Nat) (s : List Char) : Reading :=
  let start := position + width (s.takeWhile isSpace)
  match hs : s.dropWhile isSpace with
  | [] => ⟨[], .ok start⟩
  | c :: body =>
    have hle : body.length < s.length := by
      have := (List.dropWhile_sublist isSpace (l := s)).length_le
      rw [hs, List.length_cons] at this
      omega
    if c = '<' then
      match readMark start body with
      | .error e => ⟨[], .error e⟩
      | .ok mark =>
        have := mark.shorter
        (eventsFrom mark.stop mark.rest).cons ⟨mark.event, start, mark.stop⟩
    else
      let run := c :: body.takeWhile (· != '<')
      let rest := body.dropWhile (· != '<')
      have := (List.dropWhile_sublist (· != '<') (l := body)).length_le
      let stop := start + width run
      match unescapeList (trimEndList isSpace run) with
      | .error e => ⟨[], .error ⟨stop, e.message⟩⟩
      | .ok text => (eventsFrom stop rest).cons ⟨.text (String.ofList text), start, stop⟩
termination_by s.length

/-- The events of a whole text. A byte order mark in front is skipped and not counted. -/
def events (s : String) : Reading :=
  match s.toList with
  | [] => eventsFrom 0 []
  | c :: rest => if c = '\uFEFF' then eventsFrom 0 rest else eventsFrom 0 (c :: rest)

end JavaMigration.Markup
