import JavaMigration.Text.Blank

/-!
# Elements

The ordered element tree of a document. Names are kept as written and looked up by their local
part; a new child takes over the qualifier of its parent, so that a document keeps one spelling of
its namespace. Comments belong to the element they precede, or trail the children of the element
that encloses them, so a subtree leaves together with the comments that introduce it.
-/

namespace JavaMigration.Markup

structure Element where
  /-- The qualified name, as written. -/
  name : String
  /-- The attributes in order, with their references resolved. -/
  attributes : List (String × String) := []
  /-- The character data that the element encloses directly. -/
  text : Option String := none
  children : List Element := []
  /-- The comments directly before the element. -/
  leading : List String := []
  /-- The comments after the last child. -/
  trailing : List String := []
deriving Inhabited, Repr

mutual

def Element.decEq : (a b : Element) → Decidable (a = b)
  | ⟨n, as, t, cs, l, r⟩, ⟨n', as', t', cs', l', r'⟩ =>
    match decEqAll cs cs' with
    | .isTrue hc =>
      if h : n = n' ∧ as = as' ∧ t = t' ∧ l = l' ∧ r = r' then
        .isTrue (by simp [h, hc])
      else .isFalse (by simp [hc] at h ⊢; exact h)
    | .isFalse hc => .isFalse (by simp [hc])

def decEqAll : (a b : List Element) → Decidable (a = b)
  | [], [] => .isTrue rfl
  | [], _ :: _ => .isFalse (by simp)
  | _ :: _, [] => .isFalse (by simp)
  | a :: as, b :: bs =>
    match Element.decEq a b, decEqAll as bs with
    | .isTrue ha, .isTrue hs => .isTrue (by rw [ha, hs])
    | .isFalse ha, _ => .isFalse (by simp [ha])
    | _, .isFalse hs => .isFalse (by simp [hs])

end

instance : DecidableEq Element := Element.decEq

namespace Element

/-- The part of the name before its first colon, if the name has one. -/
def qualifier? (e : Element) : Option String :=
  match e.name.toList.dropWhile (· ≠ ':') with
  | [] => none
  | _ :: _ => some (String.ofList (e.name.toList.takeWhile (· ≠ ':')))

def localName (e : Element) : String :=
  match e.name.toList.dropWhile (· ≠ ':') with
  | [] => e.name
  | _ :: rest => String.ofList rest

def isNamed (localName : String) (e : Element) : Bool :=
  e.localName = localName

/-- The local name `localName` with the qualifier of `e`. -/
def qualify (e : Element) (localName : String) : String :=
  match e.qualifier? with
  | some q => q ++ ":" ++ localName
  | none => localName

/-- An element without content that has the qualifier of `e`. -/
def newChild (e : Element) (localName : String) : Element where
  name := e.qualify localName

/-- An element with a text that has the qualifier of `e`. -/
def newTextChild (e : Element) (localName text : String) : Element where
  name := e.qualify localName
  text := some text

def trimmedText? (e : Element) : Option String :=
  e.text.map Text.trim

def withText (text : String) (e : Element) : Element :=
  { e with text := some text }

def attribute? (e : Element) (key : String) : Option String :=
  e.attributes.lookup key

def child? (e : Element) (localName : String) : Option Element :=
  e.children.find? (isNamed localName)

def childrenNamed (e : Element) (localName : String) : List Element :=
  e.children.filter (isNamed localName)

/-- The trimmed text of the first child with the given local name. -/
def childText? (e : Element) (localName : String) : Option String :=
  (e.child? localName).bind trimmedText?

/--
The first element reached from `e` by steps to children with the local names of `path`. All
children of a name are tried, so an earlier one without the rest of the path hides nothing.
-/
def findPath? : List String → Element → Option Element
  | [], e => some e
  | step :: path, e => (e.childrenNamed step).findSome? (findPath? path)

mutual

/-- The first element, in document order, that the path `step :: path` reaches from `e` or below. -/
def findBelow? (step : String) (path : List String) : Element → Option Element
  | ⟨_, _, _, children, _, _⟩ => findAmong? step path children

def findAmong? (step : String) (path : List String) : List Element → Option Element
  | [] => none
  | c :: cs =>
    (if c.isNamed step then findPath? path c else none) <|>
      findBelow? step path c <|> findAmong? step path cs

end

/-- The first element below `e`, in document order, that a non-empty path of local names reaches. -/
def findDescendant? (path : List String) (e : Element) : Option Element :=
  match path with
  | [] => none
  | step :: path => findBelow? step path e

mutual

/-- The elements below `e` in document order. -/
def descendants : Element → List Element
  | ⟨_, _, _, children, _, _⟩ => descendantsAll children

def descendantsAll : List Element → List Element
  | [] => []
  | c :: cs => c :: (descendants c ++ descendantsAll cs)

end

mutual

/-- Applies `f` to the elements below `e`, each after those below it and with its number. -/
def mapDescendantsFrom (f : Nat → Element → Element) (n : Nat) : Element → Element × Nat
  | ⟨name, attributes, text, children, leading, trailing⟩ =>
    let (children, n) := mapAllFrom f n children
    (⟨name, attributes, text, children, leading, trailing⟩, n)

def mapAllFrom (f : Nat → Element → Element) (n : Nat) : List Element → List Element × Nat
  | [] => ([], n)
  | c :: cs =>
    let (c', next) := mapDescendantsFrom f (n + 1) c
    let (cs', last) := mapAllFrom f next cs
    (f n c' :: cs', last)

end

/--
The tree below `e` with every element `d` replaced by `f n d`, where `n` is the position of `d` in
document order and the elements below `d` have been replaced before.
-/
def mapDescendants (f : Nat → Element → Element) (e : Element) : Element :=
  (mapDescendantsFrom f 0 e).1

def push (e c : Element) : Element :=
  { e with children := e.children ++ [c] }

def insertFirst (e c : Element) : Element :=
  { e with children := c :: e.children }

def removeChildren (e : Element) (p : Element → Bool) : Element :=
  { e with children := e.children.filter fun c => !p c }

/-- Removes the children that satisfy `p` and appends `c` in their stead. -/
def replaceChildren (e : Element) (p : Element → Bool) (c : Element) : Element :=
  (e.removeChildren p).push c

/-- Applies `f` to the first element of the list that has the given local name. -/
def modifyFirst (localName : String) (f : Element → Element) : List Element → List Element
  | [] => []
  | c :: cs => if c.isNamed localName then f c :: cs else c :: modifyFirst localName f cs

def modifyChild (localName : String) (f : Element → Element) (e : Element) : Element :=
  { e with children := modifyFirst localName f e.children }

/--
Applies `f` to the first child with the given local name. Where there is none, applies it to a new
child and appends that.
-/
def updateChild (localName : String) (f : Element → Element) (e : Element) : Element :=
  match e.child? localName with
  | some _ => e.modifyChild localName f
  | none => e.push (f (e.newChild localName))

/-- Sets the text of the first child with the given local name, appended if there is none. -/
def setChildText (localName text : String) (e : Element) : Element :=
  e.updateChild localName (withText text)

/--
The element with its first child of the given local name, appended if there is none, and the
position of that child.
-/
def getOrCreateChild (localName : String) (e : Element) : Element × Nat :=
  match e.children.findIdx? (isNamed localName) with
  | some i => (e, i)
  | none => (e.push (e.newChild localName), e.children.length)

/-- Applies `f` to the child at a position. -/
def modifyChildAt (i : Nat) (f : Element → Element) (e : Element) : Element :=
  { e with children := e.children.modify i f }

/-- Sets the text of a child as `setChildText` does, and says what text it had before. -/
def replaceChildText (localName text : String) (e : Element) : Option String × Element :=
  let (e, i) := e.getOrCreateChild localName
  (e.children[i]?.bind (·.text), e.modifyChildAt i (withText text))

/-- Applies `f` to the element reached by child positions, each modulo the number of children. -/
def modifyAt (f : Element → Element) : List Nat → Element → Element
  | [], e => f e
  | i :: path, e =>
    if e.children.isEmpty then f e
    else { e with children := e.children.modify (i % e.children.length) (modifyAt f path) }

/-- The element reached by child positions, each modulo the number of children. -/
def getAt : List Nat → Element → Element
  | [], e => e
  | i :: path, e =>
    match e.children[i % e.children.length]? with
    | some c => getAt path c
    | none => e

end Element

end JavaMigration.Markup
