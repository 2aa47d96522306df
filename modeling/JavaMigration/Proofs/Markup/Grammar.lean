import JavaMigration.Proofs.Markup.Forest

/-!
# The grammar of documents

Which sequences of events make a document: one element whose tags are balanced, with comments and
blank character data around it. What an element directly encloses is told by the events between its
tags, and is what the pieces of its content add to it.
-/

namespace JavaMigration.Markup

open Text

namespace Event

/-- A comment or blank character data, which may stand outside the root. -/
def IsItem : Event → Prop
  | comment _ => True
  | text s => allBlank s = true
  | cdata s => allBlank s = true
  | _ => False

def data? : Event → Option String
  | text s => some s
  | cdata s => some s
  | _ => none

end Event

def Nested.isElement : Nested Event → Bool
  | leaf (.empty _ _) => true
  | leaf _ => false
  | element _ _ _ => true

/-- The events are items, those of exactly one element with balanced tags, and items again. -/
def IsDocument (item : Event → Prop) (es : List Event) : Prop :=
  ∃ before node after, es = before ++ (Nested.flatten node ++ after) ∧
    Nested.IsProper some node ∧ node.isElement = true ∧ ∀ e ∈ before ++ after, item e

/--
The data that an element encloses directly, told by the events after its start tag. Of the elements
within it `depth` are open.
-/
def enclosedData (depth : Nat) : List Event → List String
  | [] => []
  | e :: es =>
    match e, depth with
    | .start _ _, depth => enclosedData (depth + 1) es
    | .stop _, 0 => []
    | .stop _, depth + 1 => enclosedData depth es
    | .text s, 0 => s :: enclosedData 0 es
    | .cdata s, 0 => s :: enclosedData 0 es
    | _, depth => enclosedData depth es

def joined? (segments : List String) : Option String :=
  if segments.isEmpty then none else some (String.join segments)

def elementTexts : List Event → List (Option String)
  | [] => []
  | .start _ _ :: es => joined? (enclosedData 0 es) :: elementTexts es
  | .empty _ _ :: es => none :: elementTexts es
  | _ :: es => elementTexts es

namespace Nested

def segments (content : List (Nested Event)) : List String :=
  (direct content).filterMap Event.data?

theorem segments_append (ns ns' : List (Nested Event)) :
    segments (ns ++ ns') = segments ns ++ segments ns' := by
  simp only [segments, direct, List.filterMap_append]

def addSegment (text : Option String) (segment : String) : Option String :=
  some (text.getD "" ++ segment)

theorem foldl_addSegment (segments : List String) (text : Option String) :
    segments.foldl addSegment text =
      if segments.isEmpty then text else some (text.getD "" ++ String.join segments) := by
  induction segments generalizing text with
  | nil => rfl
  | cons s segments ih =>
    rw [List.foldl_cons, ih]
    cases segments with
    | nil => simp [addSegment]
    | cons s' segments => simp [addSegment, String.append_assoc]

theorem text_fill_some (c : Contents) (n : Nested Event) :
    (fill some c n).text = (segments [n]).foldl addSegment c.text := by
  cases n with
  | leaf e => cases e <;> rfl
  | element opening content closing => cases opening <;> rfl

theorem text_fillAll_some (c : Contents) (content : List (Nested Event)) :
    (fillAll some c content).text = (segments content).foldl addSegment c.text := by
  induction content generalizing c with
  | nil => rfl
  | cons n ns ih =>
    rw [fillAll, ih, text_fill_some, ← List.foldl_append, ← segments_append, List.singleton_append]

/-- What is stored of an element's data is all of it, in order. -/
theorem text_fillAll_eq_joined (content : List (Nested Event)) :
    (fillAll some {} content).text = joined? (segments content) := by
  rw [text_fillAll_some, foldl_addSegment, joined?]
  simp

theorem enclosedData_flatten {n : Nested Event} (proper : IsProper some n) (depth : Nat)
    (es : List Event) :
    enclosedData depth (flatten n ++ es) =
      (if depth = 0 then segments [n] else []) ++ enclosedData depth es := by
  induction proper generalizing depth es with
  | @leaf e start stop =>
    cases depth with
    | zero =>
      cases e with
      | start name attributes => exact absurd rfl (start name attributes)
      | stop name => exact absurd rfl (stop name)
      | _ => rfl
    | succ depth =>
      cases e with
      | start name attributes => exact absurd rfl (start name attributes)
      | stop name => exact absurd rfl (stop name)
      | _ => rfl
  | @element opening closing content name attributes start proper stop ih =>
    obtain rfl := Option.some.inj start
    obtain rfl := Option.some.inj stop
    have inside (ns : List (Nested Event)) (sub : ∀ n ∈ ns, n ∈ content) (es : List Event) :
        enclosedData (depth + 1) (flattenAll ns ++ es) = enclosedData (depth + 1) es := by
      induction ns with
      | nil => rfl
      | cons n ns ihs =>
        rw [flattenAll, List.append_assoc, ih n (sub n (by simp))]
        simpa using ihs fun m mem => sub m (by simp [mem])
    have none : segments [.element (.start name attributes) content (.stop name)] = [] := rfl
    rw [none, ite_self, List.nil_append, flatten, List.cons_append, List.append_assoc]
    exact inside content (fun _ mem => mem) (.stop name :: es)

theorem enclosedData_flattenAll {content : List (Nested Event)}
    (proper : ∀ n ∈ content, IsProper some n) (es : List Event) :
    enclosedData 0 (flattenAll content ++ es) = segments content ++ enclosedData 0 es := by
  induction content with
  | nil => rfl
  | cons n ns ih =>
    have first := enclosedData_flatten (proper n (by simp)) 0 (flattenAll ns ++ es)
    have rest := ih fun m mem => proper m (by simp [mem])
    rw [flattenAll, List.append_assoc, first, rest, ← List.append_assoc]
    exact congrArg (· ++ _) (segments_append [n] ns).symm

/-- The texts of the elements of a piece, one for each of them in order. -/
theorem elementTexts_flatten {n : Nested Event} (proper : IsProper some n) (es : List Event) :
    elementTexts (flatten n ++ es) =
      (elements some n).map (fun p => joined? (segments p.2)) ++ elementTexts es := by
  induction proper generalizing es with
  | @leaf e start stop =>
    cases e with
    | start name attributes => exact absurd rfl (start name attributes)
    | stop name => exact absurd rfl (stop name)
    | _ => rfl
  | @element opening closing content name attributes start proper stop ih =>
    obtain rfl := Option.some.inj start
    obtain rfl := Option.some.inj stop
    have inside (ns : List (Nested Event)) (sub : ∀ n ∈ ns, n ∈ content) (es : List Event) :
        elementTexts (flattenAll ns ++ es) =
          (elementsAll some ns).map (fun p => joined? (segments p.2)) ++ elementTexts es := by
      induction ns with
      | nil => rfl
      | cons n ns ihs =>
        have rest := ihs fun m mem => sub m (by simp [mem])
        rw [flattenAll, List.append_assoc, ih n (sub n (by simp)), rest, elementsAll,
          List.map_append, List.append_assoc]
    have own : enclosedData 0 (flattenAll content ++ .stop name :: es) = segments content := by
      rw [enclosedData_flattenAll proper]
      exact List.append_nil _
    rw [flatten, List.cons_append, List.append_assoc, List.singleton_append, elementTexts, own,
      inside content fun _ mem => mem]
    rfl

end Nested

end JavaMigration.Markup
