import JavaMigration.Proofs.Markup.Header

/-!
# Reading a layout

The pieces of a written document, laid out over lines, are read back as one event each. Line breaks
and indentation stand where white space is dropped, and a text has a mark right behind it.
-/

namespace JavaMigration.Markup

open Text

/-- All of `s` is read as the given events, wherever it begins. -/
def ReadsAs (s : List Char) (events : List Event) : Prop :=
  ∀ position, (eventsFrom position s).events.map (·.event) = events ∧
    ∃ length, (eventsFrom position s).ending = .ok length

namespace ReadsAs

variable {s rest : List Char} {events : List Event}

theorem blank (h : ∀ c ∈ s, isSpace c = true) : ReadsAs s [] := by
  intro position
  have nothing : s.dropWhile isSpace = [] := List.dropWhile_eq_nil_iff.2 h
  rw [eventsFrom]
  split
  · exact ⟨rfl, _, rfl⟩
  · rename_i some
    exact absurd (nothing.symm.trans some) (by simp)

theorem mark (gap : List Char) {event : Event} (white : ∀ c ∈ gap, isSpace c = true)
    (h : ReadsMark s event rest) (read : ReadsAs rest events) :
    ReadsAs (gap ++ '<' :: s) (event :: events) := by
  intro position
  have solid : (gap ++ '<' :: s).dropWhile isSpace = '<' :: s := by
    rw [List.dropWhile_append_of_pos white]
    simp [List.dropWhile, isSpace]
  rw [eventsFrom]
  split
  · rename_i none
    exact absurd (solid.symm.trans none) (by simp)
  · rename_i c body some
    obtain ⟨rfl, rfl⟩ := List.cons.inj (solid.symm.trans some)
    obtain ⟨mark, found, rfl, rfl⟩ := h (position + width ((gap ++ '<' :: s).takeWhile isSpace))
    simp only [↓reduceIte, found]
    obtain ⟨others, length, ending⟩ := read mark.stop
    exact ⟨by simp [Reading.cons, others], length, ending⟩

theorem text {run : List Char} {value : String} (nonempty : run ≠ [])
    (trimmed : IsTrimmed isSpace run) (plain : '<' ∉ run)
    (resolved : unescapeList run = .ok value.toList) (read : ReadsAs ('<' :: rest) events) :
    ReadsAs (run ++ '<' :: rest) (.text value :: events) := by
  intro position
  obtain ⟨first, tail, rfl⟩ := List.exists_cons_of_ne_nil nonempty
  simp only [List.mem_cons, not_or] at plain
  have solid : (first :: tail ++ '<' :: rest).dropWhile isSpace = first :: (tail ++ '<' :: rest) :=
    dropWhile_eq_self fun c hc => trimmed.1 c (by simpa using hc)
  have inside : ∀ c ∈ tail, (c != '<') = true := fun c hc => by
    simpa using fun eq : c = '<' => plain.2 (eq ▸ hc)
  rw [eventsFrom]
  split
  · rename_i none
    exact absurd (solid.symm.trans none) (by simp)
  · rename_i c body some
    obtain ⟨rfl, rfl⟩ := List.cons.inj (solid.symm.trans some)
    have run : (tail ++ '<' :: rest).takeWhile (· != '<') = tail := by
      rw [List.takeWhile_append_of_pos inside]
      simp [List.takeWhile]
    have after : (tail ++ '<' :: rest).dropWhile (· != '<') = '<' :: rest := by
      rw [List.dropWhile_append_of_pos inside]
      simp [List.dropWhile]
    simp only [Ne.symm plain.1, ↓reduceIte, run, after, trimEndList_eq_self trimmed.2, resolved]
    obtain ⟨others, length, ending⟩ := read (position +
      width ((first :: tail ++ '<' :: rest).takeWhile isSpace) + width (first :: tail))
    refine ⟨?_, length, ending⟩
    rw [String.ofList_toList]
    exact congrArg (_ :: ·) others

end ReadsAs

def SpellsMark (s : String) (event : Event) : Prop :=
  ∃ body, s.toList = '<' :: body ∧ ∀ rest, ReadsMark (body ++ rest) event rest

structure SpellsText (s value : String) : Prop where
  nonempty : s.toList ≠ []
  trimmed : IsTrimmed isSpace s.toList
  plain : '<' ∉ s.toList
  resolved : unescapeList s.toList = .ok value.toList

/-- The pieces are read as the events, one by one. A text is followed by a mark. -/
inductive Spells : List Piece → List Event → Prop
  | nil : Spells [] []
  | mark {depth s event pieces events} :
      SpellsMark s event → Spells pieces events →
      Spells (.mark depth s :: pieces) (event :: events)
  | text {s value depth t pieces events} :
      SpellsText s value → Spells (.mark depth t :: pieces) events →
      Spells (.text s :: .mark depth t :: pieces) (.text value :: events)

namespace Spells

theorem append {pieces pieces' : List Piece} {events events' : List Event}
    (h : Spells pieces events) (h' : Spells pieces' events') :
    Spells (pieces ++ pieces') (events ++ events') := by
  induction h with
  | nil => exact h'
  | mark spelled _ ih => exact .mark spelled ih
  | text spelled _ ih => exact .text spelled ih

theorem singleton {depth : Nat} {s : String} {event : Event} (h : SpellsMark s event) :
    Spells [.mark depth s] [event] :=
  .mark h .nil

theorem cons_text {s value : String} {pieces : List Piece} {events : List Event}
    (spelled : SpellsText s value) (first : ∃ depth t rest, pieces = .mark depth t :: rest)
    (h : Spells pieces events) : Spells (.text s :: pieces) (.text value :: events) := by
  obtain ⟨depth, t, rest, rfl⟩ := first
  exact .text spelled h

theorem isSpace_indentation (depth : Nat) :
    ∀ c ∈ ("\n" ++ indentation depth).toList, isSpace c = true := by
  intro c hc
  simp only [indentation, String.toList_append, String.toList_ofList, List.mem_append,
    List.mem_replicate] at hc
  rcases hc with hc | ⟨-, rfl⟩
  · have : "\n".toList.all isSpace = true := by decide
    exact List.all_eq_true.1 this c hc
  · rfl

/-- A layout is read as the events of its pieces, up to the newline at its end. -/
theorem readsAs_layout {pieces : List Piece} {events : List Event} (h : Spells pieces events)
    (breakLine : Bool) : ReadsAs ((layout breakLine pieces).toList ++ ['\n']) events := by
  induction h generalizing breakLine with
  | nil => exact .blank (by simp [layout, isSpace])
  | @mark depth s event pieces events spelled _ ih =>
    obtain ⟨body, written, reads⟩ := spelled
    have later := (reads ((layout true pieces).toList ++ ['\n']))
    cases breakLine with
    | false => simpa [layout, written] using ReadsAs.mark [] (by simp) later (ih true)
    | true =>
      simpa [layout, written] using ReadsAs.mark _ (isSpace_indentation depth) later (ih true)
  | @text s value depth t pieces events spelled rest ih =>
    have later := ih false
    obtain ⟨body, written⟩ : ∃ body, (layout false (.mark depth t :: pieces)).toList ++ ['\n'] =
        '<' :: body := by
      cases rest with
      | mark spelled =>
        obtain ⟨body, written, -⟩ := spelled
        exact ⟨_, by simp [layout, written]; rfl⟩
    rw [layout, String.toList_append, List.append_assoc]
    rw [written] at later ⊢
    exact .text spelled.nonempty spelled.trimmed spelled.plain spelled.resolved later

end Spells

end JavaMigration.Markup
