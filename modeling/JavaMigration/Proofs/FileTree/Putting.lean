import JavaMigration.FileTree.Basic
import JavaMigration.Proofs.Table

/-!
# Putting entries

What a new or rewritten file does to the rest of its tree. Paths lead through directories alone, so
a file at a location that was no directory leaves every way that led somewhere as it was.
-/

namespace JavaMigration

namespace FileTree

variable {t u : FileTree} {l : Location} {p : Path} {e : Entry}

@[simp]
theorem lookup_nil (t : FileTree) : t.entry? [] = some .directory :=
  rfl

theorem ne_nil_of_not_directory (h : t.entry? l ≠ some .directory) : l ≠ [] := by
  intro top
  subst top
  exact h (lookup_nil t)

@[simp]
theorem start_put (t : FileTree) (l : Location) (e : Entry) (p : Path) :
    (t.put l e).start p = t.start p :=
  rfl

theorem lookup_put_self (h : l ≠ []) : entry? (t.put l e) l = some e := by
  unfold entry?
  simp [h, put]

theorem lookup_put_of_ne {l' : Location} (h : l' ≠ l) : entry? (t.put l e) l' = t.entry? l' := by
  unfold entry?
  simp only [put, Table.get?_insert, h.symm, ↓reduceIte]

theorem follow_cons (h : t.entry? l = some .directory) (step : Name) (steps : List Name) :
    t.follow l (step :: steps) =
      t.follow (if Path.isIdle step then l else if step = Path.upward then l.dropLast
        else l ++ [step]) steps := by
  rw [follow, h]
  by_cases idle : Path.isIdle step = true
  · simp only [idle, ↓reduceIte]
  · simp only [idle, Bool.false_eq_true, ↓reduceIte]
    by_cases upward : step = Path.upward
    · simp only [upward, ↓reduceIte]
    · simp only [upward, ↓reduceIte]

theorem directory_of_follow_cons {here : Location} {step : Name} {steps : List Name}
    (h : t.follow here (step :: steps) = .ok l) : t.entry? here = some .directory := by
  rw [follow] at h
  split at h
  · cases h
  · assumption
  · cases h

theorem follow_append (t : FileTree) (here : Location) (steps steps' : List Name) :
    t.follow here (steps ++ steps') = (do t.follow (← t.follow here steps) steps') := by
  induction steps generalizing here with
  | nil => rfl
  | cons step steps ih =>
    cases found : t.entry? here with
    | none => simp [follow, found]; rfl
    | some e =>
      cases e with
      | directory => rw [List.cons_append, follow_cons found, follow_cons found, ih]
      | file content => simp [follow, found]; rfl
      | special => simp [follow, found]; rfl

theorem follow_of_directories
    (kept : ∀ l, t.entry? l = some .directory → u.entry? l = some .directory) {here : Location}
    {steps : List Name} (leads : t.follow here steps = .ok l) : u.follow here steps = .ok l := by
  induction steps generalizing here with
  | nil => exact leads
  | cons step steps ih =>
    have directory := directory_of_follow_cons leads
    rw [follow_cons directory] at leads
    rw [follow_cons (kept here directory)]
    exact ih leads

theorem locate_of_directories
    (kept : ∀ l, t.entry? l = some .directory → u.entry? l = some .directory)
    (current : u.current = t.current) (leads : t.locate p = .ok l) : u.locate p = .ok l := by
  have start : u.start p = t.start p := by simp only [FileTree.start, current]
  unfold locate at leads ⊢
  split at leads
  · cases leads
  · rename_i nonempty
    simp only [nonempty, Bool.false_eq_true, ↓reduceIte, start]
    exact follow_of_directories kept leads

structure Extends (t u : FileTree) : Prop where
  entries : ∀ l e, t.entry? l = some e → u.entry? l = some e
  current : u.current = t.current

namespace Extends

theorem refl (t : FileTree) : t.Extends t where
  entries := fun _ _ h => h
  current := rfl

theorem put (t : FileTree) (e : Entry) (vacant : t.entry? l = none) : t.Extends (t.put l e) where
  entries := by
    intro l' e' present
    rw [lookup_put_of_ne _]
    · exact present
    · intro same
      rw [same, vacant] at present
      cases present
  current := rfl

theorem locate (h : t.Extends u) (leads : t.locate p = .ok l) : u.locate p = .ok l :=
  locate_of_directories (fun l => h.entries l .directory) h.current leads

end Extends

/--
The trees have the same directories, of which the same can be listed, and start at the same place.
So they have the same ways.
-/
structure SameDirectories (t u : FileTree) : Prop where
  directory : ∀ l, u.entry? l = some .directory ↔ t.entry? l = some .directory
  current : u.current = t.current
  unlisted : u.unlisted = t.unlisted

namespace SameDirectories

theorem refl (t : FileTree) : t.SameDirectories t where
  directory := fun _ => Iff.rfl
  current := rfl
  unlisted := rfl

theorem trans {v : FileTree} (h : t.SameDirectories u) (h' : u.SameDirectories v) :
    t.SameDirectories v where
  directory := fun l => (h'.directory l).trans (h.directory l)
  current := h'.current.trans h.current
  unlisted := h'.unlisted.trans h.unlisted

theorem put_file (content : ByteArray) (other : t.entry? l ≠ some .directory) :
    t.SameDirectories (t.put l (.file content)) where
  directory := by
    intro l'
    by_cases here : l' = l
    · rw [here, lookup_put_self (ne_nil_of_not_directory other)]
      simp [other]
    · rw [lookup_put_of_ne here]
  current := rfl
  unlisted := rfl

theorem locate_iff (h : t.SameDirectories u) : u.locate p = .ok l ↔ t.locate p = .ok l :=
  ⟨locate_of_directories (fun l => (h.directory l).1) h.current.symm,
    locate_of_directories (fun l => (h.directory l).2) h.current⟩

end SameDirectories

theorem find_eq_ok : t.find p = .ok (l, e) ↔ t.locate p = .ok l ∧ t.entry? l = some e := by
  unfold find
  cases place : t.locate p with
  | error _ => simp [bind, Except.bind]
  | ok l' =>
    simp only [bind, Except.bind, Except.ok.injEq]
    split
    · rename_i found
      simp only [Except.ok.injEq, Prod.mk.injEq]
      constructor
      · rintro ⟨rfl, rfl⟩
        exact ⟨rfl, found⟩
      · rintro ⟨rfl, found'⟩
        exact ⟨rfl, Option.some.inj (found.symm.trans found')⟩
    · rename_i missing
      constructor
      · intro h
        cases h
      · rintro ⟨rfl, found⟩
        rw [missing] at found
        cases found

theorem Extends.find (h : t.Extends u) (found : t.find p = .ok (l, e)) : u.find p = .ok (l, e) := by
  rw [find_eq_ok] at found ⊢
  exact ⟨h.locate found.1, h.entries _ _ found.2⟩

theorem contains_iff : t.contains p = true ↔ ∃ l e, t.find p = .ok (l, e) := by
  unfold contains
  cases found : t.find p with
  | error _ => simp [Except.isOk, Except.toBool]
  | ok place => simp [Except.isOk, Except.toBool, Prod.ext_iff]

theorem isFile_iff : t.isFile p = true ↔ ∃ l content, t.find p = .ok (l, .file content) := by
  unfold isFile
  split
  · rename_i l content found
    simp [found]
  · rename_i other
    simp only [Bool.false_eq_true, false_iff, not_exists]
    exact other

theorem content_eq_of_find {content : ByteArray} (h : t.find p = .ok (l, .file content)) :
    t.content p = .ok content := by
  simp [FileTree.content, h, bind, Except.bind]

theorem fromUTF8?_eq_some {content : ByteArray} {s : String} :
    String.fromUTF8? content = some s ↔ s.toUTF8 = content := by
  unfold String.fromUTF8?
  constructor
  · intro decoded
    split at decoded
    · cases decoded
      rfl
    · cases decoded
  · intro encoded
    subst encoded
    exact dif_pos s.isValidUTF8

theorem toUTF8_injective {s s' : String} (h : s.toUTF8 = s'.toUTF8) : s = s' :=
  String.toByteArray_inj.1 h

theorem isFile_of_content {content : ByteArray} (h : t.content p = .ok content) :
    t.isFile p = true := by
  unfold FileTree.content at h
  cases found : t.find p with
  | error e => simp [found, bind, Except.bind] at h
  | ok place =>
    obtain ⟨l, e⟩ := place
    cases e with
    | directory => simp [found, bind, Except.bind] at h
    | file content => exact isFile_iff.2 ⟨l, content, found⟩
    | special => simp [found, bind, Except.bind] at h

theorem text_eq_ok {s : String} : t.text p = .ok s ↔ t.content p = .ok s.toUTF8 := by
  unfold text
  cases read : t.content p with
  | error _ => simp [bind, Except.bind]
  | ok content =>
    simp only [bind, Except.bind, Except.ok.injEq, eq_comm (a := content), ← fromUTF8?_eq_some]
    cases decoded : String.fromUTF8? content with
    | none => simp
    | some s' => simp

/-- A file that is written anew leaves every way as it was, also those that lead nowhere. -/
theorem follow_put_file {old new : ByteArray} (h : t.entry? l = some (.file old))
    (here : Location) (steps : List Name) :
    (t.put l (.file new)).follow here steps = t.follow here steps := by
  have solid : l ≠ [] := ne_nil_of_not_directory (t := t) (by simp [h])
  induction steps generalizing here with
  | nil => rfl
  | cons step steps ih =>
    by_cases same : here = l
    · simp only [follow, same, lookup_put_self solid, h]
    · simp only [follow, lookup_put_of_ne same, ih]

theorem locate_put_file {old new : ByteArray} (h : t.entry? l = some (.file old)) (p : Path) :
    (t.put l (.file new)).locate p = t.locate p := by
  simp only [locate, start_put, follow_put_file h]

end FileTree

end JavaMigration
