import JavaMigration.Proofs.FileTree.Putting

/-!
# Names beside a file

What is appended to the path of a file lengthens the last piece of that path. Without a slash
in it, the longer name stands in the same directory, whatever way led there.
-/

namespace JavaMigration

theorem splitSlash_ne_nil (s : List UInt8) : splitSlash s ≠ [] := by
  induction s with
  | nil => simp [splitSlash]
  | cons b rest ih =>
    rw [splitSlash]
    split
    · simp
    · split
      · simp
      · simp

theorem splitSlash_of_notMem {s : List UInt8} (h : slash ∉ s) : splitSlash s = [s] := by
  induction s with
  | nil => rfl
  | cons b rest ih =>
    simp only [List.mem_cons, not_or] at h
    rw [splitSlash, if_neg (Ne.symm h.1), ih h.2]

theorem splitSlash_append (s s' : List UInt8) :
    splitSlash (s ++ slash :: s') = splitSlash s ++ splitSlash s' := by
  induction s with
  | nil => simp [splitSlash]
  | cons b rest ih =>
    by_cases same : b = slash
    · simp only [List.cons_append, splitSlash, same, ↓reduceIte, ih]
    · simp only [List.cons_append, splitSlash, same, ↓reduceIte, ih]
      cases pieces : splitSlash rest with
      | nil => exact absurd pieces (splitSlash_ne_nil rest)
      | cons piece pieces => simp only [List.cons_append]

theorem splitSlash_concat (s : List UInt8) : splitSlash (s ++ [slash]) = splitSlash s ++ [[]] :=
  splitSlash_append s []

/-- The last piece goes on where no slash occurs any more. -/
theorem exists_splitSlash_append (s : List UInt8) :
    ∃ init last, ∀ s', slash ∉ s' → splitSlash (s ++ s') = init ++ [last ++ s'] := by
  induction s with
  | nil => exact ⟨[], [], fun s' h => by simp [splitSlash_of_notMem h]⟩
  | cons b rest ih =>
    obtain ⟨init, last, split⟩ := ih
    by_cases same : b = slash
    · refine ⟨[] :: init, last, ?_⟩
      intro s' h
      simp only [List.cons_append, splitSlash, same, ↓reduceIte, split s' h]
    · cases init with
      | nil =>
        refine ⟨[], b :: last, ?_⟩
        intro s' h
        simp only [List.cons_append, splitSlash, same, ↓reduceIte, split s' h, List.nil_append]
      | cons piece pieces =>
        refine ⟨(b :: piece) :: pieces, last, ?_⟩
        intro s' h
        simp only [List.cons_append, splitSlash, same, ↓reduceIte, split s' h]

theorem notMem_of_mem_splitSlash {s piece : List UInt8} (h : piece ∈ splitSlash s) :
    slash ∉ piece := by
  induction s generalizing piece with
  | nil =>
    rw [List.mem_singleton.1 h]
    simp
  | cons b rest ih =>
    rw [splitSlash] at h
    split at h
    · rcases List.mem_cons.1 h with rfl | mem
      · simp
      · exact ih mem
    · rename_i other
      split at h
      · rw [List.mem_singleton.1 h]
        simpa using Ne.symm other
      · rename_i first pieces split
        rcases List.mem_cons.1 h with rfl | mem
        · have inner : slash ∉ first := ih (by simp [split])
          simp [inner, Ne.symm other]
        · exact ih (by simp [split, mem])

@[simp]
theorem joinSlash_singleton (name : Name) : joinSlash [name] = name :=
  List.intercalate_singleton

theorem joinSlash_cons_cons (name next : Name) (names : List Name) :
    joinSlash (name :: next :: names) = name ++ slash :: joinSlash (next :: names) := by
  rw [joinSlash, List.intercalate_cons_cons, List.append_assoc]
  rfl

theorem joinSlash_concat {init : List Name} (nonempty : init ≠ []) (name : Name) :
    joinSlash (init ++ [name]) = joinSlash init ++ slash :: name := by
  induction init with
  | nil => exact absurd rfl nonempty
  | cons first rest ih =>
    cases rest with
    | nil => simp [joinSlash_cons_cons]
    | cons next rest =>
      rw [List.cons_append, List.cons_append, joinSlash_cons_cons, ← List.cons_append,
        ih (by simp), joinSlash_cons_cons, List.append_assoc, List.cons_append]

/-- Names without slashes are told apart again where they are joined by slashes. -/
theorem splitSlash_joinSlash {names : List Name} (nonempty : names ≠ [])
    (plain : ∀ name ∈ names, slash ∉ name) : splitSlash (joinSlash names) = names := by
  induction names with
  | nil => exact absurd rfl nonempty
  | cons name rest ih =>
    have first := splitSlash_of_notMem (plain name (by simp))
    cases rest with
    | nil => rw [joinSlash_singleton, first]
    | cons next rest =>
      rw [joinSlash_cons_cons, splitSlash_append, first,
        ih (by simp) fun other mem => plain other (by simp [mem])]
      rfl

namespace Path

def extend (p : Path) (suffix : List UInt8) : Path :=
  ⟨p.bytes ++ suffix⟩

theorem exists_pieces_extend (p : Path) :
    ∃ init last, ∀ suffix, slash ∉ suffix → (p.extend suffix).pieces = init ++ [last ++ suffix] :=
  exists_splitSlash_append p.bytes

theorem slash_notMem_of_mem_pieces {p : Path} {piece : Name} (h : piece ∈ p.pieces) :
    slash ∉ piece :=
  notMem_of_mem_splitSlash h

theorem extend_nil (p : Path) : p.extend [] = p := by
  simp [extend]

theorem exists_pieces_concat (p : Path) :
    ∃ init last, p.pieces = init ++ [last] ∧
      ∀ suffix, slash ∉ suffix → (p.extend suffix).pieces = init ++ [last ++ suffix] := by
  obtain ⟨init, last, extended⟩ := p.exists_pieces_extend
  refine ⟨init, last, ?_, extended⟩
  simpa [extend_nil] using extended [] (by simp)

end Path

namespace FileTree

variable {t : FileTree} {p : Path} {l : Location}

theorem exists_pieces_of_namesDirectory (h : namesDirectory p = true) :
    ∃ init, p.pieces = init ++ [[]] := by
  simp only [namesDirectory, decide_eq_true_eq] at h
  obtain ⟨init, written⟩ := List.getLast?_eq_some_iff.1 h
  exact ⟨splitSlash init, by rw [Path.pieces, written, splitSlash_concat]⟩

/-- The last piece of a path is a step from a directory that the others lead to. -/
theorem locate_eq_ok {init : List Name} {piece : Name} (written : p.pieces = init ++ [piece])
    (leads : t.locate p = .ok l) :
    p.bytes.isEmpty = false ∧ ∃ dir, t.follow (t.start p) init = .ok dir ∧
      t.entry? dir = some .directory ∧
      l = if Path.isIdle piece then dir else if piece = Path.upward then dir.dropLast
        else dir ++ [piece] := by
  unfold locate at leads
  split at leads
  · cases leads
  · rename_i nonempty
    rw [written, follow_append] at leads
    cases inner : t.follow (t.start p) init with
    | error _ => simp [inner, bind, Except.bind] at leads
    | ok dir =>
      simp only [inner, bind, Except.bind] at leads
      have directory := directory_of_follow_cons leads
      rw [follow_cons directory, follow, Except.ok.injEq] at leads
      exact ⟨by simpa using nonempty, dir, rfl, directory, leads.symm⟩

theorem directory_of_namesDirectory (h : namesDirectory p = true) (leads : t.locate p = .ok l) :
    t.entry? l = some .directory := by
  obtain ⟨init, written⟩ := exists_pieces_of_namesDirectory h
  obtain ⟨-, dir, -, directory, rfl⟩ := locate_eq_ok written leads
  exact directory

theorem not_namesDirectory_of_find {content : ByteArray} (h : t.find p = .ok (l, .file content)) :
    namesDirectory p = false := by
  rw [find_eq_ok] at h
  cases trailing : namesDirectory p with
  | false => rfl
  | true =>
    have directory := directory_of_namesDirectory trailing h.1
    rw [h.2] at directory
    cases directory

/-- The file that a path leads to is written in its place, unless it is locked. -/
theorem target_of_find {content : ByteArray} (h : t.find p = .ok (l, .file content)) :
    t.target p = if l ∈ t.locked then .error .denied else .ok l := by
  have plain := not_namesDirectory_of_find h
  rw [find_eq_ok] at h
  simp [target, plain, h.1, h.2, bind, Except.bind]

/-- Whatever is where a path leads, it is not kept from being written. -/
def IsUnlocked (t : FileTree) (p : Path) : Prop :=
  ∀ l, t.locate p = .ok l → l ∉ t.locked

theorem writeText_of_find {content : ByteArray} (h : t.find p = .ok (l, .file content))
    (s : String) :
    t.writeText p s =
      if l ∈ t.locked then .error .denied else .ok (t.put l (.file s.toUTF8)) := by
  rw [writeText, write, target_of_find h]
  split <;> rfl

theorem start_extend (h : p.bytes.isEmpty = false) (suffix : List UInt8) :
    t.start (p.extend suffix) = t.start p := by
  have nonempty : p.bytes ≠ [] := by simpa using h
  obtain ⟨b, rest, written⟩ := List.exists_cons_of_ne_nil nonempty
  simp only [start, Path.isAbsolute, Path.extend, written, List.cons_append, List.head?_cons]

/--
Longer names of a file that a path leads to lead into one directory. They are neither idle nor do
they lead upward, if the suffix has more than two bytes.
-/
theorem exists_locate_extend {e : Entry} (h : t.find p = .ok (l, e)) :
    ∃ dir name, slash ∉ name ∧
      ∀ suffix : List UInt8, slash ∉ suffix → 2 < suffix.length →
        t.locate (p.extend suffix) = .ok (dir ++ [name ++ suffix]) := by
  obtain ⟨init, name, written, extended⟩ := p.exists_pieces_concat
  obtain ⟨nonempty, dir, inner, directory, -⟩ := locate_eq_ok written (find_eq_ok.1 h).1
  refine ⟨dir, name, Path.slash_notMem_of_mem_pieces (p := p) (by simp [written]), ?_⟩
  intro suffix plain long
  have proper : ∀ s : Name, s.length ≤ 2 → name ++ suffix ≠ s := by
    intro s short same
    have := congrArg List.length same
    rw [List.length_append] at this
    omega
  have idle : Path.isIdle (name ++ suffix) = false := by
    simp only [Path.isIdle, Bool.or_eq_false_iff, decide_eq_false_iff_not]
    exact ⟨proper _ (by decide), proper _ (by decide)⟩
  have full : (p.extend suffix).bytes.isEmpty = false := by
    simp only [Path.extend]
    simpa using fun none => absurd none (by simpa using nonempty)
  rw [locate, full, extended suffix plain, start_extend nonempty, follow_append, inner]
  simp only [Bool.false_eq_true, ↓reduceIte, bind, Except.bind]
  rw [follow_cons directory, idle]
  simp only [Bool.false_eq_true, ↓reduceIte, proper Path.upward (by decide), follow]

end FileTree

end JavaMigration
