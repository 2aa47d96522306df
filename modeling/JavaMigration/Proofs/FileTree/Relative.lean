import JavaMigration.Proofs.FileTree.Shown

/-!
# Relative paths

Below a root, a path is told apart by the form in which it is shown as far as its names are. However
the two are spelled, that form is made of the names that lead down from the root, and where these
are texts it can be taken apart again.
-/

namespace JavaMigration.Path

open Text (lossy IsText)

variable {root p q : Path} {names names' : List Name} {s t step : List UInt8}

theorem exists_pieces (p : Path) : ∃ first rest, p.pieces = first :: rest :=
  List.exists_cons_of_ne_nil (splitSlash_ne_nil p.bytes)

theorem pieces_of_isIdle (idle : isIdle step = true) : pieces ⟨step⟩ = [step] := by
  rcases (by simpa [isIdle] using idle : step = [] ∨ step = [point]) with rfl | rfl
  · rfl
  · rfl

theorem parts_of_isIdle (idle : isIdle step = true) (s t : List UInt8) :
    parts ⟨s ++ slash :: (step ++ slash :: t)⟩ = parts ⟨s ++ slash :: t⟩ := by
  obtain ⟨first, rest, before⟩ := exists_pieces ⟨s⟩
  obtain ⟨next, more, after⟩ := exists_pieces ⟨t⟩
  have joined : pieces ⟨s ++ slash :: t⟩ = pieces ⟨s⟩ ++ pieces ⟨t⟩ := splitSlash_append s t
  have written : pieces ⟨s ++ slash :: (step ++ slash :: t)⟩ =
      pieces ⟨s⟩ ++ (pieces ⟨step⟩ ++ pieces ⟨t⟩) := by
    rw [pieces, splitSlash_append, splitSlash_append]
    rfl
  rw [pieces_of_isIdle idle] at written
  rw [before, after] at written joined
  rw [parts_of_pieces written (by simp), parts_of_pieces joined (by simp)]
  simp [List.filter_append, idle]

/-- Names lead down from a root to a path, in whichever way the two are spelled. -/
structure LeadsDown (root p : Path) (names : List Name) : Prop where
  parts_eq : p.parts = root.parts ++ names
  named : ∀ name ∈ names, IsFileName name

theorem leadsDown_root (root : Path) : LeadsDown root root [] where
  parts_eq := (List.append_nil _).symm
  named := nofun

namespace LeadsDown

theorem relativeTo_eq (leads : LeadsDown root p names) : root.relativeTo p = shownBelow names :=
  relativeTo_of_parts leads.parts_eq

theorem parts_eq_iff (leads : LeadsDown root p names) (leads' : LeadsDown root q names') :
    p.parts = q.parts ↔ names = names' := by
  rw [leads.parts_eq, leads'.parts_eq, List.append_cancel_left_eq]

theorem relativeTo_eq_iff (leads : LeadsDown root p names) (leads' : LeadsDown root q names') :
    root.relativeTo p = root.relativeTo q ↔ names.map lossy = names'.map lossy := by
  rw [leads.relativeTo_eq, leads'.relativeTo_eq]
  exact shownBelow_eq_iff leads.named leads'.named

theorem relativeTo_eq_iff_of_isText (leads : LeadsDown root p names)
    (leads' : LeadsDown root q names') (texts : ∀ name ∈ names, IsText name)
    (texts' : ∀ name ∈ names', IsText name) :
    root.relativeTo p = root.relativeTo q ↔ p.parts = q.parts := by
  rw [leads.relativeTo_eq_iff leads', leads.parts_eq_iff leads']
  exact ⟨eq_of_map_lossy texts texts', congrArg (List.map lossy)⟩

theorem relativeTo_eq_point_iff (leads : LeadsDown root p names) :
    root.relativeTo p = "." ↔ p.parts = root.parts := by
  have point : root.relativeTo root = "." := (leadsDown_root root).relativeTo_eq
  rw [← point, leads.relativeTo_eq_iff (leadsDown_root root), leads.parts_eq_iff (leadsDown_root root)]
  simp

end LeadsDown

theorem parts_join_of_isEmpty (empty : root.bytes.isEmpty = true) (nonempty : names ≠ [])
    (named : ∀ name ∈ names, IsFileName name) :
    (root.join ⟨joinSlash names⟩).parts = root.parts ++ names := by
  obtain ⟨name, more, rfl⟩ := List.exists_cons_of_ne_nil nonempty
  have none : root.parts = [] := by
    obtain ⟨bytes⟩ := root
    obtain rfl : bytes = [] := List.isEmpty_iff.1 empty
    rfl
  have rest : more.filter (!isIdle ·) = more := by
    rw [List.filter_eq_self]
    intro other mem
    simpa using (named other (.tail _ mem)).solid
  have solid : name ≠ [] := (named name (.head _)).ne_nil
  have written := pieces_joinSlash (List.cons_ne_nil name more) named
  rw [join, empty, Bool.or_true, if_pos rfl, parts_of_pieces written (by simp [solid]), none, rest,
    if_neg solid, List.nil_append]

/-- What is shown leads down by the texts that the names are shown as. -/
theorem LeadsDown.parts_join_relativeTo (leads : LeadsDown root p names) (nonempty : names ≠ []) :
    (root.join ⟨Text.bytes (root.relativeTo p)⟩).parts =
      root.parts ++ (names.map lossy).map Text.bytes := by
  have filled : (names.map lossy).map Text.bytes ≠ [] := by simpa using nonempty
  have named : ∀ name ∈ (names.map lossy).map Text.bytes, IsFileName name := by
    simp only [List.map_map, List.mem_map, Function.comp_apply, forall_exists_index, and_imp,
      forall_apply_eq_imp_iff₂]
    exact fun name mem => (leads.named name mem).bytes_lossy
  rw [leads.relativeTo_eq, bytes_shownBelow nonempty]
  cases empty : root.bytes.isEmpty with
  | false => exact parts_join empty filled named
  | true => exact parts_join_of_isEmpty empty filled named

/--
Below a root, two paths are shown alike exactly if their names are, so among texts exactly if they
have the same components; the root alone is shown as a point; and any other path is shown by the
names that lead down to it, with slashes between them. From the root this leads there again exactly
if the names are texts. Steps that lead nowhere are no components.
-/
theorem relativeTo_identifies (root : Path) :
    (∀ p q names names', LeadsDown root p names → LeadsDown root q names' →
      (root.relativeTo p = root.relativeTo q ↔ names.map lossy = names'.map lossy) ∧
      ((∀ name ∈ names, IsText name) → (∀ name ∈ names', IsText name) →
        (root.relativeTo p = root.relativeTo q ↔ p.parts = q.parts))) ∧
    (∀ p names, LeadsDown root p names →
      (root.relativeTo p = "." ↔ p.parts = root.parts) ∧
      (p.parts ≠ root.parts → root.relativeTo p = "/".intercalate (names.map lossy) ∧
        ((root.join ⟨Text.bytes (root.relativeTo p)⟩).parts = p.parts ↔
          ∀ name ∈ names, IsText name))) ∧
    ∀ s step t, isIdle step = true →
      parts ⟨s ++ slash :: (step ++ slash :: t)⟩ = parts ⟨s ++ slash :: t⟩ := by
  refine ⟨fun p q names names' leads leads' =>
    ⟨leads.relativeTo_eq_iff leads', leads.relativeTo_eq_iff_of_isText leads'⟩, ?_,
    fun s step t idle => parts_of_isIdle idle s t⟩
  intro p names leads
  refine ⟨leads.relativeTo_eq_point_iff, fun other => ?_⟩
  have nonempty : names ≠ [] := by
    rintro rfl
    exact other (leads.parts_eq.trans (List.append_nil _))
  constructor
  · obtain ⟨name, more, rfl⟩ := List.exists_cons_of_ne_nil nonempty
    exact leads.relativeTo_eq
  · rw [leads.parts_join_relativeTo nonempty, leads.parts_eq, List.append_cancel_left_eq,
      map_bytes_lossy_eq_iff]

/-- The same file in two spellings, below a root in a third one, and its neighbour. -/
theorem relativeTo_identifies_spelled :
    let root : Path := ⟨"/p/./x"⟩
    LeadsDown root ⟨"/p//x/a/./b"⟩ ["a", "b"] ∧ LeadsDown root ⟨"/p/x/a/b/"⟩ ["a", "b"] ∧
      root.relativeTo ⟨"/p//x/a/./b"⟩ = root.relativeTo ⟨"/p/x/a/b/"⟩ ∧
      root.relativeTo ⟨"/p//x/a/./b"⟩ = "a/b" ∧
      (root.join ⟨Text.bytes (root.relativeTo ⟨"/p//x/a/./b"⟩)⟩).parts = parts ⟨"/p//x/a/./b"⟩ ∧
      parts ⟨"/p/./x"⟩ = parts ⟨"/p/x"⟩ := by
  intro root
  have first : LeadsDown root ⟨"/p//x/a/./b"⟩ ["a", "b"] := ⟨by decide, by decide⟩
  have second : LeadsDown root ⟨"/p/x/a/b/"⟩ ["a", "b"] := ⟨by decide, by decide⟩
  have texts : ∀ name ∈ (["a", "b"] : List String).map Text.bytes, IsText name := by decide
  obtain ⟨injective, shown, spelled⟩ := relativeTo_identifies root
  obtain ⟨names, joined⟩ := (shown _ _ first).2 (by decide)
  exact ⟨first, second, ((injective _ _ _ _ first second).2 texts texts).2 (by decide),
    names.trans (by decide), joined.2 texts, spelled "/p" [point] "x" (by decide)⟩

/--
The names of one byte each that no text has are shown alike. And a root that begins with a point is
not above a path that does not, wherever the two lead.
-/
theorem relativeTo_confuses :
    let root : Path := ⟨"/p"⟩
    let p : Path := ⟨Text.bytes "/p/" ++ [0xfc]⟩
    let q : Path := ⟨Text.bytes "/p/" ++ [0xf6]⟩
    LeadsDown root p [[0xfc]] ∧ LeadsDown root q [[0xf6]] ∧ p.parts ≠ q.parts ∧
      root.relativeTo p = root.relativeTo q ∧
      (root.join ⟨Text.bytes (root.relativeTo p)⟩).parts ≠ p.parts ∧
      relativeTo ⟨"./x"⟩ ⟨"x/a"⟩ = "x/a" := by
  refine ⟨⟨by decide, by decide⟩, ⟨by decide, by decide⟩, ?_⟩
  decide

end JavaMigration.Path
