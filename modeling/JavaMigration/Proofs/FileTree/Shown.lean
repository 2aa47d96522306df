import JavaMigration.Proofs.FileTree.Unlisted

/-!
# How files are shown

A file below a root is shown by the names that lead to it from there, and the directory of a path
has the parts of the path but the last. So the files of a walk are shown in different ways as far as
their names are, and so are the directories of those that have the same name. Where the names are
texts, what is shown leads back to the file.
-/

namespace JavaMigration

open Text (bytes_eq bytes_append bytes_injective lossy lossy_bytes IsText)

theorem bytes_slash : Text.bytes "/" = [slash] := by
  rw [bytes_eq]
  decide

namespace Path

variable {root p q : Path} {first name : Name} {rest init names names' : List Name}

theorem bytes_shownBelow (nonempty : names ≠ []) :
    Text.bytes (shownBelow names) = joinSlash ((names.map lossy).map Text.bytes) := by
  have whole : shownBelow names = "/".intercalate (names.map lossy) := by
    unfold shownBelow
    split
    · exact absurd rfl nonempty
    · rfl
  rw [whole]
  clear whole
  induction names with
  | nil => exact absurd rfl nonempty
  | cons name rest ih =>
    cases rest with
    | nil => simp
    | cons next rest =>
      simp only [List.map_cons] at ih ⊢
      rw [String.intercalate_cons_cons, bytes_append, bytes_append, bytes_slash, ih (by simp),
        joinSlash_cons_cons]
      simp

theorem splitSlash_shownBelow (nonempty : names ≠ []) (named : ∀ name ∈ names, IsFileName name) :
    splitSlash (Text.bytes (shownBelow names)) = (names.map lossy).map Text.bytes := by
  rw [bytes_shownBelow nonempty]
  refine splitSlash_joinSlash (by simpa using nonempty) ?_
  simp only [List.map_map, List.mem_map, Function.comp_apply, forall_exists_index, and_imp,
    forall_apply_eq_imp_iff₂]
  exact fun name mem => (named name mem).bytes_lossy.plain

theorem shownBelow_ne_point (nonempty : names ≠ []) (named : ∀ name ∈ names, IsFileName name) :
    shownBelow names ≠ "." := by
  intro same
  have pieces := splitSlash_shownBelow nonempty named
  have alone : splitSlash (Text.bytes ".") = [[point]] := by decide
  rw [same, alone] at pieces
  obtain ⟨name, rest, rfl⟩ := List.exists_cons_of_ne_nil nonempty
  have shown : [point] = Text.bytes (lossy name) := (List.cons.inj pieces).1
  have solid := (named name (by simp)).bytes_lossy.solid
  rw [← shown] at solid
  cases solid

/-- Ways down are shown alike exactly if each of their names is. -/
theorem shownBelow_eq_iff (named : ∀ name ∈ names, IsFileName name)
    (named' : ∀ name ∈ names', IsFileName name) :
    shownBelow names = shownBelow names' ↔ names.map lossy = names'.map lossy := by
  by_cases none : names = []
  · subst none
    by_cases none' : names' = []
    · simp [none']
    · exact iff_of_false (Ne.symm (shownBelow_ne_point none' named')) (by simpa using none')
  · by_cases none' : names' = []
    · subst none'
      exact iff_of_false (shownBelow_ne_point none named) (by simpa using none)
    · constructor
      · intro same
        have pieces := splitSlash_shownBelow none named
        rw [same, splitSlash_shownBelow none' named'] at pieces
        exact (List.map_injective_iff.2 (fun _ _ => bytes_injective) pieces).symm
      · intro same
        apply bytes_injective
        rw [bytes_shownBelow none, bytes_shownBelow none', same]

theorem map_bytes_lossy_eq_iff :
    (names.map lossy).map Text.bytes = names ↔ ∀ name ∈ names, IsText name := by
  induction names with
  | nil => simp
  | cons name rest ih =>
    rw [List.map_cons, List.map_cons, List.cons.injEq, ih, List.forall_mem_cons]
    rfl

/-- Where names are texts, they are known from how they are shown. -/
theorem eq_of_map_lossy (texts : ∀ name ∈ names, IsText name) (texts' : ∀ name ∈ names', IsText name)
    (same : names.map lossy = names'.map lossy) : names = names' := by
  rw [← map_bytes_lossy_eq_iff.2 texts, same, map_bytes_lossy_eq_iff.2 texts']

theorem dropIdle_concat (first : Name) (pieces : List Name) :
    dropIdle (pieces ++ [first]) = pieces.dropWhile isIdle ++ [first] := by
  induction pieces with
  | nil => rfl
  | cons piece pieces ih =>
    have step : dropIdle (piece :: (pieces ++ [first])) =
        if isIdle piece then dropIdle (pieces ++ [first]) else piece :: (pieces ++ [first]) := by
      cases pieces <;> rfl
    rw [List.cons_append, step, ih, List.dropWhile_cons]
    split <;> rfl

theorem filter_dropWhile_isIdle (pieces : List Name) :
    (pieces.dropWhile isIdle).filter (!isIdle ·) = pieces.filter (!isIdle ·) := by
  induction pieces with
  | nil => rfl
  | cons piece pieces ih =>
    rw [List.dropWhile_cons]
    split
    · rename_i idle
      rw [ih, List.filter_cons, idle]
      rfl
    · rfl

theorem exists_dropWhile_isIdle (kept : names.filter (!isIdle ·) = name :: rest) :
    ∃ more, names.dropWhile isIdle = name :: more ∧ more.filter (!isIdle ·) = rest := by
  have filtered := (filter_dropWhile_isIdle names).trans kept
  cases left : names.dropWhile isIdle with
  | nil =>
    rw [left] at filtered
    cases filtered
  | cons other more =>
    have solid : isIdle other = false := by
      have := List.head?_dropWhile_not isIdle names
      simpa [left] using this
    rw [left, List.filter_cons_of_pos (by simp [solid])] at filtered
    obtain ⟨rfl, later⟩ := List.cons.inj filtered
    exact ⟨more, rfl, later⟩

def headPart (first : Name) : Name :=
  if first = [] then [slash] else first

theorem exists_outer (plain : ∀ piece ∈ first :: rest, slash ∉ piece) :
    ∃ q : Path, (match (first :: rest).reverse with
      | [[]] => some ⟨[slash]⟩
      | outer => some ⟨joinSlash outer.reverse⟩) = some q ∧
        q.parts = headPart first :: rest.filter (!isIdle ·) := by
  split
  · rename_i top
    obtain ⟨rfl, rfl⟩ := List.cons.inj (List.reverse_eq_iff.1 top)
    exact ⟨_, rfl, rfl⟩
  · rename_i outer other
    have written : pieces ⟨joinSlash (first :: rest)⟩ = first :: rest :=
      splitSlash_joinSlash (by simp) plain
    have solid : first :: rest ≠ [[]] := by
      intro top
      exact other (by rw [top]; rfl)
    refine ⟨_, rfl, ?_⟩
    rw [List.reverse_reverse, parts_of_pieces written solid, headPart]

theorem exists_parent? (written : p.pieces = first :: rest)
    (below : rest.filter (!isIdle ·) = init ++ [name]) :
    ∃ q, p.parent? = some q ∧ q.parts = headPart first :: init := by
  -- Backwards, the name comes first, after steps that lead nowhere, and so does what is before it.
  have backwards : rest.reverse.filter (!isIdle ·) = name :: init.reverse := by
    rw [List.filter_reverse, below, List.reverse_concat]
  obtain ⟨more, left, kept⟩ := exists_dropWhile_isIdle backwards
  have whole : dropIdle p.pieces.reverse = name :: (more ++ [first]) := by
    rw [written, List.reverse_cons, dropIdle_concat, left, List.cons_append]
  have outer : dropIdle (more ++ [first]) = (first :: (more.dropWhile isIdle).reverse).reverse := by
    rw [dropIdle_concat, List.reverse_cons, List.reverse_reverse]
  have plain : ∀ piece ∈ first :: (more.dropWhile isIdle).reverse, slash ∉ piece := by
    intro piece mem
    apply slash_notMem_of_mem_pieces (p := p)
    rw [written]
    rcases List.mem_cons.1 mem with rfl | mem
    · exact List.mem_cons_self
    · have inMore := (List.dropWhile_sublist _).subset (List.mem_reverse.1 mem)
      have inRest : piece ∈ rest.reverse.dropWhile isIdle := by
        rw [left]
        exact List.mem_cons_of_mem _ inMore
      exact List.mem_cons_of_mem _ (List.mem_reverse.1 ((List.dropWhile_sublist _).subset inRest))
  obtain ⟨q, directory, parts⟩ := exists_outer plain
  rw [List.filter_reverse, filter_dropWhile_isIdle, kept, List.reverse_reverse] at parts
  refine ⟨q, ?_, parts⟩
  obtain ⟨next, later, inner⟩ := List.exists_cons_of_ne_nil
    (List.append_ne_nil_of_right_ne_nil more (List.cons_ne_nil first []))
  rw [← outer, inner] at directory
  rw [parent?, whole, inner]
  exact directory

theorem exists_parts (h : p.parts ≠ []) :
    ∃ first rest, p.pieces = first :: rest ∧
      p.parts = headPart first :: rest.filter (!isIdle ·) := by
  unfold parts at h ⊢
  split
  · rename_i empty
    simp [empty] at h
  · rename_i empty
    simp [empty] at h
  · rename_i first rest _ written
    exact ⟨first, rest, written, rfl⟩

theorem parts_ne_nil (nonempty : root.bytes.isEmpty = false) : root.parts ≠ [] := by
  obtain ⟨first, rest, written⟩ := List.exists_cons_of_ne_nil (splitSlash_ne_nil root.bytes)
  have solid : first :: rest ≠ [[]] := by
    intro empty
    simp [eq_nil_of_splitSlash (written.trans empty)] at nonempty
  rw [parts_of_pieces written solid]
  exact List.cons_ne_nil _ _

theorem exists_parent?_join (nonempty : root.bytes.isEmpty = false)
    (named : ∀ other ∈ init ++ [name], IsFileName other) :
    ∃ q, (root.join ⟨joinSlash (init ++ [name])⟩).parent? = some q ∧
      q.parts = root.parts ++ init := by
  have parts := parts_join nonempty (by simp) named
  obtain ⟨first, rest, written, own⟩ :=
    exists_parts (p := root.join ⟨joinSlash (init ++ [name])⟩) (by simp [parts])
  obtain ⟨top, above, rooted⟩ := List.exists_cons_of_ne_nil (parts_ne_nil nonempty)
  rw [parts, rooted, List.cons_append] at own
  obtain ⟨rfl, below⟩ := List.cons.inj own
  rw [← List.append_assoc] at below
  rw [rooted]
  exact exists_parent? written below.symm

theorem below_of_parts (further : q.parts = root.parts ++ names) : below root q = names := by
  simp [below, further]

theorem relativeTo_of_parts (further : q.parts = root.parts ++ names) :
    root.relativeTo q = shownBelow names := by
  rw [relativeTo, below_of_parts further]

/-- The names by which a path is shown below a root are texts. -/
def IsTextBelow (root p : Path) : Prop :=
  ∀ name ∈ below root p, IsText name

instance (root p : Path) : Decidable (IsTextBelow root p) :=
  inferInstanceAs (Decidable (∀ name ∈ below root p, IsText name))

/-- The path that is shown as `s` to a reader who knows `root`. -/
def ofShown (root : Path) (s : String) : Path :=
  if s = "." then root else root.join ⟨Text.bytes s⟩

def pathTo (root : Path) (names : List Name) : Path :=
  root.join ⟨joinSlash names⟩

/-- What is shown leads back where all names are texts. -/
theorem ofShown_relativeTo_pathTo (nonempty : root.bytes.isEmpty = false) (names_ne : names ≠ [])
    (named : ∀ name ∈ names, IsFileName name) (texts : IsTextBelow root (root.pathTo names)) :
    root.ofShown (root.relativeTo (root.pathTo names)) = root.pathTo names := by
  have further := parts_join nonempty names_ne named
  rw [IsTextBelow, pathTo, below_of_parts further] at texts
  rw [pathTo, relativeTo_of_parts further, ofShown, if_neg (shownBelow_ne_point names_ne named),
    bytes_shownBelow names_ne, map_bytes_lossy_eq_iff.2 texts]

end Path

open FileTree

section Walks

variable {s : ScanSettings} {t : FileTree} {root : Path} {kind : FileMatcher} {files : List Path}

structure LeadsToFile (t : FileTree) (root : Path) (kind : FileMatcher) (names : List Name) :
    Prop where
  nonempty : names ≠ []
  named : ∀ name ∈ names, IsFileName name
  accepted : kind.accepts (root.pathTo names) = true
  content : ∃ content, t.content (root.pathTo names) = .ok content

/-- A walk of a directory lists files by the names that lead to them, each of them once. -/
theorem exists_ways (named : t.HasFileNames) (directory : t.isDirectory root = true)
    (listed : walk s t root kind = .ok files) :
    root.bytes.isEmpty = false ∧
      ∃ ways : List (List Name), files = ways.map root.pathTo ∧ ways.Nodup ∧
        ∀ names ∈ ways, LeadsToFile t root kind names := by
  rcases walk_eq_ok listed with ⟨present, rfl⟩ | ⟨file, -⟩ | ⟨base, rules, found, rfl⟩
  · obtain ⟨l, e, found⟩ := contains_iff.1 present
    exact ⟨nonempty_of_locate (find_eq_ok.1 found).1, [], by simp⟩
  · obtain ⟨l, content, found⟩ := isFile_iff.1 file
    simp [isDirectory, found] at directory
  obtain ⟨leads, here⟩ := find_eq_ok.1 found
  refine ⟨nonempty_of_locate leads, ?_⟩
  let skips := Walk.skips t s.honoursIgnoreFiles rules base
  let kept := (Walk.filesBelow t skips base).filter fun l => kind.accepts (Walk.pathBelow root base l)
  have way : ∀ l ∈ kept, base ++ l.drop base.length = l := by
    intro l mem
    obtain ⟨-, ⟨content, present⟩, reached⟩ := mem_filesBelow named (List.mem_filter.1 mem).1
    obtain ⟨names, rfl, -, -⟩ := names_of_reaches here (by simp [present]) reached
    simp
  refine ⟨kept.map (·.drop base.length), ?_, ?_, ?_⟩
  · rw [List.map_map, List.filter_map]
    rfl
  · apply List.Nodup.map_on
    · intro l mem l' mem' same
      rw [← way l mem, ← way l' mem', same]
    · exact (nodup_filesBelow t skips base).filter _
  · intro names mem
    obtain ⟨l, inside, rfl⟩ := List.mem_map.1 mem
    obtain ⟨below, accepted⟩ := List.mem_filter.1 inside
    obtain ⟨proper, ⟨content, present⟩, reached⟩ := mem_filesBelow named below
    obtain ⟨names, split, nonempty, -⟩ := names_of_reaches here (by simp [present]) reached
    have dropped : l.drop base.length = names := by
      simp [split]
    refine ⟨?_, ?_, accepted, content, ?_⟩
    · rwa [dropped]
    · intro name mem
      exact proper name (List.mem_of_mem_drop mem)
    · exact content_eq_of_find (find_eq_ok.2 ⟨locate_pathBelow named found below, present⟩)

/-- The files of a walk are shown in different ways where their names are texts. -/
theorem nodup_map_relativeTo (named : t.HasFileNames) (directory : t.isDirectory root = true)
    (listed : walk s t root kind = .ok files) (texts : ∀ p ∈ files, root.IsTextBelow p) :
    (files.map root.relativeTo).Nodup := by
  obtain ⟨nonempty, ways, rfl, nodup, leads⟩ := exists_ways named directory listed
  rw [List.map_map]
  apply List.Nodup.map_on _ nodup
  intro names mem names' mem' same
  have further : ∀ names ∈ ways, (root.pathTo names).parts = root.parts ++ names :=
    fun names mem => Path.parts_join nonempty (leads names mem).nonempty (leads names mem).named
  have own : ∀ names ∈ ways, ∀ name ∈ names, IsText name := by
    intro names mem name inside
    apply texts _ (List.mem_map_of_mem mem)
    rwa [Path.below_of_parts (further names mem)]
  rw [Function.comp_apply, Function.comp_apply, Path.relativeTo_of_parts (further names mem),
    Path.relativeTo_of_parts (further names' mem'),
    Path.shownBelow_eq_iff (leads names mem).named (leads names' mem').named] at same
  exact Path.eq_of_map_lossy (own names mem) (own names' mem') same

theorem ofShown_of_walk (named : t.HasFileNames) (listed : walk s t root kind = .ok files) :
    ∀ p ∈ files, root.IsTextBelow p → root.ofShown (root.relativeTo p) = p := by
  intro p mem texts
  cases directory : t.isDirectory root with
  | true =>
    obtain ⟨nonempty, ways, rfl, -, leads⟩ := exists_ways named directory listed
    obtain ⟨names, way, rfl⟩ := List.mem_map.1 mem
    exact Path.ofShown_relativeTo_pathTo nonempty (leads names way).nonempty (leads names way).named
      texts
  | false =>
    obtain rfl : p = root := by
      rcases walk_eq_ok listed with ⟨-, rfl⟩ | ⟨-, rfl⟩ | ⟨base, rules, found, -⟩
      · cases mem
      · split at mem
        · exact List.mem_singleton.1 mem
        · cases mem
      · simp [isDirectory, found] at directory
    rw [Path.relativeTo_of_parts (List.append_nil _).symm]
    rfl

/-- The directory of a file that is listed by its name, as it is shown. -/
theorem relativeTo_parent? {name : String} {names : List Name}
    (nonempty : root.bytes.isEmpty = false) (leads : LeadsToFile t root (.named name) names) :
    ∃ init, names = init ++ [Text.bytes name] ∧
      root.relativeTo ((root.pathTo names).parent?.getD root) = Path.shownBelow init := by
  obtain rfl | ⟨init, last, rfl⟩ := List.eq_nil_or_concat' names
  · exact absurd rfl leads.nonempty
  obtain ⟨q, directory, below⟩ := Path.exists_parent?_join nonempty leads.named
  have called : (root.pathTo (init ++ [last])).fileName? = some last := by
    have proper := leads.named last (by simp)
    have whole := Walk.fileName?_pathBelow proper root [] init
    exact whole
  have accepted : (root.pathTo (init ++ [last])).fileName? = some (Text.bytes name) := by
    simpa [FileMatcher.accepts] using leads.accepted
  obtain rfl : last = Text.bytes name := Option.some.inj (called.symm.trans accepted)
  refine ⟨init, rfl, ?_⟩
  rw [Path.pathTo, directory]
  exact Path.relativeTo_of_parts below

theorem nodup_map_parent? {name : String} (named : t.HasFileNames)
    (directory : t.isDirectory root = true)
    (listed : walk s t root (.named name) = .ok files) (texts : ∀ p ∈ files, root.IsTextBelow p) :
    (files.map fun p => root.relativeTo (p.parent?.getD root)).Nodup := by
  obtain ⟨nonempty, ways, rfl, nodup, leads⟩ := exists_ways named directory listed
  rw [List.map_map]
  apply List.Nodup.map_on _ nodup
  intro names mem names' mem' same
  obtain ⟨init, rfl, shown⟩ := relativeTo_parent? nonempty (leads names mem)
  obtain ⟨init', rfl, shown'⟩ := relativeTo_parent? nonempty (leads names' mem')
  have proper : ∀ {init : List Name}, init ++ [Text.bytes name] ∈ ways → ∀ other ∈ init, IsFileName other :=
    fun mem other inside => (leads _ mem).named other (by simp [inside])
  have own : ∀ {init : List Name}, init ++ [Text.bytes name] ∈ ways → ∀ other ∈ init, IsText other := by
    intro init mem other inside
    apply texts _ (List.mem_map_of_mem mem)
    rw [Path.pathTo,
      Path.below_of_parts (Path.parts_join nonempty (leads _ mem).nonempty (leads _ mem).named)]
    simp [inside]
  rw [Function.comp_apply, Function.comp_apply, shown, shown',
    Path.shownBelow_eq_iff (proper mem) (proper mem')] at same
  rw [Path.eq_of_map_lossy (own mem) (own mem') same]

end Walks

end JavaMigration
