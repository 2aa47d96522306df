import JavaMigration.Proofs.FileTree.Below

/-!
# Files that no walk lists

A new file changes what there is to walk through only if it holds rules or marks a repository, and
what is listed only if its name is that of a descriptor or of a source. So where its name is
neither, every walk from an old root lists what it listed before.
-/

namespace JavaMigration

namespace FileTree

variable {t u : FileTree} {p : Path} {l l' : Location} {e e' : Entry}

theorem put_comm (other : l ≠ l') :
    (t.put l e).put l' e' = (t.put l' e').put l e := by
  have entries : ((t.put l e).put l' e').entries = ((t.put l' e').put l e).entries := by
    apply Table.eq_of_get? List.lt_asymm ((t.put l e).put l' e').ascending
      ((t.put l' e').put l e).ascending
    intro key
    simp only [put, Table.get?_insert]
    by_cases here : l = key
    · subst here
      simp [Ne.symm other]
    · by_cases here' : l' = key
      · simp [here, here']
      · simp [here, here']
  unfold put at entries ⊢
  simp only at entries
  simp only [entries]

end FileTree

open FileTree

/-- The name is longer than all that have a meaning, and it is not that of a source. -/
structure IsUnlisted (name : Name) : Prop where
  long : 10 < name.length
  plain : slash ∉ name
  extension : Path.extensionOf? name ≠ some (Text.bytes "java")

namespace IsUnlisted

variable {name other : Name} (h : IsUnlisted name)

include h

theorem ne (short : other.length ≤ 10) : name ≠ other := by
  rintro rfl
  exact absurd h.long (by omega)

theorem isFileName : IsFileName name where
  solid := by
    have filled : name ≠ [] := h.ne (by decide)
    have other : name ≠ [point] := h.ne (by decide)
    simp [Path.isIdle, filled, other]
  downward := h.ne (by decide)
  plain := h.plain

theorem not_accepts {p : Path} {kind : FileMatcher} (named : ∀ n, p.fileName? = some n → n = name)
    (known : kind = .descriptors ∨ kind = .sources) : kind.accepts p = false := by
  rcases known with rfl | rfl
  · simp only [FileMatcher.accepts, FileMatcher.descriptors, decide_eq_false_iff_not]
    intro accepted
    exact h.ne (by decide) (named _ accepted).symm
  · simp only [FileMatcher.accepts, FileMatcher.sources, decide_eq_false_iff_not, Path.extension?,
      Option.bind_eq_bind, Option.bind_eq_some_iff, not_exists, not_and]
    intro n found extension
    rw [named n found] at extension
    exact h.extension extension

end IsUnlisted

namespace Path

variable {root : Path} {outer name : List UInt8}

def Opens (outer : List UInt8) : Prop :=
  outer = [] ∨ outer.getLast? = some slash

theorem Opens.append {inner : List UInt8} (h : Opens outer) (h' : Opens inner) :
    Opens (outer ++ inner) := by
  rcases h' with rfl | ends
  · simpa using h
  · right
    rw [List.getLast?_append, ends]
    rfl

theorem exists_bytes_join (root : Path) (s : List UInt8) :
    ∃ outer, Opens outer ∧ (root.join ⟨s⟩).bytes = outer ++ s := by
  unfold join
  split
  · exact ⟨[], .inl rfl, rfl⟩
  · split
    · rename_i ends
      exact ⟨root.bytes, .inr ends, rfl⟩
    · exact ⟨root.bytes ++ [slash], .inr (by simp), by simp⟩

theorem exists_bytes_joinSlash (init : List Name) (name : Name) :
    ∃ outer, Opens outer ∧ joinSlash (init ++ [name]) = outer ++ name := by
  by_cases empty : init = []
  · exact ⟨[], .inl rfl, by simp [empty]⟩
  · exact ⟨joinSlash init ++ [slash], .inr (by simp), by simp [joinSlash_concat empty]⟩

theorem exists_pieces_append (opens : Opens outer) (plain : slash ∉ name) :
    ∃ init, pieces ⟨outer ++ name⟩ = init ++ [name] := by
  rcases opens with rfl | ends
  · exact ⟨[], by simp [pieces, splitSlash_of_notMem plain]⟩
  · obtain ⟨inner, bytes⟩ := List.getLast?_eq_some_iff.1 ends
    refine ⟨splitSlash inner, ?_⟩
    simp [pieces, bytes, splitSlash_append, splitSlash_of_notMem plain]

theorem fileName?_of_pieces {p : Path} {init : List Name} (written : p.pieces = init ++ [name])
    (named : IsFileName name) : p.fileName? = some name := by
  have top : name ≠ [slash] := by
    rintro rfl
    exact named.plain (by decide)
  have point : name ≠ [point] := by
    rintro rfl
    cases named.solid
  simp [fileName?, FileTree.getLast?_parts written named.solid, top, point, named.downward]

end Path

variable {t : FileTree} {dir : Location} {name : Name} {content : ByteArray}

namespace Ignore

theorem append_ne_of_isUnlisted (unlisted : IsUnlisted name) (outer : Location) {other : Name}
    (short : other.length ≤ 10) (d : Location) :
    d ++ (outer ++ [other]) ≠ dir ++ [name] := by
  rw [← List.append_assoc]
  intro same
  have last := (List.append_singleton_inj.1 same).2
  exact unlisted.ne short last.symm

theorem isLeftOutByFiles_put_unlisted (unlisted : IsUnlisted name) :
    isLeftOutByFiles (t.put (dir ++ [name]) (.file content)) = isLeftOutByFiles t := by
  have apart : ∀ (outer : Location) {other : Name}, other.length ≤ 10 → ∀ d : Location,
      d ++ (outer ++ [other]) ≠ dir ++ [name] :=
    fun outer _ short => append_ne_of_isUnlisted unlisted outer short
  have within : ∀ directories,
      withinRepository (t.put (dir ++ [name]) (.file content)) directories =
        withinRepository t directories := by
    have same : holdsRepository (t.put (dir ++ [name]) (.file content)) = holdsRepository t := by
      funext d
      have other : d ++ [Text.bytes ".git"] ≠ dir ++ [name] := apart [] (by decide) d
      simp only [holdsRepository, lookup_put_of_ne other]
    intro directories
    simp only [withinRepository, same]
  funext isDirectory l'
  simp only [isLeftOutByFiles, within,
    verdictAround?_put [".ignore"] (apart [] (by decide)),
    verdictAround?_put [".gitignore"] (apart [] (by decide)),
    verdictAround?_put [".git", "info", "exclude"] (apart [".git", "info"] (by decide))]

end Ignore

/-- Whatever a walk lists from an old root it lists again, and nothing from a new one. -/
structure SameWalks (t u : FileTree) : Prop where
  old : ∀ (s : ScanSettings) (root : Path) (kind : FileMatcher),
    kind = .descriptors ∨ kind = .sources → t.contains root = true →
      walk s u root kind = walk s t root kind
  new : ∀ (s : ScanSettings) (root : Path) (kind : FileMatcher),
    kind = .descriptors ∨ kind = .sources → t.contains root = false →
      ∀ files, walk s u root kind = .ok files → files = []

theorem SameWalks.refl (t : FileTree) : SameWalks t t where
  old := fun _ _ _ _ _ => rfl
  new := by
    intro s root kind known missing files listed
    have present : t.contains root = true := by
      rcases walk_eq_ok listed with ⟨present, -⟩ | ⟨file, -⟩ | ⟨base, rules, found, -⟩
      · exact present
      · obtain ⟨l, content, found⟩ := isFile_iff.1 file
        exact contains_iff.2 ⟨l, _, found⟩
      · exact contains_iff.2 ⟨base, _, found⟩
    rw [missing] at present
    cases present

namespace Walk

theorem fileName?_pathBelow (named : IsFileName name) (root : Path) (base inner : Location) :
    (pathBelow root base (base ++ inner ++ [name])).fileName? = some name := by
  obtain ⟨outer, opens, written⟩ := Path.exists_bytes_joinSlash inner name
  obtain ⟨outer', opens', joined⟩ := Path.exists_bytes_join root (outer ++ name)
  obtain ⟨init, split⟩ := Path.exists_pieces_append (opens'.append opens) named.plain
  have same : pathBelow root base (base ++ inner ++ [name]) = ⟨outer' ++ outer ++ name⟩ := by
    rw [pathBelow, Ignore.pathFrom, List.append_assoc, List.drop_left, written, List.append_assoc,
      ← joined]
  exact Path.fileName?_of_pieces (same ▸ split) named

theorem filesBelow_put_unlisted (vacant : t.entry? (dir ++ [name]) = none)
    (unlisted : IsUnlisted name) {root : Path} {base : Location}
    (directory : t.entry? base = some .directory) (skips : Bool → Location → Bool)
    {kind : FileMatcher} (known : kind = .descriptors ∨ kind = .sources) :
    ((filesBelow (t.put (dir ++ [name]) (.file content)) skips base).map
        (pathBelow root base)).filter kind.accepts =
      ((filesBelow t skips base).map (pathBelow root base)).filter kind.accepts := by
  have same : t.SameDirectories (t.put (dir ++ [name]) (.file content)) :=
    .put_file content (by simp [vacant])
  have stored : t.entries.get? (dir ++ [name]) = none := by
    simpa [ entry?] using vacant
  have refused : reaches t skips base (dir ++ [name]) = true →
      kind.accepts (pathBelow root base (dir ++ [name])) = false := by
    intro reached
    obtain ⟨names, split, nonempty, -⟩ :=
      names_of_reaches directory (by simp [vacant]) reached
    obtain rfl | ⟨inner, last, rfl⟩ := List.eq_nil_or_concat' names
    · exact absurd rfl nonempty
    · rw [← List.append_assoc] at split
      obtain ⟨rfl, rfl⟩ := List.append_singleton_inj.1 split
      apply unlisted.not_accepts _ known
      intro n named
      rw [fileName?_pathBelow unlisted.isFileName] at named
      exact (Option.some.inj named).symm
  simp only [filesBelow, reaches_of_sameDirectories same, List.map_filterMap, List.filter_filterMap]
  apply Table.filterMap_insert_of_none _ stored
  cases reached : reaches t skips base (dir ++ [name]) with
  | false => simp
  | true => simp [refused reached]

end Walk

/-- From a root that was there before, a walk lists what it listed. -/
theorem walk_put_unlisted (vacant : t.entry? (dir ++ [name]) = none) (unlisted : IsUnlisted name)
    (content : ByteArray) (s : ScanSettings) {root : Path} {kind : FileMatcher}
    (known : kind = .descriptors ∨ kind = .sources) (present : t.contains root = true) :
    walk s (t.put (dir ++ [name]) (.file content)) root kind = walk s t root kind := by
  have extended : t.Extends (t.put (dir ++ [name]) (.file content)) := .put t _ vacant
  have skips : ∀ rules base,
      Walk.skips (t.put (dir ++ [name]) (.file content)) s.honoursIgnoreFiles rules base =
        Walk.skips t s.honoursIgnoreFiles rules base := by
    intro rules base
    funext isDirectory l
    simp only [Walk.skips, Ignore.isLeftOutByFiles_put_unlisted unlisted]
  obtain ⟨base, e, found⟩ := contains_iff.1 present
  unfold walk
  rw [extended.find found, found]
  cases e with
  | file old => rfl
  | special => rfl
  | directory =>
    simp only [skips, Walk.filesBelow_put_unlisted vacant unlisted (find_eq_ok.1 found).2 _ known]

/-- A root that was not there before can only be the new file, which is not listed. -/
theorem eq_nil_of_walk_put_unlisted (vacant : t.entry? (dir ++ [name]) = none)
    (unlisted : IsUnlisted name) {content : ByteArray} {s : ScanSettings} {root : Path}
    {kind : FileMatcher} (known : kind = .descriptors ∨ kind = .sources)
    (missing : t.contains root = false) {files : List Path}
    (listed : walk s (t.put (dir ++ [name]) (.file content)) root kind = .ok files) :
    files = [] := by
  have ways : t.SameDirectories (t.put (dir ++ [name]) (.file content)) :=
    .put_file content (by simp [vacant])
  have vacant_of_locate : ∀ l e, t.locate root = .ok l → t.entry? l ≠ some e := by
    intro l e leads there
    have present := contains_iff.2 ⟨l, e, find_eq_ok.2 ⟨leads, there⟩⟩
    rw [missing] at present
    cases present
  rcases walk_eq_ok listed with ⟨-, none⟩ | ⟨file, rfl⟩ | ⟨base, rules, found, -⟩
  · exact none
  · obtain ⟨l, old, found⟩ := isFile_iff.1 file
    obtain ⟨leads, there⟩ := find_eq_ok.1 found
    obtain rfl : l = dir ++ [name] := by
      apply Classical.byContradiction
      intro other
      rw [lookup_put_of_ne other] at there
      exact vacant_of_locate l _ (ways.locate_iff.1 leads) there
    have refused : kind.accepts root = false := by
      apply unlisted.not_accepts _ known
      intro n named
      simpa using (getLast?_of_find found named).symm
    simp [refused]
  · obtain ⟨leads, there⟩ := find_eq_ok.1 found
    exact absurd ((ways.directory base).1 there)
      (vacant_of_locate base _ (ways.locate_iff.1 leads))

/-- A file with a name that no walk looks for changes no walk. -/
theorem sameWalks_put_unlisted (vacant : t.entry? (dir ++ [name]) = none)
    (unlisted : IsUnlisted name) (content : ByteArray) :
    SameWalks t (t.put (dir ++ [name]) (.file content)) where
  old := fun s _ _ known present => walk_put_unlisted vacant unlisted content s known present
  new := fun _ _ _ known missing _ listed =>
    eq_nil_of_walk_put_unlisted vacant unlisted known missing listed

end JavaMigration
