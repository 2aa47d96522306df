import JavaMigration.Proofs.FileTree.Naming
import JavaMigration.Walk

/-!
# What a walk depends on

A walk looks at which files there are and at the rules in ignore files. Neither changes where a
source is written anew, so the same files are listed after it.
-/

namespace JavaMigration

namespace FileTree

variable {t : FileTree} {p : Path} {l : Location} {content : ByteArray}

theorem getLast?_parts {init : List Name} {piece : Name}
    (written : p.pieces = init ++ [piece]) (solid : Path.isIdle piece = false) :
    p.parts.getLast? = some piece := by
  unfold Path.parts
  cases init with
  | nil =>
    have nonempty : piece ≠ [] := by
      rintro rfl
      cases solid
    rw [written]
    simp [nonempty]
  | cons first init =>
    have kept : (init ++ [piece]).filter (!Path.isIdle ·) =
        init.filter (!Path.isIdle ·) ++ [piece] := by
      simp [solid]
    rw [written, List.cons_append]
    split
    · rename_i empty
      cases empty
    · rename_i empty
      simp at empty
    · rename_i whole
      obtain ⟨rfl, rfl⟩ := List.cons.inj whole
      rw [kept, ← List.cons_append, List.getLast?_concat]

theorem getLast?_of_find {name : Name} (h : t.find p = .ok (l, .file content))
    (named : p.fileName? = some name) : l.getLast? = some name := by
  obtain ⟨leads, present⟩ := find_eq_ok.1 h
  obtain ⟨init, piece, written, -⟩ := p.exists_pieces_concat
  obtain ⟨-, dir, -, directory, rfl⟩ := locate_eq_ok written leads
  cases idle : Path.isIdle piece with
  | true =>
    simp only [idle, ↓reduceIte] at present
    rw [directory] at present
    cases present
  | false =>
    simp only [Path.fileName?, Option.filter_eq_some_iff, getLast?_parts written idle,
      decide_eq_true_eq, Option.some.injEq] at named
    obtain ⟨rfl, proper⟩ := named
    have downward : piece ≠ Path.upward := by
      intro up
      simp [up] at proper
    simp [downward]

def isSourceLocation (l : Location) : Bool :=
  l.getLast?.bind Path.extensionOf? = some (Text.bytes "java")

theorem isSourceLocation_of_find (h : t.find p = .ok (l, .file content))
    (accepted : FileMatcher.sources.accepts p = true) : isSourceLocation l = true := by
  simp only [FileMatcher.accepts, FileMatcher.sources, decide_eq_true_eq, Path.extension?,
    Option.bind_eq_bind, Option.bind_eq_some_iff] at accepted
  obtain ⟨name, named, found⟩ := accepted
  simp only [isSourceLocation, getLast?_of_find h named, Option.bind_some, found,
    decide_eq_true_eq]

section Put

variable {old : ByteArray} (h : t.entry? l = some (.file old)) (new : ByteArray)

include h

theorem isSome_put_file (l' : Location) :
    ( entry? (t.put l (.file new)) l').isSome = (t.entry? l').isSome := by
  by_cases here : l' = l
  · rw [here, lookup_put_self (ne_nil_of_not_directory (t := t) (by simp [h])), h]
    rfl
  · rw [lookup_put_of_ne here]

theorem find_put_file (p : Path) :
    (t.put l (.file new)).find p =
      (t.find p).map fun (l', e) => (l', if l' = l then .file new else e) := by
  unfold find
  rw [locate_put_file h]
  cases t.locate p with
  | error _ => rfl
  | ok l' =>
    simp only [bind, Except.bind]
    by_cases here : l' = l
    · rw [here, lookup_put_self (ne_nil_of_not_directory (t := t) (by simp [h])), h]
      simp [Except.map]
    · rw [lookup_put_of_ne here]
      cases t.entry? l' with
      | none => rfl
      | some e => simp [Except.map, here]

theorem find_put_of_ne (apart : t.locate p ≠ .ok l) : (t.put l (.file new)).find p = t.find p := by
  rw [find_put_file h]
  cases found : t.find p with
  | error e => rfl
  | ok place =>
    have other : place.1 ≠ l := by
      rintro rfl
      exact apart (find_eq_ok.1 found).1
    simp [Except.map, other]

end Put

end FileTree

namespace Ignore

open FileTree

variable {t : FileTree} {l : Location} {old new : ByteArray}

theorem withinRepository_put (h : t.entry? l = some (.file old)) (directories : List Location) :
    withinRepository (t.put l (.file new)) directories = withinRepository t directories := by
  have same : holdsRepository (t.put l (.file new)) = holdsRepository t := by
    funext directory
    exact isSome_put_file h new _
  simp only [withinRepository, same]

theorem verdictAround?_put (file : Location)
    (apart : ∀ d : Location, d ++ file ≠ l) (directories : List Location) (isDirectory : Bool)
    (l' : Location) :
    verdictAround? (t.put l (.file new)) file directories isDirectory l' =
      verdictAround? t file directories isDirectory l' := by
  have same : ∀ d, rulesAt (t.put l (.file new)) (d ++ file) = rulesAt t (d ++ file) := by
    intro d
    simp only [rulesAt, lookup_put_of_ne (apart d)]
  simp only [verdictAround?, same]

theorem append_ne_of_isSourceLocation (source : isSourceLocation l = true) (outer : Location)
    (name : Name) (other : isSourceLocation [name] = false) (d : Location) :
    d ++ (outer ++ [name]) ≠ l := by
  intro same
  rw [← same, isSourceLocation, ← List.append_assoc, List.getLast?_concat] at source
  rw [isSourceLocation, List.getLast?_singleton] at other
  rw [other] at source
  cases source

theorem isLeftOutByFiles_put (h : t.entry? l = some (.file old))
    (source : isSourceLocation l = true) :
    isLeftOutByFiles (t.put l (.file new)) = isLeftOutByFiles t := by
  have apart := append_ne_of_isSourceLocation source
  funext isDirectory l'
  simp only [isLeftOutByFiles, withinRepository_put h,
    verdictAround?_put [".ignore"] (apart [] ".ignore" (by decide)),
    verdictAround?_put [".gitignore"] (apart [] ".gitignore" (by decide)),
    verdictAround?_put [".git", "info", "exclude"] (apart [".git", "info"] "exclude" (by decide))]

end Ignore

namespace Walk

open FileTree

variable {t : FileTree} {l : Location} {old new : ByteArray}

theorem reaches_of_sameDirectories {u : FileTree} (h : t.SameDirectories u)
    (skips : Bool → Location → Bool) (base : Location) :
    reaches u skips base = reaches t skips base := by
  funext l'
  simp only [reaches, canList, h.directory, h.unlisted]

theorem filesBelow_put (h : t.entry? l = some (.file old)) (skips : Bool → Location → Bool)
    (base : Location) : filesBelow (t.put l (.file new)) skips base = filesBelow t skips base := by
  have stored : t.entries.get? l = some (.file old) := by
    unfold entry? at h
    rwa [if_neg (ne_nil_of_not_directory (t := t) (by simp [ entry?, h]))] at h
  have same : t.SameDirectories (t.put l (.file new)) := .put_file new (by simp [h])
  simp only [filesBelow, reaches_of_sameDirectories same]
  refine Table.filterMap_insert List.lt_asymm (.file old) (.file new) ?_ t.ascending stored
  rfl

end Walk

open FileTree

/--
What a walk lists: its root if that is a file, or the files that it comes to. From standard input,
and from what is neither a file nor a directory, it comes to none.
-/
theorem walk_eq_ok {s : ScanSettings} {t : FileTree} {root : Path} {kind : FileMatcher}
    {files : List Path} (h : walk s t root kind = .ok files) :
    (t.contains root = true ∧ files = []) ∨
      (t.isFile root = true ∧ files = if kind.accepts root then [root] else []) ∨
      ∃ base rules, t.find root = .ok (base, .directory) ∧
        files = ((Walk.filesBelow t (Walk.skips t s.honoursIgnoreFiles rules base) base).map
          (Walk.pathBelow root base)).filter kind.accepts := by
  unfold walk at h
  split at h
  · cases h
  · rename_i base e found
    cases compiled : (Ignore.rulesOfPatterns (Ignore.builtInPatterns ++ s.extraIgnore)).mapError
        WalkError.pattern with
    | error _ => simp [compiled, bind, Except.bind] at h
    | ok rules =>
      simp only [compiled, bind, Except.bind] at h
      split at h
      · exact .inl ⟨contains_iff.2 ⟨base, e, found⟩, (Except.ok.inj h).symm⟩
      cases e with
      | file content =>
        exact .inr (.inl ⟨isFile_iff.2 ⟨base, content, found⟩, (Except.ok.inj h).symm⟩)
      | directory => exact .inr (.inr ⟨base, rules, found, (Except.ok.inj h).symm⟩)
      | special => exact .inl ⟨contains_iff.2 ⟨base, _, found⟩, (Except.ok.inj h).symm⟩

/-- A source that is written anew changes no walk. -/
theorem walk_put {t : FileTree} {l : Location} {old new : ByteArray}
    (h : t.entry? l = some (.file old)) (source : isSourceLocation l = true) (s : ScanSettings)
    (root : Path) (kind : FileMatcher) :
    walk s (t.put l (.file new)) root kind = walk s t root kind := by
  have skips : ∀ rules base, Walk.skips (t.put l (.file new)) s.honoursIgnoreFiles rules base =
      Walk.skips t s.honoursIgnoreFiles rules base := by
    intro rules base
    funext isDirectory l'
    simp only [Walk.skips, Ignore.isLeftOutByFiles_put h source]
  unfold walk
  rw [find_put_file h new]
  cases found : t.find root with
  | error _ => rfl
  | ok place =>
    obtain ⟨base, e⟩ := place
    simp only [Except.map]
    by_cases here : base = l
    · obtain rfl : e = .file old := by
        have present := (find_eq_ok.1 found).2
        rw [here, h] at present
        exact (Option.some.inj present).symm
      simp only [here, ↓reduceIte]
    · cases e with
      | file content => simp only [here, ↓reduceIte]
      | directory => simp only [here, ↓reduceIte, skips, Walk.filesBelow_put h]
      | special => simp only [here, ↓reduceIte]

end JavaMigration
