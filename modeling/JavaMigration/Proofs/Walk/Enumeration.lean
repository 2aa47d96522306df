import JavaMigration.Proofs.FileTree.Shown
import JavaMigration.Proofs.Walk.Workers

/-!
# What a walk lists

The files that a walk lists are those that are there, of the right kind and not left out, each once
and in the order of components. Any number of workers ends with the same list. Where all patterns
are names, the files left out are those on whose way one of the names is, or a directory that cannot
be listed; further patterns only take files from the list.
-/

namespace JavaMigration

open FileTree

namespace FileTree

variable {t : FileTree} {base l : Location} {names : List Name}

theorem follow_names_eq_ok (named : ∀ name ∈ names, IsFileName name)
    (leads : t.follow base names = .ok l) :
    l = base ++ names ∧
      ∀ n < names.length, t.entry? (base ++ names.take n) = some .directory := by
  induction names generalizing base with
  | nil => exact ⟨by simpa [follow, eq_comm] using leads, by simp⟩
  | cons name names ih =>
    have here := directory_of_follow_cons leads
    obtain ⟨solid, downward, -⟩ := named name (by simp)
    rw [follow_cons here, solid] at leads
    simp only [Bool.false_eq_true, ↓reduceIte, downward] at leads
    obtain ⟨rfl, directories⟩ := ih (fun other mem => named other (by simp [mem])) leads
    refine ⟨by simp, fun n inside => ?_⟩
    cases n with
    | zero => simpa using here
    | succ n => simpa using directories n (by simpa using inside)

end FileTree

namespace Walk

variable {t : FileTree} {leaves leaves' : Bool → Location → Bool} {kind : FileMatcher} {root : Path}
  {base l : Location} {e : Entry} {names : List Name}

def descend (root : Path) (names : List Name) : Path :=
  if names = [] then root else root.pathTo names

abbrev filesOf (t : FileTree) (leaves : Bool → Location → Bool) (kind : FileMatcher) (root : Path)
    (base : Location) : List Path :=
  Errand.files t leaves kind ⟨root, base⟩

theorem pathOf_append (root : Path) (base : Location) (names : List Name) :
    Errand.pathOf ⟨root, base⟩ (base ++ names) = descend root names := by
  by_cases none : names = []
  · simp [Errand.pathOf, descend, none]
  · simp [Errand.pathOf, descend, none, pathBelow, Ignore.pathFrom, Path.pathTo]

theorem exists_of_isFile_descend (leads : t.locate root = .ok base)
    (proper : ∀ name ∈ names, IsFileName name) (file : t.isFile (descend root names) = true) :
    (∃ content, t.entry? (base ++ names) = some (.file content)) ∧
      ∀ n < names.length, t.entry? (base ++ names.take n) = some .directory := by
  obtain ⟨l, content, found⟩ := isFile_iff.1 file
  obtain ⟨leads', present⟩ := find_eq_ok.1 found
  by_cases none : names = []
  · subst none
    rw [descend, if_pos rfl, leads] at leads'
    cases leads'
    exact ⟨⟨content, by simpa using present⟩, by simp⟩
  · rw [descend, if_neg none, Path.pathTo, locate_join leads none proper] at leads'
    obtain ⟨rfl, directories⟩ := follow_names_eq_ok proper leads'
    exact ⟨⟨content, present⟩, directories⟩

theorem isFile_descend (named : t.HasFileNames) (found : t.find root = .ok (base, e))
    (mem : base ++ names ∈ filesFrom t leaves base) :
    t.isFile (descend root names) = true ∧ reaches t leaves base (base ++ names) = true := by
  obtain ⟨leads, here⟩ := find_eq_ok.1 found
  unfold filesFrom at mem
  rw [here] at mem
  cases e with
  | file content =>
    have none : names = [] := by simpa using mem
    subst none
    refine ⟨isFile_iff.2 ⟨base, content, found⟩, ?_⟩
    rw [List.append_nil]
    exact reaches_self
  | directory =>
    obtain ⟨-, ⟨content, present⟩, reached⟩ := mem_filesBelow named mem
    have some_names : names ≠ [] := by
      rintro rfl
      rw [List.append_nil, here] at present
      cases present
    have placed := locate_pathBelow named found mem
    refine ⟨isFile_iff.2 ⟨base ++ names, content, find_eq_ok.2 ⟨?_, present⟩⟩, reached⟩
    rw [descend, if_neg some_names, Path.pathTo]
    simpa [pathBelow, Ignore.pathFrom] using placed
  | special => cases mem

/-- The files that a walk comes to are those on whose way nothing is left out. -/
theorem mem_filesOf {p : Path} (named : t.HasFileNames) (found : t.find root = .ok (base, e)) :
    p ∈ filesOf t leaves kind root base ↔
      ∃ names, p = descend root names ∧ (∀ name ∈ names, IsFileName name) ∧
        reaches t leaves base (base ++ names) = true ∧ t.isFile p = true ∧
        kind.accepts p = true := by
  simp only [filesOf, Errand.files, List.mem_filter, List.mem_map]
  constructor
  · rintro ⟨⟨l, mem, rfl⟩, accepted⟩
    have proper := isFileName_of_mem_filesFrom named mem
    obtain ⟨names, rfl⟩ := exists_of_mem_filesFrom named mem
    obtain ⟨file, reached⟩ := isFile_descend named found mem
    rw [pathOf_append] at accepted ⊢
    exact ⟨names, rfl, fun name mem => proper name (by simp [mem]), reached, file, accepted⟩
  · rintro ⟨names, rfl, proper, reached, file, accepted⟩
    obtain ⟨leads, here⟩ := find_eq_ok.1 found
    obtain ⟨⟨content, present⟩, directories⟩ := exists_of_isFile_descend leads proper file
    refine ⟨⟨base ++ names, ?_, pathOf_append root base names⟩, accepted⟩
    unfold filesFrom
    cases names with
    | nil =>
      rw [List.append_nil] at present ⊢
      simp [present]
    | cons name names =>
      have directory : t.entry? base = some .directory := by simpa using directories 0 (by simp)
      rw [directory]
      exact (mem_filesBelow_iff named).2 ⟨⟨content, present⟩, reached⟩

theorem pairwise_filesFrom (t : FileTree) (leaves : Bool → Location → Bool) (l : Location) :
    (filesFrom t leaves l).Pairwise (· < ·) := by
  unfold filesFrom
  split
  · exact List.pairwise_singleton _ l
  · exact pairwise_filesBelow t leaves l
  · exact List.Pairwise.nil

theorem lt_of_append_lt {outer inner inner' : List Name} (less : outer ++ inner < outer ++ inner') :
    inner < inner' := by
  induction outer with
  | nil => exact less
  | cons name outer ih =>
    rcases List.cons_lt_cons_iff.1 less with before | ⟨-, rest⟩
    · exact absurd before (List.lt_irrefl name)
    · exact ih rest

theorem parts_descend (nonempty : root.bytes.isEmpty = false)
    (proper : ∀ name ∈ names, IsFileName name) :
    (descend root names).parts = root.parts ++ names := by
  by_cases none : names = []
  · simp [descend, none]
  · rw [descend, if_neg none, Path.pathTo, Path.parts_join nonempty none proper]

theorem pairwise_filesOf (named : t.HasFileNames) (found : t.find root = .ok (base, e)) :
    (filesOf t leaves kind root base).Pairwise fun p q => p.parts < q.parts := by
  have nonempty := nonempty_of_locate (find_eq_ok.1 found).1
  apply List.Pairwise.filter
  apply List.pairwise_map.2
  refine (pairwise_filesFrom t leaves base).imp_of_mem ?_
  intro l l' mem mem' less
  have proper := isFileName_of_mem_filesFrom named mem
  have proper' := isFileName_of_mem_filesFrom named mem'
  obtain ⟨names, rfl⟩ := exists_of_mem_filesFrom named mem
  obtain ⟨names', rfl⟩ := exists_of_mem_filesFrom named mem'
  rw [pathOf_append, pathOf_append,
    parts_descend nonempty fun name mem => proper name (by simp [mem]),
    parts_descend nonempty fun name mem => proper' name (by simp [mem])]
  exact List.append_left_lt (lt_of_append_lt less)

theorem filesOf_of_more
    (more : ∀ isDirectory l, leaves isDirectory l = true → leaves' isDirectory l = true) :
    (filesOf t leaves' kind root base).Sublist (filesOf t leaves kind root base) := by
  apply List.Sublist.filter
  apply List.Sublist.map
  unfold filesFrom
  split
  · exact .refl _
  · exact filesBelow_of_more more
  · exact .refl _

section Listing

open Ignore

variable {s : ScanSettings} {rules extra : List Rule} {files : List Path}

def rulesWith (extra : List Rule) : List Rule :=
  builtInPatterns.flatMap nameRules ++ extra

theorem rulesOfPatterns_builtIn {patterns : List String} :
    rulesOfPatterns (builtInPatterns ++ patterns) = .ok rules ↔
      ∃ extra, rulesOfPatterns patterns = .ok extra ∧ rules = rulesWith extra := by
  rw [rulesOfPatterns_append, rulesOfPatterns_names builtInPatterns_names]
  simp [rulesWith]

theorem walk_eq (named : t.HasFileNames) (found : t.find root = .ok (base, e))
    (read : rulesOfPatterns s.extraIgnore = .ok extra) :
    walk s t root kind = .ok (if isStandardInput root then [] else
      filesOf t (skips t s.honoursIgnoreFiles (rulesWith extra) base) kind root base) := by
  have compiled : rulesOfPatterns (builtInPatterns ++ s.extraIgnore) = .ok (rulesWith extra) :=
    rulesOfPatterns_builtIn.2 ⟨extra, read, rfl⟩
  have here := (find_eq_ok.1 found).2
  rw [walk, found, compiled]
  simp only [Except.mapError, bind, Except.bind, filesOf, Errand.files, filesFrom, here]
  split
  · rfl
  cases e with
  | file content =>
    by_cases accepted : kind.accepts root = true
    · simp [Errand.pathOf, accepted]
    · simp [Errand.pathOf, accepted]
  | directory =>
    refine congrArg (fun paths => Except.ok (List.filter kind.accepts paths)) ?_
    apply List.map_congr_left
    intro l mem
    -- The root itself is a directory, so it is none of the files below it.
    obtain ⟨-, ⟨content, present⟩, -⟩ := mem_filesBelow named mem
    have below : l ≠ base := by
      rintro rfl
      rw [here] at present
      cases present
    rw [Errand.pathOf, if_neg below]
  | special => rfl

theorem exists_rules_of_walk (listed : walk s t root kind = .ok files) :
    ∃ extra, rulesOfPatterns s.extraIgnore = .ok extra := by
  unfold walk at listed
  split at listed
  · cases listed
  · cases compiled : rulesOfPatterns (builtInPatterns ++ s.extraIgnore) with
    | error fault => simp [compiled, Except.mapError, bind, Except.bind] at listed
    | ok rules =>
      obtain ⟨extra, read, -⟩ := rulesOfPatterns_builtIn.1 compiled
      exact ⟨extra, read⟩

/-- Workers that begin with the errand of a root, whoever of them has it, and have sent nothing. -/
structure Begins (root : Path) (base : Location) (crew : Crew) : Prop where
  errands : crew.piles.flatten = if isStandardInput root then [] else [⟨root, base⟩]
  unsent : crew.sent = []

theorem files_of_begins {crew : Crew} (begun : Begins root base crew) :
    crew.files t leaves kind =
      if isStandardInput root then [] else filesOf t leaves kind root base := by
  rw [Crew.files, begun.unsent, begun.errands]
  split <;> simp

theorem exists_begins (root : Path) (base : Location) {workers : Nat} (some_workers : 0 < workers) :
    ∃ crew : Crew, crew.piles.length = workers ∧ Begins root base crew := by
  obtain ⟨others, rfl⟩ := Nat.exists_eq_add_of_lt some_workers
  -- The first worker has what there is to do, and the others have nothing.
  refine ⟨⟨(if isStandardInput root then [] else [⟨root, base⟩]) :: .replicate others [], []⟩,
    ?_, ?_, rfl⟩
  · simp
  · simp

/--
What a list of files says about a walk. `base` is where the root leads to, and `extra` are the rules
of the configured patterns.
-/
structure Enumerates (s : ScanSettings) (t : FileTree) (root : Path) (kind : FileMatcher)
    (base : Location) (extra : List Rule) (files : List Path) : Prop where
  /-- The files are in the order of components, each of them once. -/
  ascending : files.Pairwise fun p q => p.parts < q.parts
  /-- All of them are files, and of the right kind. -/
  accepted : ∀ p ∈ files, t.isFile p = true ∧ kind.accepts p = true
  /-- There is a way to begin for any number of workers. -/
  beginning : ∀ workers, 0 < workers → ∃ crew, crew.piles.length = workers ∧ Begins root base crew
  /-- Any number of workers ends with these files, whoever looks at what and when. -/
  anyWorkers : ∀ crew done, Begins root base crew →
    Crew.Run t (skips t s.honoursIgnoreFiles (rulesWith extra) base) kind crew done →
      done.IsIdle → done.result = files
  /-- Wherever the workers have come to, they can come to an end. -/
  ending : ∀ crew crew', Begins root base crew →
    Crew.Run t (skips t s.honoursIgnoreFiles (rulesWith extra) base) kind crew crew' →
      ∃ done, Crew.Run t (skips t s.honoursIgnoreFiles (rulesWith extra) base) kind crew' done ∧
        done.IsIdle
  /--
  Where the patterns are names, the files left out are those on whose way is one of them, or a
  directory that cannot be listed.
  -/
  exact : s.honoursIgnoreFiles = false → (∀ pattern ∈ s.extraIgnore, IsNamePattern pattern) →
    ∀ p, p ∈ files ↔ isStandardInput root = false ∧
      ∃ names, p = descend root names ∧
        (∀ name ∈ names, IsFileName name ∧
          name ∉ (builtInPatterns ++ s.extraIgnore).map Text.bytes) ∧
        (∀ n < names.length, base ++ names.take n ∉ t.unlisted) ∧
        t.isFile p = true ∧ kind.accepts p = true
  /-- With more patterns the walk lists some of these files, and no others. -/
  fewer : ∀ more files', walk { s with extraIgnore := s.extraIgnore ++ more } t root kind =
    .ok files' → files'.Sublist files

theorem exact_filesOf (named : t.HasFileNames) (found : t.find root = .ok (base, e))
    {patterns : List String} (names : ∀ pattern ∈ patterns, IsNamePattern pattern) (p : Path) :
    p ∈ filesOf t (skips t false (patterns.flatMap nameRules) base) kind root base ↔
      ∃ names, p = descend root names ∧
        (∀ name ∈ names, IsFileName name ∧ name ∉ patterns.map Text.bytes) ∧
        (∀ n < names.length, base ++ names.take n ∉ t.unlisted) ∧
        t.isFile p = true ∧ kind.accepts p = true := by
  have leads := (find_eq_ok.1 found).1
  rw [mem_filesOf named found]
  refine exists_congr fun way => and_congr_right fun path => ?_
  subst path
  constructor
  · rintro ⟨proper, reached, file, accepted⟩
    have directories := (exists_of_isFile_descend leads proper file).2
    obtain ⟨absent, listable⟩ := (reaches_names names (fun name mem => (proper name mem).plain)
      directories).1 reached
    exact ⟨fun name mem => ⟨proper name mem, absent name mem⟩, listable, file, accepted⟩
  · rintro ⟨each, listable, file, accepted⟩
    have proper : ∀ name ∈ way, IsFileName name := fun name mem => (each name mem).1
    have directories := (exists_of_isFile_descend leads proper file).2
    have absent : ∀ name ∈ way, name ∉ patterns.map Text.bytes := fun name mem => (each name mem).2
    exact ⟨proper, (reaches_names names (fun name mem => (proper name mem).plain) directories).2
      ⟨absent, listable⟩, file, accepted⟩

theorem skips_of_append {later : List Rule} {honoursFiles : Bool}
    (leaving : ∀ r ∈ rules ++ later, r.verdict = .skip) (isDirectory : Bool) (l : Location)
    (left : skips t honoursFiles rules base isDirectory l = true) :
    skips t honoursFiles (rules ++ later) base isDirectory l = true := by
  simp only [skips, Bool.or_eq_true, decide_eq_true_eq] at left ⊢
  refine left.imp_left fun ruled => ?_
  rw [verdict?_eq_skip fun r mem => leaving r (List.mem_append_left _ mem)] at ruled
  obtain ⟨r, mem, applies⟩ := ruled
  exact (verdict?_eq_skip leaving).2 ⟨r, List.mem_append_left _ mem, applies⟩

/-- More patterns leave a part of the list, in the same order. -/
theorem sublist_of_more_patterns (named : t.HasFileNames) (found : t.find root = .ok (base, e))
    {more : List String} {files' : List Path} (listed : walk s t root kind = .ok files)
    (listed' : walk { s with extraIgnore := s.extraIgnore ++ more } t root kind = .ok files') :
    files'.Sublist files := by
  obtain ⟨_, later⟩ := exists_rules_of_walk listed'
  obtain ⟨first, others, read, -, rfl⟩ := rulesOfPatterns_append.1 later
  have leaving : ∀ r ∈ rulesWith first ++ others, r.verdict = .skip := by
    have whole := rulesOfPatterns_builtIn.2 ⟨_, later, rfl⟩
    rw [rulesWith, ← List.append_assoc] at whole
    exact verdict_of_rulesOfPatterns whole
  rw [walk_eq named found read] at listed
  rw [walk_eq named found later, rulesWith, ← List.append_assoc, ← rulesWith] at listed'
  rw [← Except.ok.inj listed, ← Except.ok.inj listed']
  split
  · exact .refl _
  · exact filesOf_of_more (skips_of_append leaving)

/--
A walk from an existing root, with patterns that can be read, lists exactly the files that are there,
of the right kind and not left out, in the order of components and however many workers there are.
From standard input it lists none.
-/
theorem walk_enumerates (named : t.HasFileNames) (found : t.find root = .ok (base, e))
    (read : rulesOfPatterns s.extraIgnore = .ok extra) :
    ∃ files, walk s t root kind = .ok files ∧ Enumerates s t root kind base extra files := by
  refine ⟨_, walk_eq named found read, ?_⟩
  have ascending : (if isStandardInput root then [] else
      filesOf t (skips t s.honoursIgnoreFiles (rulesWith extra) base) kind root base).Pairwise
        fun p q => p.parts < q.parts := by
    split
    · exact List.Pairwise.nil
    · exact pairwise_filesOf named found
  constructor
  case ascending => exact ascending
  case accepted =>
    intro p mem
    split at mem
    · cases mem
    · obtain ⟨-, -, -, -, file, accepted⟩ := (mem_filesOf named found).1 mem
      exact ⟨file, accepted⟩
  case beginning =>
    exact fun _ some_workers => exists_begins root base some_workers
  case anyWorkers =>
    intro crew done begun run idle
    have kept := run.files_perm named
    rw [files_of_begins begun, Crew.files, idle, List.flatMap_nil, List.append_nil] at kept
    exact Crew.result_eq ascending kept
  case ending =>
    exact fun _ crew' _ _ => Crew.exists_idle t _ kind crew'
  case exact =>
    intro off names p
    have all : ∀ pattern ∈ builtInPatterns ++ s.extraIgnore, IsNamePattern pattern := by
      intro pattern mem
      exact (List.mem_append.1 mem).elim (builtInPatterns_names pattern) (names pattern)
    have rules : rulesWith extra = (builtInPatterns ++ s.extraIgnore).flatMap nameRules := by
      rw [rulesOfPatterns_names names] at read
      rw [rulesWith, List.flatMap_append, Except.ok.inj read]
    rw [off, rules]
    cases input : isStandardInput root with
    | true => simp
    | false =>
      rw [if_neg Bool.false_ne_true, exact_filesOf named found all]
      simp only [true_and]
  case fewer =>
    exact fun _ _ listed => sublist_of_more_patterns named found (walk_eq named found read) listed

/-- The components `a` and `a-b` are in another order than the texts `a/` and `a-b/`. -/
theorem walk_enumerates_sources :
    let t : FileTree := {
      entries := [
        (["r"], .directory),
        (["r", "a"], .directory),
        (["r", "a", "B.java"], .file ⟨#[]⟩),
        (["r", "a-b"], .directory),
        (["r", "a-b", "A.java"], .file ⟨#[]⟩),
        (["r", "generated"], .directory),
        (["r", "generated", "G.java"], .file ⟨#[]⟩),
        (["r", "target"], .directory),
        (["r", "target", "T.java"], .file ⟨#[]⟩)]
      ascending := by unfold Table.Ascending; decide +kernel
      current := ["r"] }
    let s : ScanSettings := { extraIgnore := ["generated"] }
    t.HasFileNames ∧ t.find ⟨"."⟩ = .ok (["r"], .directory) ∧
      rulesOfPatterns s.extraIgnore = .ok (nameRules "generated") ∧
      walk s t ⟨"."⟩ .sources = .ok [⟨"./a/B.java"⟩, ⟨"./a-b/A.java"⟩] ∧
      Enumerates s t ⟨"."⟩ .sources ["r"] (nameRules "generated")
        [⟨"./a/B.java"⟩, ⟨"./a-b/A.java"⟩] := by
  intro t s
  have named : t.HasFileNames := by decide +kernel
  have found : t.find ⟨"."⟩ = .ok (["r"], .directory) := by decide +kernel
  have read : rulesOfPatterns s.extraIgnore = .ok (nameRules "generated") :=
    rulesOfPatterns_names (by decide)
  have listed : walk s t ⟨"."⟩ .sources = .ok [⟨"./a/B.java"⟩, ⟨"./a-b/A.java"⟩] := by
    decide +kernel
  obtain ⟨files, listed', enumerates⟩ := walk_enumerates named found read
  rw [listed] at listed'
  rw [← Except.ok.inj listed'] at enumerates
  exact ⟨named, found, read, listed, enumerates⟩

/--
Neither the source in a directory that is called like standard input is listed, nor the one in a
directory whose names cannot be listed.
-/
theorem walk_misses_source :
    let t : FileTree := {
      entries := [(["-"], .directory), (["-", "A.java"], .file ⟨#[]⟩)]
      ascending := by unfold Table.Ascending; decide +kernel }
    let u : FileTree := { t with unlisted := [["-"]] }
    walk {} t ⟨"-"⟩ .sources = .ok [] ∧ walk {} u ⟨"./-"⟩ .sources = .ok [] ∧
      (∀ root ∈ [⟨"-"⟩, ⟨"./-"⟩], t.isFile (descend root ["A.java"]) = true ∧
        FileMatcher.sources.accepts (descend root ["A.java"]) = true) ∧
      ∀ name ∈ (["A.java"] : List Name), IsFileName name ∧ name ∉ builtInPatterns.map Text.bytes := by
  decide +kernel

end Listing

end Walk

end JavaMigration
