import JavaMigration.Descriptor.Backup
import JavaMigration.Proofs.FileTree.Below
import Mathlib.Data.List.Perm.Subperm

/-!
# The first free backup

A backup adds one file to its tree, at a location that was vacant, and gives it the bytes of the
descriptor. All numbered names lead to different locations of one directory, so one of them is free
before their numbers exceed that of the entries.
-/

namespace JavaMigration

namespace FileTree

structure SameExcept (l : Location) (t u : FileTree) : Prop where
  entries : ∀ l', l' ≠ l → u.entry? l' = t.entry? l'
  current : u.current = t.current
  locked : u.locked = t.locked
  unlisted : u.unlisted = t.unlisted

theorem sameExcept_put (t : FileTree) (l : Location) (e : Entry) : t.SameExcept l (t.put l e) where
  entries := fun _ other => lookup_put_of_ne other
  current := rfl
  locked := rfl
  unlisted := rfl

end FileTree

namespace Descriptor

variable {t : FileTree} {p copy : Path} {l : Location} {stamp : String} {fuel n : Nat}

def backupExtension (stamp : String) (n : Nat) : String :=
  "backup-" ++ stamp ++ if n = 0 then "" else s!"-{n}"

def backupSuffix (stamp : String) (n : Nat) : Name :=
  point :: Text.bytes (backupExtension stamp n)

theorem backupPath_eq (p : Path) (stamp : String) (n : Nat) :
    backupPath p stamp n = p.extend (backupSuffix stamp n) := by
  have first : ".backup-" = "." ++ "backup-" := rfl
  simp only [backupPath, Path.extend, backupSuffix, backupExtension, first, Text.bytes_append]
  rfl

theorem toList_backupExtension (stamp : String) (n : Nat) :
    (backupExtension stamp n).toList =
      "backup-".toList ++ stamp.toList ++ if n = 0 then [] else '-' :: Nat.toDigits 10 n := by
  by_cases first : n = 0
  · simp [backupExtension, first]
  · simp [backupExtension, first, toString]

theorem notMem_backupExtension {c : Char} (digit : c.isDigit = false) (other : c ∉ "backup-".toList)
    (plain : c ∉ stamp.toList) (n : Nat) : c ∉ (backupExtension stamp n).toList := by
  intro found
  simp only [toList_backupExtension, List.mem_append, other, plain, or_self, false_or] at found
  split at found
  · cases found
  · rcases List.mem_cons.1 found with rfl | mem
    · exact other (by decide)
    · rw [Nat.isDigit_of_mem_toDigits (by decide) (by decide) mem] at digit
      cases digit

theorem slash_notMem_backupSuffix (plain : '/' ∉ stamp.toList) (n : Nat) :
    slash ∉ backupSuffix stamp n := by
  intro byte
  rcases List.mem_cons.1 byte with same | byte
  · exact absurd same (by decide)
  · exact notMem_backupExtension (by decide) (by decide) plain n (mem_of_slash_mem_bytes byte)

theorem length_backupSuffix (stamp : String) (n : Nat) :
    8 + stamp.toList.length ≤ (backupSuffix stamp n).length := by
  have : (Text.bytes "backup-").length = 7 := by decide
  have := Text.length_le_length_bytes stamp
  rw [backupSuffix, backupExtension, Text.bytes_append, Text.bytes_append, List.length_cons,
    List.length_append, List.length_append]
  omega

theorem backupSuffix_injective {m : Nat} (h : backupSuffix stamp m = backupSuffix stamp n) :
    m = n := by
  have same := congrArg String.toList (Text.bytes_injective (List.cons.inj h).2)
  simp only [toList_backupExtension, List.append_cancel_left_eq] at same
  split at same
  · split at same
    · omega
    · cases same
  · split at same
    · cases same
    · have digits := (List.cons.inj same).2
      calc
        m = Nat.ofDigitChars 10 (Nat.toDigits 10 m) 0 := Nat.ofDigitChars_ten_toDigits.symm
        _ = Nat.ofDigitChars 10 (Nat.toDigits 10 n) 0 := by rw [digits]
        _ = n := Nat.ofDigitChars_ten_toDigits

theorem not_namesDirectory_backupPath (plain : '/' ∉ stamp.toList) (p : Path) (n : Nat) :
    FileTree.namesDirectory (backupPath p stamp n) = false := by
  simp only [FileTree.namesDirectory, backupPath_eq, Path.extend,
    List.getLast?_append_of_ne_nil p.bytes (List.cons_ne_nil point _), backupSuffix,
    decide_eq_false_iff_not]
  intro last
  exact slash_notMem_backupSuffix plain n (List.mem_of_getLast? last)

theorem vacancy_of_locate (plain : FileTree.namesDirectory p = false) (h : t.locate p = .ok l) :
    vacancy t p = .ok (if (t.entry? l).isSome then none else some l) := by
  simp [vacancy, plain, h, bind, Except.bind]

theorem target_of_namesDirectory (h : FileTree.namesDirectory p = true) :
    ∃ e, t.target p = .error e := by
  unfold FileTree.target
  simp only [h, ↓reduceIte]
  cases t.follow (t.start p) _ with
  | error e => exact ⟨e, rfl⟩
  | ok _ => exact ⟨.isDirectory, rfl⟩

/-- Whether something is in the way is only said of a name that leads somewhere. -/
theorem vacancy_eq_ok {place : Option Location} (h : vacancy t p = .ok place) :
    ∃ l, t.locate p = .ok l ∧ place = if (t.entry? l).isSome then none else some l := by
  cases trailing : FileTree.namesDirectory p with
  | true =>
    obtain ⟨e, refused⟩ := target_of_namesDirectory (t := t) trailing
    simp [vacancy, trailing, refused, bind, Except.bind] at h
  | false =>
    cases leads : t.locate p with
    | error e => simp [vacancy, trailing, leads, bind, Except.bind] at h
    | ok l =>
      rw [vacancy_of_locate trailing leads, Except.ok.injEq] at h
      exact ⟨l, rfl, h.symm⟩

theorem contains_of_vacancy_eq_none (h : vacancy t p = .ok none) : t.contains p = true := by
  obtain ⟨l, leads, taken⟩ := vacancy_eq_ok h
  cases present : t.entry? l with
  | none => simp [present] at taken
  | some e =>
    have found := FileTree.find_eq_ok.2 ⟨leads, present⟩
    simp [FileTree.contains, found, Except.isOk, Except.toBool]

theorem vacant_of_vacancy_eq_some (h : vacancy t p = .ok (some l)) :
    t.locate p = .ok l ∧ t.entry? l = none := by
  obtain ⟨l', leads, free⟩ := vacancy_eq_ok h
  cases present : t.entry? l' with
  | none =>
    simp only [present, Option.isSome_none, Bool.false_eq_true, ↓reduceIte,
      Option.some.injEq] at free
    subst free
    exact ⟨leads, present⟩
  | some e => simp [present] at free

theorem freeBackup_sound (h : freeBackup t p stamp fuel n = .ok (copy, l)) :
    ∃ m, n ≤ m ∧ copy = backupPath p stamp m ∧ vacancy t copy = .ok (some l) ∧
      ∀ k, n ≤ k → k < m → vacancy t (backupPath p stamp k) = .ok none := by
  induction fuel generalizing n with
  | zero => cases h
  | succ fuel ih =>
    rw [freeBackup] at h
    cases tried : vacancy t (backupPath p stamp n) with
    | error e => simp [tried, bind, Except.bind] at h
    | ok place =>
      cases place with
      | some l' =>
        simp only [tried, bind, Except.bind, Except.ok.injEq, Prod.mk.injEq] at h
        obtain ⟨rfl, rfl⟩ := h
        exact ⟨n, Nat.le_refl n, rfl, tried, fun k _ _ => by omega⟩
      | none =>
        simp only [tried, bind, Except.bind] at h
        obtain ⟨m, above, named, free, taken⟩ := ih h
        refine ⟨m, by omega, named, free, ?_⟩
        intro k from_n below
        by_cases first : k = n
        · rw [first, tried]
        · exact taken k (by omega) below

/-- Where every name leads somewhere, the search only fails if all of them are taken. -/
theorem freeBackup_error {place : Nat → Location} {e : FileError}
    (places : ∀ n, vacancy t (backupPath p stamp n) =
      .ok (if (t.entry? (place n)).isSome then none else some (place n)))
    (h : freeBackup t p stamp fuel n = .error e) :
    ∀ k, k < fuel → (t.entry? (place (n + k))).isSome = true := by
  induction fuel generalizing n with
  | zero =>
    intro k below
    omega
  | succ fuel ih =>
    rw [freeBackup, places n] at h
    by_cases taken : (t.entry? (place n)).isSome = true
    · simp only [taken, ↓reduceIte, bind, Except.bind] at h
      intro k below
      cases k with
      | zero => exact taken
      | succ k =>
        rw [show n + (k + 1) = n + 1 + k by omega]
        exact ih h k (by omega)
    · simp [taken, bind, Except.bind] at h

theorem mem_keys_of_lookup (solid : l ≠ []) (h : (t.entry? l).isSome = true) :
    l ∈ t.entries.map (·.1) := by
  unfold FileTree.entry? at h
  simp only [solid, ↓reduceIte, Table.get?, Option.isSome_map,
    List.find?_isSome, decide_eq_true_eq] at h
  obtain ⟨row, mem, same⟩ := h
  exact List.mem_map.2 ⟨row, mem, same⟩

theorem length_le_of_taken {place : Nat → Location} (solid : ∀ k, place k ≠ [])
    (injective : ∀ i j, place i = place j → i = j)
    (taken : ∀ k, k < fuel → (t.entry? (place k)).isSome = true) : fuel ≤ t.entries.length := by
  have distinct : ((List.range fuel).map place).Nodup :=
    List.Pairwise.map place (fun i j other same => other (injective i j same)) List.nodup_range
  have within : (List.range fuel).map place ⊆ t.entries.map (·.1) := by
    intro l mem
    obtain ⟨k, below, rfl⟩ := List.mem_map.1 mem
    exact mem_keys_of_lookup (solid k) (taken k (List.mem_range.1 below))
  simpa using (distinct.subperm within).length_le

theorem exists_freeBackup {e : Entry} (plain : '/' ∉ stamp.toList) (h : t.find p = .ok (l, e)) :
    ∃ free, freeBackup t p stamp (t.entries.length + 2) 0 = .ok free := by
  obtain ⟨dir, name, -, leads⟩ := FileTree.exists_locate_extend h
  have places : ∀ n, vacancy t (backupPath p stamp n) =
      .ok (if (t.entry? (dir ++ [name ++ backupSuffix stamp n])).isSome then none
        else some (dir ++ [name ++ backupSuffix stamp n])) := by
    intro n
    apply vacancy_of_locate (not_namesDirectory_backupPath plain p n)
    rw [backupPath_eq]
    exact leads _ (slash_notMem_backupSuffix plain n) (by have := length_backupSuffix stamp n; omega)
  cases searched : freeBackup t p stamp (t.entries.length + 2) 0 with
  | ok free => exact ⟨free, rfl⟩
  | error e =>
    have taken := freeBackup_error places searched
    simp only [Nat.zero_add] at taken
    have injective : ∀ i j, dir ++ [name ++ backupSuffix stamp i] =
        dir ++ [name ++ backupSuffix stamp j] → i = j := by
      intro i j same
      simp only [List.append_cancel_left_eq, List.cons.injEq, and_true] at same
      exact backupSuffix_injective same
    have := length_le_of_taken (by simp) injective taken
    omega

/--
`u` is `t` with one more file: the first free name for a backup of the file at `p` is that of its
copy.
-/
structure IsBackup (t : FileTree) (p : Path) (stamp : String) (copy : Path) (u : FileTree) :
    Prop where
  named : ∃ n, copy = backupPath p stamp n ∧
    ∀ k, k < n → t.contains (backupPath p stamp k) = true
  added : ∃ l content, t.content p = .ok content ∧ t.entry? l = none ∧
    u.find copy = .ok (l, .file content) ∧ t.SameExcept l u

theorem IsBackup.extends {u : FileTree} (h : IsBackup t p stamp copy u) : t.Extends u := by
  obtain ⟨l, content, -, vacant, -, same⟩ := h.added
  constructor
  · intro l' e present
    rw [same.entries l' _]
    · exact present
    · intro eq
      rw [eq, vacant] at present
      cases present
  · exact same.current

theorem createBackup_of_find {content : ByteArray} (stamp : String)
    (h : t.find p = .ok (l, .file content)) :
    (∃ e, createBackup t p stamp = (t, .error (.backup p e))) ∨
      ∃ copy u, createBackup t p stamp = (u, .ok copy) ∧ IsBackup t p stamp copy u := by
  unfold createBackup
  simp only [h, bind, Except.bind, FileTree.content_eq_of_find h]
  cases searched : freeBackup t p stamp (t.entries.length + 2) 0 with
  | error e => exact .inl ⟨e, rfl⟩
  | ok free =>
    obtain ⟨copy, place⟩ := free
    obtain ⟨m, -, rfl, free, taken⟩ := freeBackup_sound searched
    obtain ⟨leads, vacant⟩ := vacant_of_vacancy_eq_some free
    refine .inr ⟨_, _, rfl, ?_, ?_⟩
    · exact ⟨m, rfl, fun k below => contains_of_vacancy_eq_none (taken k (Nat.zero_le k) below)⟩
    · refine ⟨place, content, FileTree.content_eq_of_find h, vacant, ?_,
        FileTree.sameExcept_put t place _⟩
      rw [FileTree.find_eq_ok]
      constructor
      · exact (FileTree.Extends.put t _ vacant).locate leads
      · exact FileTree.lookup_put_self
          (FileTree.ne_nil_of_not_directory (t := t) (by simp [vacant]))

theorem createBackup_succeeds {content : ByteArray} (plain : '/' ∉ stamp.toList)
    (h : t.find p = .ok (l, .file content)) :
    ∃ copy, (createBackup t p stamp).2 = .ok copy := by
  obtain ⟨free, searched⟩ := exists_freeBackup plain h
  refine ⟨free.1, ?_⟩
  simp [createBackup, h, bind, Except.bind, searched, FileTree.content_eq_of_find h]

end Descriptor

end JavaMigration
