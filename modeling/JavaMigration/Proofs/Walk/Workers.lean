import Mathlib.Logic.Relation
import JavaMigration.Proofs.Walk.Descent

/-!
# Walking with several workers

A tree is walked by any number of workers. Each has a pile of errands, and errands may go over to
other piles at any time. Who looks at a directory adds errands for its entries, in whatever order
it reads them; who looks at a file sends it, if it is of the right kind. When no errand is left,
what was sent is put in order.

What has been sent and what the errands still lead to are together always the same files. So what a
walk ends with depends neither on the number of workers nor on who looks at what, and when.
-/

namespace JavaMigration

namespace Path

theorem exists_join_eq (p : Path) :
    ∃ outer, ∀ q : Path, q.isAbsolute = false → p.join q = ⟨outer ++ q.bytes⟩ := by
  by_cases empty : p.bytes.isEmpty = true
  · exact ⟨[], fun q _ => by simp [join, empty]⟩
  · by_cases ends : p.bytes.getLast? = some slash
    · exact ⟨p.bytes, fun q relative => by simp [join, relative, empty, ends]⟩
    · exact ⟨p.bytes ++ [slash], fun q relative => by simp [join, relative, empty, ends]⟩

theorem join_join {p : Path} {name : Name} {names : List Name} (named : IsFileName name)
    (nonempty : names ≠ []) (proper : ∀ other ∈ names, IsFileName other) :
    (p.join ⟨name⟩).join ⟨joinSlash names⟩ = p.join ⟨joinSlash (name :: names)⟩ := by
  have relative := not_isAbsolute_joinSlash nonempty proper
  have first : (⟨name⟩ : Path).isAbsolute = false := by
    have alone := not_isAbsolute_joinSlash (List.cons_ne_nil name []) (by simpa using named)
    rwa [joinSlash_singleton] at alone
  have whole : (⟨joinSlash (name :: names)⟩ : Path).isAbsolute = false :=
    not_isAbsolute_joinSlash (List.cons_ne_nil name names) (by simpa [named] using proper)
  obtain ⟨outer, joined⟩ := p.exists_join_eq
  obtain ⟨init, last, rfl⟩ : ∃ init last, name = init ++ [last] :=
    ⟨_, _, (List.dropLast_append_getLast named.ne_nil).symm⟩
  have ends : last ≠ slash := by
    rintro rfl
    exact named.plain (by simp)
  rw [joined _ first, joined _ whole]
  obtain ⟨next, names, rfl⟩ := List.exists_cons_of_ne_nil nonempty
  rw [join, relative, joinSlash_cons_cons]
  simp [ends]

end Path

namespace Walk

open FileTree

/-- What a worker still has to look at: a path, and the location that it leads to. -/
structure Errand where
  path : Path
  place : Location

namespace Errand

variable (t : FileTree) (leaves : Bool → Location → Bool) (kind : FileMatcher) (e : Errand)

def next : List Errand :=
  match t.entry? e.place with
  | some .directory =>
    ((t.listing e.place).filter (visits t leaves e.place)).map fun name =>
      ⟨e.path.join ⟨name⟩, e.place ++ [name]⟩
  | _ => []

def sends : List Path :=
  match t.entry? e.place with
  | some (.file _) => if kind.accepts e.path then [e.path] else []
  | _ => []

def pathOf (l : Location) : Path :=
  if l = e.place then e.path else pathBelow e.path e.place l

def files : List Path :=
  ((filesFrom t leaves e.place).map e.pathOf).filter kind.accepts

end Errand

/-- The errands of each worker, and what they have sent together. -/
structure Crew where
  piles : List (List Errand)
  sent : List Path

namespace Crew

def IsIdle (crew : Crew) : Prop :=
  crew.piles.flatten = []

def result (crew : Crew) : List Path :=
  crew.sent.mergeSort fun p q => p.parts ≤ q.parts

/-- What the workers can do next. -/
inductive Step (t : FileTree) (leaves : Bool → Location → Bool) (kind : FileMatcher) :
    Crew → Crew → Prop
  /-- Errands go over to other piles. -/
  | share {piles piles' : List (List Errand)} {sent : List Path}
      (workers : piles'.length = piles.length) (same : piles'.flatten.Perm piles.flatten) :
      Step t leaves kind ⟨piles, sent⟩ ⟨piles', sent⟩
  /-- A worker looks at what is on top of its pile. -/
  | look {before after : List (List Errand)} {e : Errand} {rest found : List Errand}
      {sent : List Path} (read : found.Perm (e.next t leaves)) :
      Step t leaves kind ⟨before ++ (e :: rest) :: after, sent⟩
        ⟨before ++ (found ++ rest) :: after, sent ++ e.sends t kind⟩

abbrev Run (t : FileTree) (leaves : Bool → Location → Bool) (kind : FileMatcher) :
    Crew → Crew → Prop :=
  Relation.ReflTransGen (Step t leaves kind)

end Crew

section Files

variable {t : FileTree} {leaves : Bool → Location → Bool} {kind : FileMatcher} {e : Errand}

theorem isFileName_of_mem_filesFrom (named : t.HasFileNames) {place l : Location}
    (mem : l ∈ filesFrom t leaves place) : ∀ name ∈ l, IsFileName name := by
  unfold filesFrom at mem
  split at mem
  · rename_i content present
    obtain rfl := List.mem_singleton.1 mem
    have below : l ≠ [] := ne_nil_of_not_directory (t := t) (by simp [present])
    exact (named _ (mem_entries below present)).2
  · exact (mem_filesBelow named mem).1
  · cases mem

theorem pathOf_next (named : t.HasFileNames) (e : Errand) {name : Name} {l : Location}
    (mem : l ∈ filesFrom t leaves (e.place ++ [name])) :
    e.pathOf l = Errand.pathOf ⟨e.path.join ⟨name⟩, e.place ++ [name]⟩ l := by
  have proper := isFileName_of_mem_filesFrom named mem
  obtain ⟨names, rfl⟩ := exists_of_mem_filesFrom named mem
  have beyond : e.place ++ [name] ++ names ≠ e.place := by simp
  rw [Errand.pathOf, if_neg beyond, Errand.pathOf, pathBelow, Ignore.pathFrom, List.append_assoc,
    List.drop_left, List.singleton_append]
  cases names with
  | nil => simp
  | cons next names =>
    have further : e.place ++ name :: next :: names ≠ e.place ++ [name] := by simp
    have rest : (e.place ++ name :: next :: names).drop (e.place ++ [name]).length =
        next :: names := by
      have split : e.place ++ name :: next :: names = e.place ++ [name] ++ next :: names := by
        simp
      rw [split, List.drop_left]
    rw [if_neg further, pathBelow, Ignore.pathFrom, rest, Path.join_join]
    · exact proper name (by simp)
    · exact List.cons_ne_nil next names
    · exact fun other mem => proper other (by simp [List.mem_cons.1 mem])

/-- What an errand leads to is sent at once, or is left to the errands that come of it. -/
theorem Errand.files_perm (named : t.HasFileNames) :
    (e.files t leaves kind).Perm
      (e.sends t kind ++ (e.next t leaves).flatMap (Errand.files t leaves kind)) := by
  cases present : t.entry? e.place with
  | none => simp [files, filesFrom, sends, next, present]
  | some found =>
    cases found with
    | file content =>
      by_cases accepted : kind.accepts e.path = true
      · simp [files, filesFrom, sends, next, present, pathOf, accepted]
      · simp [files, filesFrom, sends, next, present, pathOf, accepted]
    | special => simp [files, filesFrom, sends, next, present]
    | directory =>
      simp only [sends, next, present, List.nil_append, List.flatMap_map]
      have below : (e.files t leaves kind).Perm
          ((((t.listing e.place).filter (visits t leaves e.place)).flatMap fun name =>
            filesFrom t leaves (e.place ++ [name])).map e.pathOf |>.filter kind.accepts) := by
        have opened : (filesBelow t leaves e.place).Perm _ := filesBelow_perm named present
        simpa only [files, filesFrom, present] using (opened.map e.pathOf).filter kind.accepts
      rw [List.map_flatMap, List.filter_flatMap] at below
      refine below.trans (.of_eq (List.flatMap_congr fun name _ => ?_))
      rw [files]
      congr 1
      exact List.map_congr_left fun l mem => pathOf_next named e mem

def Crew.files (t : FileTree) (leaves : Bool → Location → Bool) (kind : FileMatcher)
    (crew : Crew) : List Path :=
  crew.sent ++ crew.piles.flatten.flatMap (Errand.files t leaves kind)

theorem Crew.Step.files_perm {crew crew' : Crew} (named : t.HasFileNames)
    (step : Step t leaves kind crew crew') :
    (crew'.files t leaves kind).Perm (crew.files t leaves kind) := by
  cases step with
  | share workers same => exact (same.flatMap_right _).append_left _
  | @look before after e rest found sent read =>
    simp only [Crew.files, List.flatten_append, List.flatten_cons, List.flatMap_append,
      List.cons_append, List.flatMap_cons]
    have opened : (found.flatMap (Errand.files t leaves kind)).Perm
        ((e.next t leaves).flatMap (Errand.files t leaves kind)) := read.flatMap_right _
    have split : (e.files t leaves kind).Perm _ := Errand.files_perm named
    rw [List.perm_iff_count]
    intro p
    have opened := opened.count_eq p
    have split := split.count_eq p
    simp only [List.count_append] at split ⊢
    omega

theorem Crew.Run.files_perm {crew crew' : Crew} (named : t.HasFileNames)
    (run : Run t leaves kind crew crew') :
    (crew'.files t leaves kind).Perm (crew.files t leaves kind) := by
  induction run with
  | refl => exact .refl _
  | tail _ step ih => exact (step.files_perm named).trans ih

end Files

section Ending

variable {t : FileTree} {leaves : Bool → Location → Bool} {kind : FileMatcher} {e : Errand}

theorem place_of_mem_next {e' : Errand} (mem : e' ∈ e.next t leaves) :
    ∃ name, e'.place = e.place ++ [name] ∧ name ∈ t.listing e.place := by
  unfold Errand.next at mem
  split at mem
  · obtain ⟨name, listed, rfl⟩ := List.mem_map.1 mem
    exact ⟨name, rfl, (List.mem_filter.1 listed).1⟩
  · cases mem

namespace Crew

variable {before after : List (List Errand)}

/-- Errands that can each be dealt with can be dealt with one after the other. -/
theorem exists_run_append {errands : List Errand}
    (each : ∀ e ∈ errands, ∀ rest sent, ∃ sent',
      Run t leaves kind ⟨before ++ (e :: rest) :: after, sent⟩ ⟨before ++ rest :: after, sent'⟩)
    (rest : List Errand) (sent : List Path) :
    ∃ sent', Run t leaves kind ⟨before ++ (errands ++ rest) :: after, sent⟩
      ⟨before ++ rest :: after, sent'⟩ := by
  induction errands generalizing sent with
  | nil => exact ⟨sent, .refl⟩
  | cons e errands ih =>
    obtain ⟨sent', first⟩ := each e (by simp) (errands ++ rest) sent
    obtain ⟨sent'', others⟩ := ih (fun e' mem => each e' (by simp [mem])) sent'
    exact ⟨sent'', first.trans others⟩

/-- A worker that turns to what it finds first deals with an errand; `n` bounds the depth below. -/
theorem exists_run_errand (n : Nat)
    (deep : ∀ row ∈ t.entries, row.1.length ≤ e.place.length + n) (rest : List Errand)
    (sent : List Path) :
    ∃ sent', Run t leaves kind ⟨before ++ (e :: rest) :: after, sent⟩
      ⟨before ++ rest :: after, sent'⟩ := by
  induction n generalizing e rest sent with
  | zero =>
    have nothing : e.next t leaves = [] := by
      rw [List.eq_nil_iff_forall_not_mem]
      intro e' mem
      obtain ⟨name, -, listed⟩ := place_of_mem_next mem
      obtain ⟨found, present⟩ := Option.isSome_iff_exists.1 (mem_listing.1 listed).2
      have short := deep _ (mem_entries (by simp) present)
      simp at short
    have looked : Step t leaves kind ⟨before ++ (e :: rest) :: after, sent⟩
        ⟨before ++ ([] ++ rest) :: after, sent ++ e.sends t kind⟩ := .look (by rw [nothing])
    exact ⟨_, .single looked⟩
  | succ n ih =>
    have each : ∀ e' ∈ e.next t leaves, ∀ rest sent, ∃ sent',
        Run t leaves kind ⟨before ++ (e' :: rest) :: after, sent⟩
          ⟨before ++ rest :: after, sent'⟩ := by
      intro e' mem
      obtain ⟨name, place, -⟩ := place_of_mem_next mem
      apply ih
      intro row stored
      have := deep row stored
      rw [place, List.length_append, List.length_singleton]
      omega
    obtain ⟨sent', others⟩ := exists_run_append each rest (sent ++ e.sends t kind)
    exact ⟨sent', .head (.look (.refl _)) others⟩

theorem exists_depth (t : FileTree) : ∃ depth, ∀ row ∈ t.entries, row.1.length ≤ depth := by
  induction t.entries with
  | nil => exact ⟨0, by simp⟩
  | cons row rows ih =>
    obtain ⟨depth, deep⟩ := ih
    refine ⟨max row.1.length depth, ?_⟩
    intro row' stored
    rcases List.mem_cons.1 stored with rfl | stored
    · exact Nat.le_max_left _ _
    · exact Nat.le_trans (deep row' stored) (Nat.le_max_right _ _)

/-- Whatever the workers have still to look at, they can come to an end. -/
theorem exists_idle (t : FileTree) (leaves : Bool → Location → Bool) (kind : FileMatcher)
    (crew : Crew) : ∃ done, Run t leaves kind crew done ∧ done.IsIdle := by
  obtain ⟨depth, deep⟩ := exists_depth t
  have each : ∀ piles before sent, before.flatten = [] →
      ∃ done, Run t leaves kind ⟨before ++ piles, sent⟩ done ∧ done.IsIdle := by
    intro piles
    induction piles with
    | nil =>
      intro before sent empty
      exact ⟨_, .refl, by simpa [IsIdle] using empty⟩
    | cons pile piles ih =>
      intro before sent empty
      obtain ⟨sent', cleared⟩ : ∃ sent', Run t leaves kind ⟨before ++ (pile ++ []) :: piles, sent⟩
          ⟨before ++ [] :: piles, sent'⟩ :=
        exists_run_append (fun e _ => exists_run_errand depth fun row stored =>
          Nat.le_add_left_of_le (deep row stored)) [] sent
      obtain ⟨done, others, idle⟩ := ih (before ++ [[]]) sent' (by simpa using empty)
      rw [List.append_nil] at cleared
      rw [List.append_assoc] at others
      exact ⟨done, cleared.trans others, idle⟩
  exact each crew.piles [] crew.sent rfl

/-- Files that are each sent once are put in the same order, whoever sent them and when. -/
theorem result_eq {crew : Crew} {files : List Path}
    (ordered : files.Pairwise fun p q => p.parts < q.parts) (same : crew.sent.Perm files) :
    crew.result = files := by
  have sorted : crew.result.Pairwise fun p q => p.parts ≤ q.parts := by
    have : crew.result.Pairwise fun p q => decide (p.parts ≤ q.parts) = true :=
      List.pairwise_mergeSort (fun p q r => by simpa using List.le_trans)
        (fun p q => by simpa using List.le_total p.parts q.parts) crew.sent
    simpa using this
  have sorted' : files.Pairwise fun p q => p.parts ≤ q.parts :=
    ordered.imp fun less => List.le_of_lt less
  refine List.Perm.eq_of_pairwise ?_ sorted sorted' ((List.mergeSort_perm _ _).trans same)
  intro p q mem mem' le le'
  have different : (files.map Path.parts).Nodup := by
    refine List.pairwise_map.2 (ordered.imp fun less same => ?_)
    rw [same] at less
    exact List.lt_irrefl _ less
  have listed : p ∈ files := same.subset ((List.mergeSort_perm _ _).subset mem)
  exact List.inj_on_of_nodup_map different listed mem' (List.le_antisymm le le')

end Crew

end Ending

end Walk

end JavaMigration
