import Mathlib.Data.List.DropRight
import JavaMigration.Text.Blank

/-!
# Trimmed texts

A text is trimmed of a class of characters when neither of its ends belongs to it. Trimming yields
such a text and leaves one as it is, so that trimming again changes nothing.
-/

namespace JavaMigration.Text

def IsTrimmed (p : Char → Bool) (s : List Char) : Prop :=
  (∀ c ∈ s.head?, p c = false) ∧ ∀ c ∈ s.getLast?, p c = false

/-- Not all characters of `s` belong to the class `p`. -/
def HasWord (p : Char → Bool) (s : List Char) : Prop :=
  ∃ c ∈ s, p c = false

variable {p q : Char → Bool} {s t : List Char}

theorem not_hasWord_iff : ¬ HasWord p s ↔ ∀ c ∈ s, p c = true := by
  simp [HasWord]

@[simp] theorem hasWord_append : HasWord p (s ++ t) ↔ HasWord p s ∨ HasWord p t := by
  simp only [HasWord, List.mem_append, or_and_right, exists_or]

theorem HasWord.dropWhile (word : HasWord p s) : (s.dropWhile p).isEmpty = false := by
  simpa [List.isEmpty_eq_false_iff, List.dropWhile_eq_nil_iff, HasWord] using word

theorem head_dropWhile {c : Char} (h : c ∈ (s.dropWhile p).head?) : p c = false := by
  have first := List.head?_dropWhile_not p s
  rw [Option.mem_def.1 h] at first
  exact first

theorem dropWhile_eq_self (h : ∀ c ∈ s.head?, p c = false) : s.dropWhile p = s := by
  cases s with
  | nil => rfl
  | cons c rest =>
    have : p c = false := h c rfl
    simp [List.dropWhile, this]

theorem takeWhile_eq_nil (h : ∀ c ∈ s.head?, p c = false) : s.takeWhile p = [] := by
  cases s with
  | nil => rfl
  | cons c rest =>
    have : p c = false := h c rfl
    simp [List.takeWhile, this]

theorem trimEndList_eq_self (h : ∀ c ∈ s.getLast?, p c = false) : trimEndList p s = s := by
  rw [trimEndList, dropWhile_eq_self, List.reverse_reverse]
  intro c hc
  exact h c (by rwa [List.head?_reverse] at hc)

theorem getLast_trimEndList {c : Char} (h : c ∈ (trimEndList p s).getLast?) : p c = false := by
  rw [trimEndList, List.getLast?_reverse] at h
  exact head_dropWhile h

theorem trimEndList_prefix : trimEndList p s <+: s := by
  have := List.dropWhile_suffix p (l := s.reverse)
  rw [← List.reverse_prefix, List.reverse_reverse] at this
  exact this

theorem isTrimmed_trimList : IsTrimmed p (trimList p s) := by
  refine ⟨fun c hc => ?_, fun c hc => getLast_trimEndList hc⟩
  -- what is cut at the end leaves the first character where it is, or nothing at all
  obtain ⟨after, whole⟩ := trimEndList_prefix (p := p) (s := s.dropWhile p)
  apply head_dropWhile (p := p) (s := s)
  rw [← whole, List.head?_append]
  simp only [trimList] at hc
  simp [Option.mem_def.1 hc]

theorem IsTrimmed.trimList_eq (h : IsTrimmed p s) : trimList p s = s := by
  rw [trimList, dropWhile_eq_self h.1, trimEndList_eq_self h.2]

theorem IsTrimmed.mono (h : IsTrimmed p s) (sub : ∀ c, q c = true → p c = true) :
    IsTrimmed q s := by
  refine ⟨fun c hc => ?_, fun c hc => ?_⟩
  · have := h.1 c hc
    cases hq : q c with
    | false => rfl
    | true => simp [sub c hq] at this
  · have := h.2 c hc
    cases hq : q c with
    | false => rfl
    | true => simp [sub c hq] at this

theorem trimEndList_append_of_pos (white : ∀ c ∈ t, p c = true) :
    trimEndList p (s ++ t) = trimEndList p s := by
  rw [trimEndList, List.reverse_append, List.dropWhile_append_of_pos (by simpa using white)]
  rfl

theorem trimEndList_append_of_hasWord (word : HasWord p t) :
    trimEndList p (s ++ t) = s ++ trimEndList p t := by
  have reversed : HasWord p t.reverse := by simpa [HasWord] using word
  rw [trimEndList, List.reverse_append, List.dropWhile_append, reversed.dropWhile]
  simp [trimEndList]

theorem trimList_append_left (white : ∀ c ∈ s, p c = true) :
    trimList p (s ++ t) = trimList p t := by
  rw [trimList, List.dropWhile_append_of_pos white]
  rfl

theorem trimList_append_right (white : ∀ c ∈ t, p c = true) :
    trimList p (s ++ t) = trimList p s := by
  rw [trimList, trimList, List.dropWhile_append]
  split
  · rename_i empty
    rw [List.isEmpty_iff.1 empty, List.dropWhile_eq_nil_iff.2 white]
  · exact trimEndList_append_of_pos white

theorem trimList_append_of_hasWord (first : HasWord p s) (last : HasWord p t) :
    trimList p (s ++ t) = s.dropWhile p ++ trimEndList p t := by
  rw [trimList, List.dropWhile_append, first.dropWhile]
  exact trimEndList_append_of_hasWord last

/-- What is taken out of a text is missed after trimming where it stands between two words. -/
theorem trimList_insert (white : ∀ c ∈ s, p c = true) (before after : List Char) :
    (trimList p (before ++ after)).Sublist (trimList p (before ++ (s ++ after))) ∧
      (trimList p (before ++ after) = trimList p (before ++ (s ++ after)) ↔
        ¬ (s ≠ [] ∧ HasWord p before ∧ HasWord p after)) := by
  by_cases first : HasWord p before
  · by_cases last : HasWord p after
    · rw [trimList_append_of_hasWord first last,
        trimList_append_of_hasWord first (hasWord_append.2 (.inr last)),
        trimEndList_append_of_hasWord last]
      refine ⟨(List.sublist_append_right s _).append_left _, ?_⟩
      simp [first, last]
    · have blank := not_hasWord_iff.1 last
      have same : trimList p (before ++ after) = trimList p (before ++ (s ++ after)) := by
        rw [trimList_append_right blank, trimList_append_right]
        simpa [or_imp, forall_and] using ⟨white, blank⟩
      rw [same]
      simp [last]
  · have blank := not_hasWord_iff.1 first
    have same : trimList p (before ++ after) = trimList p (before ++ (s ++ after)) := by
      rw [trimList_append_left blank, trimList_append_left blank, trimList_append_left white]
    rw [same]
    simp [first]

theorem append_trimList_append (p : Char → Bool) (s : List Char) :
    s.takeWhile p ++ (trimList p s ++ (s.dropWhile p).rtakeWhile p) = s := by
  have rest : trimList p s ++ (s.dropWhile p).rtakeWhile p = s.dropWhile p :=
    List.rdropWhile_append_rtakeWhile
  rw [rest, List.takeWhile_append_dropWhile]

@[simp] theorem trim_trim (s : String) : trim (trim s) = trim s := by
  simp only [trim, String.toList_ofList]
  rw [isTrimmed_trimList.trimList_eq]

theorem filter_trimList (p : Char → Bool) (s : List Char) :
    (trimList p s).filter (!p ·) = s.filter (!p ·) := by
  have front : (s.takeWhile p).filter (!p ·) = [] := by
    simpa using fun c => List.mem_takeWhile_imp
  have back : ((s.dropWhile p).rtakeWhile p).filter (!p ·) = [] := by
    simpa using fun c => List.mem_rtakeWhile_imp
  calc (trimList p s).filter (!p ·)
      = (s.takeWhile p ++ (trimList p s ++ (s.dropWhile p).rtakeWhile p)).filter (!p ·) := by
        rw [List.filter_append, List.filter_append, front, back, List.nil_append, List.append_nil]
    _ = s.filter (!p ·) := by rw [append_trimList_append]

theorem trimList_eq_nil_iff : trimList p s = [] ↔ ∀ c ∈ s, p c = true := by
  constructor
  · intro nothing c mem
    have whole := append_trimList_append p s
    rw [nothing, List.nil_append] at whole
    rw [← whole, List.mem_append] at mem
    exact mem.elim List.mem_takeWhile_imp List.mem_rtakeWhile_imp
  · intro white
    rw [trimList, List.dropWhile_eq_nil_iff.2 white]
    rfl

end JavaMigration.Text
