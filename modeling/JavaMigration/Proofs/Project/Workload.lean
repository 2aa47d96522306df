import JavaMigration.Project.Workload
import JavaMigration.Proofs.Number.Order

/-!
# Workloads in order

A larger project takes no less effort. Every hour that is counted is added to a number without a
sign, each step follows the order of such numbers, and so does every rounding. Days and manual work
are shares of the hours.
-/

namespace JavaMigration.Project.Workload

open Number Binary64

variable {m n : Nat} {s t : Snapshot} {f g : List Finding}

def tierHours (tiers : List (Nat × Nat)) (n : Nat) : Nat :=
  ((tiers.find? fun tier => tier.1 < n).map (·.2)).getD 0

theorem tierHours_cons (tier : Nat × Nat) (tiers : List (Nat × Nat)) (n : Nat) :
    tierHours (tier :: tiers) n = if tier.1 < n then tier.2 else tierHours tiers n := by
  by_cases here : tier.1 < n <;> simp [tierHours, here]

theorem tierHours_le_of_forall {tiers : List (Nat × Nat)} {hours : Nat}
    (most : ∀ tier ∈ tiers, tier.2 ≤ hours) (n : Nat) : tierHours tiers n ≤ hours := by
  unfold tierHours
  cases found : tiers.find? fun tier => tier.1 < n with
  | none => exact Nat.zero_le _
  | some tier => exact most tier (List.mem_of_find?_eq_some found)

theorem tierHours_le_tierHours {tiers : List (Nat × Nat)}
    (descending : tiers.Pairwise fun a b => b.2 ≤ a.2) (h : m ≤ n) :
    tierHours tiers m ≤ tierHours tiers n := by
  induction tiers with
  | nil => exact Nat.le_refl _
  | cons tier tiers ih =>
    obtain ⟨most, rest⟩ := List.pairwise_cons.1 descending
    rw [tierHours_cons, tierHours_cons]
    by_cases here : tier.1 < m
    · rw [if_pos here, if_pos (here.trans_le h)]
    · rw [if_neg here]
      split
      · exact tierHours_le_of_forall most m
      · exact ih rest

theorem baseHours_eq (n : Nat) : baseHours n = .ofNat 2 + .ofNat (tierHours sizeTiers n) := by
  unfold baseHours tierHours
  cases sizeTiers.find? fun tier => tier.1 < n with
  | none => exact (isUnsigned_ofNat 2).add_zero.symm
  | some tier => rfl

theorem isUnsigned_baseHours (n : Nat) : IsUnsigned (baseHours n) := by
  rw [baseHours_eq]
  exact (isUnsigned_ofNat 2).add (isUnsigned_ofNat _)

theorem baseHours_le_baseHours (h : m ≤ n) : baseHours m ≤ baseHours n := by
  have descending : sizeTiers.Pairwise fun a b => b.2 ≤ a.2 := by decide
  have tiers := tierHours_le_tierHours descending h
  rw [baseHours_eq, baseHours_eq]
  exact add_le_add (isUnsigned_ofNat 2) (isUnsigned_ofNat 2) (isUnsigned_ofNat _)
    (isUnsigned_ofNat _) (isUnsigned_ofNat 2).le_refl (ofNat_le_ofNat tiers)

def pieceHours (n : Nat) (q : Binary64) : Binary64 :=
  .ofNat n * q

variable {q : Binary64}

theorem isUnsigned_pieceHours (factor : IsFactor q) (n : Nat) : IsUnsigned (pieceHours n q) :=
  (isUnsigned_ofNat n).mul factor

theorem pieceHours_le_pieceHours (factor : IsFactor q) (h : m ≤ n) :
    pieceHours m q ≤ pieceHours n q :=
  mul_le_mul_right (isUnsigned_ofNat m) (isUnsigned_ofNat n) factor (ofNat_le_ofNat h)

theorem isFactor_rates :
    IsFactor (.ofQuotient 5 100) ∧ IsFactor (.ofNat 2) ∧ IsFactor (.ofQuotient 1 2) ∧
      IsFactor (.ofQuotient 15 100) := by
  decide +kernel

def sharedHours (s : Snapshot) (f : List Finding) : Binary64 :=
  baseHours s.shape.sourceCount + pieceHours s.totalUsage (.ofQuotient 5 100) +
    pieceHours (countHigh f) (.ofNat 2)

theorem exactHours_eq (s : Snapshot) (f : List Finding) :
    exactHours s f =
      if s.isMultiModule then
        sharedHours s f + pieceHours s.shape.descriptorCount (.ofQuotient 1 2)
      else sharedHours s f := rfl

theorem isUnsigned_sharedHours (s : Snapshot) (f : List Finding) :
    IsUnsigned (sharedHours s f) :=
  ((isUnsigned_baseHours _).add (isUnsigned_pieceHours isFactor_rates.1 _)).add
    (isUnsigned_pieceHours isFactor_rates.2.1 _)

theorem isUnsigned_exactHours (s : Snapshot) (f : List Finding) : IsUnsigned (exactHours s f) := by
  rw [exactHours_eq]
  split
  · exact (isUnsigned_sharedHours s f).add (isUnsigned_pieceHours isFactor_rates.2.2.1 _)
  · exact isUnsigned_sharedHours s f

/-- A project with its findings is no larger than another one in anything that takes effort. -/
structure IsWithin (s : Snapshot) (f : List Finding) (t : Snapshot) (g : List Finding) : Prop where
  sources : s.shape.sourceCount ≤ t.shape.sourceCount
  usage : s.totalUsage ≤ t.totalUsage
  risks : countHigh f ≤ countHigh g
  descriptors : s.shape.descriptorCount ≤ t.shape.descriptorCount
  modules : s.isMultiModule = false ∨ t.isMultiModule = true

theorem IsWithin.sharedHours_le (h : IsWithin s f t g) : sharedHours s f ≤ sharedHours t g := by
  have imports := isUnsigned_pieceHours isFactor_rates.1
  have risks := isUnsigned_pieceHours isFactor_rates.2.1
  have base := isUnsigned_baseHours
  refine add_le_add ((base _).add (imports _)) ((base _).add (imports _)) (risks _) (risks _) ?_
    (pieceHours_le_pieceHours isFactor_rates.2.1 h.risks)
  exact add_le_add (base _) (base _) (imports _) (imports _) (baseHours_le_baseHours h.sources)
    (pieceHours_le_pieceHours isFactor_rates.1 h.usage)

theorem sharedHours_le_exactHours (s : Snapshot) (f : List Finding) :
    sharedHours s f ≤ exactHours s f := by
  have shared := isUnsigned_sharedHours s f
  rw [exactHours_eq]
  split
  · exact le_add_right shared (isUnsigned_pieceHours isFactor_rates.2.2.1 _)
  · exact shared.le_refl

theorem IsWithin.exactHours_le (h : IsWithin s f t g) : exactHours s f ≤ exactHours t g := by
  cases single : s.isMultiModule with
  | false =>
    have only : exactHours s f = sharedHours s f := by
      rw [exactHours_eq, single]
      rfl
    rw [only]
    exact le_trans h.sharedHours_le (sharedHours_le_exactHours t g)
  | true =>
    have multi : t.isMultiModule = true := h.modules.resolve_left (by simp [single])
    have modules := isUnsigned_pieceHours isFactor_rates.2.2.1
    rw [exactHours_eq, exactHours_eq, if_pos single, if_pos multi]
    exact add_le_add (isUnsigned_sharedHours s f) (isUnsigned_sharedHours t g) (modules _)
      (modules _) h.sharedHours_le (pieceHours_le_pieceHours isFactor_rates.2.2.1 h.descriptors)

/--
A project that is no larger takes no more hours, days and hours of manual work, all of them rounded.
Neither the manual work nor the number of days is ever above the number of hours.
-/
theorem estimate_ordered :
    (∀ (s : Snapshot) (f : List Finding) (t : Snapshot) (g : List Finding), IsWithin s f t g →
      (estimate s f).hours ≤ (estimate t g).hours ∧
      (estimate s f).days ≤ (estimate t g).days ∧
      (estimate s f).manualHours ≤ (estimate t g).manualHours) ∧
    ∀ (s : Snapshot) (f : List Finding),
      (estimate s f).manualHours ≤ (estimate s f).hours ∧
      (estimate s f).days ≤ (estimate s f).hours := by
  have exactly := isUnsigned_exactHours
  have eighth (s : Snapshot) (f : List Finding) := (exactly s f).divNat 8
  have share (s : Snapshot) (f : List Finding) := (exactly s f).mul isFactor_rates.2.2.2
  constructor
  · intro s f t g within
    have hours := within.exactHours_le
    refine ⟨roundTenth_le_roundTenth (exactly s f) (exactly t g) hours, ?_, ?_⟩
    · apply roundTenth_le_roundTenth (eighth s f) (eighth t g)
      exact divNat_le_divNat (exactly s f) (exactly t g) (by decide) hours
    · apply roundTenth_le_roundTenth (share s f) (share t g)
      exact mul_le_mul_right (exactly s f) (exactly t g) isFactor_rates.2.2.2 hours
  · intro s f
    constructor
    · apply roundTenth_le_roundTenth (share s f) (exactly s f)
      exact mul_le_self (exactly s f) isFactor_rates.2.2.2 (ofQuotient_le_ofNat (by decide) (by decide))
    · apply roundTenth_le_roundTenth (eighth s f) (exactly s f)
      exact divNat_le_self (exactly s f) (by decide)

/-- The first file above a limit and three more imports, of which one alone is rounded away. -/
theorem estimate_ordered_tier :
    let shape : Structure := ⟨.singleModule, false, 1, 50, []⟩
    let s : Snapshot := ⟨"demo", shape, {}, [("javax.servlet", 1)], [], [], []⟩
    let t : Snapshot :=
      { s with
        shape := { shape with topology := .multiModule, sourceCount := 51 }
        namespaceUsage := [("javax.ejb", 1), ("javax.servlet", 3)] }
    IsWithin s [] t [⟨.high, "", "", ""⟩] ∧
      (estimate s []).hours = .ofQuotient 20 10 ∧
      (estimate t [⟨.high, "", "", ""⟩]).hours = .ofQuotient 67 10 ∧
      (estimate s []).hours ≤ (estimate t [⟨.high, "", "", ""⟩]).hours := by
  intro shape s t
  have within : IsWithin s [] t [⟨.high, "", "", ""⟩] := by constructor <;> decide
  have ordered := estimate_ordered.1 s [] t [⟨.high, "", "", ""⟩] within
  exact ⟨within, by decide +kernel, by decide +kernel, ordered.1⟩

end JavaMigration.Project.Workload
