import JavaMigration.Proofs.Descriptor.Steady
import JavaMigration.Proofs.Markup.RoundTrip

/-!
# Upgraded descriptors can be written

New elements have proper names, and no step of an upgrade touches an attribute or a comment. So the
upgrade of a document that can be written can be written.
-/

namespace JavaMigration.Descriptor

open Markup

variable {s : UpgradeSettings} {e : Element} {name : String}

theorem isName_qualify (h : IsName e.name) (proper : IsName name) : IsName (e.qualify name) := by
  unfold Element.qualify Element.qualifier?
  cases e.name.toList.dropWhile (· ≠ ':') with
  | nil => exact proper
  | cons c rest =>
    simp only
    refine ⟨by simp, ?_, ?_⟩
    · intro c mem
      simp only [String.toList_append, List.mem_append, String.toList_ofList] at mem
      rcases mem with (mem | mem) | mem
      · exact h.plain c ((List.takeWhile_sublist _).subset mem)
      · obtain rfl : c = ':' := by simpa using mem
        decide
      · exact proper.plain c mem
    · cases spelled : e.name.toList with
      | nil => exact absurd spelled h.nonempty
      | cons first more =>
        have opening := h.opening
        rw [spelled] at opening
        by_cases colon : first = ':'
        · simp [colon]
        · simpa [colon] using opening

theorem isSteady_isWritable : IsSteady Element.IsWritable IsName fun _ => True where
  withText _ _ h _ := ⟨h.tag, h.comments⟩
  newChild e name h proper := by
    constructor
    · exact ⟨isName_qualify h.tag.1 proper, by simp [Element.newChild], by simp [Element.newChild]⟩
    · simp [Element.newChild]
  withChildren _ _ h _ := ⟨h.tag, h.comments⟩
  names := by decide
  literals _ _ := trivial

/-- The upgrade of what can be written can be written. -/
theorem keeps_isWritable (h : IsStable s) (strategy : Strategy) (processors : List Coordinate) :
    Keeps Element.IsWritable (upgradeRoot s strategy processors) := by
  have names : ∀ key ∈ s.javaProperties, IsName key := fun key mem => (h.keys key mem).1
  apply isSteady_isWritable.keeps_upgradeRoot s.fits_any (fun p _ => p.fits_any) names
  exact fun key mem => fits_newChild (names key mem) (h.plain key mem)

end JavaMigration.Descriptor
