import Mathlib.Order.Interval.Set.LinearOrder
import Mathlib.Order.MinMax
import Mathlib.Tactic.Common

/-! # The half-open interval between two ends

The ends come in either order: moved past each other they change places. So an interval
whose ends are moved apart grows only as long as they are not crossed at the start. -/

namespace OCNote.Support
set_option autoImplicit false

universe u

variable {α : Type u} [LinearOrder α] {a b a' b' : α}

def span (a b : α) : Set α := Set.Ico (min a b) (max a b)

theorem span_comm (a b : α) : span a b = span b a := by
  rw [span, span, min_comm, max_comm]

theorem span_of_le (h : a ≤ b) : span a b = Set.Ico a b := by
  rw [span, min_eq_left h, max_eq_right h]

theorem span_eq_empty_iff : span a b = ∅ ↔ a = b := by
  rw [span, Set.Ico_eq_empty_iff, min_lt_max, not_not]

/-- The ends move apart: `a` down to `a'` and `b` up to `b'`. -/
theorem span_subset_span_iff (hLow : a' ≤ a) (hHigh : b ≤ b') :
    span a b ⊆ span a' b' ↔ a = b ∨ (a' = a ∧ b' = b) ∨ (a' ≤ b ∧ a ≤ b') := by
  rcases lt_trichotomy a b with hLt | hEq | hGt
  · rw [span_of_le hLt.le, span_of_le ((hLow.trans hLt.le).trans hHigh)]
    exact iff_of_true (Set.Ico_subset_Ico hLow hHigh)
      (Or.inr (Or.inr ⟨hLow.trans hLt.le, hLt.le.trans hHigh⟩))
  · rw [span_eq_empty_iff.mpr hEq]
    exact iff_of_true (Set.empty_subset _) (Or.inl hEq)
  · rw [span_comm a b, span_of_le hGt.le]
    rcases le_or_gt a' b' with hOrder | hCrossed
    · rw [span_of_le hOrder, Set.Ico_subset_Ico_iff hGt]
      constructor
      · exact fun h => Or.inr (Or.inr h)
      · rintro (rfl | ⟨rfl, rfl⟩ | h)
        · exact absurd hGt (lt_irrefl a)
        · exact absurd hGt (not_lt_of_ge hOrder)
        · exact h
    · -- Still crossed, the upper end is the one that came down: it cannot have moved.
      rw [span_comm a' b', span_of_le hCrossed.le, Set.Ico_subset_Ico_iff hGt]
      constructor
      · rintro ⟨hb, ha⟩
        exact Or.inr (Or.inl ⟨le_antisymm hLow ha, le_antisymm hb hHigh⟩)
      · rintro (rfl | ⟨rfl, rfl⟩ | ⟨ha, -⟩)
        · exact absurd hGt (lt_irrefl a)
        · exact ⟨le_rfl, le_rfl⟩
        · exact absurd (hCrossed.trans_le ha) (not_lt_of_ge hHigh)

end OCNote.Support
