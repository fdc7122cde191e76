import Mathlib.Algebra.BigOperators.Group.Finset.Basic
import Mathlib.Algebra.Order.BigOperators.Group.Finset
import Mathlib.Data.Fintype.BigOperators

/-! # Tallies over the processes of a system

Each of finitely many processes stands at a point, and each point has a weight. A step
moves one process, so that a tally changes by the difference of two weights. -/

namespace OCNote.Support
set_option autoImplicit false

universe u v

variable {ι : Type u} {κ : Type v} [Fintype ι]

def tally (weight : κ → Nat) (point : ι → κ) : Nat := ∑ i, weight (point i)

theorem weight_le_tally (weight : κ → Nat) (point : ι → κ) (i : ι) : weight (point i) ≤ tally weight point :=
  Finset.single_le_sum (f := fun i => weight (point i)) (fun _ _ => Nat.zero_le _) (Finset.mem_univ i)

theorem tally_eq_zero_iff {weight : κ → Nat} {point : ι → κ} :
    tally weight point = 0 ↔ ∀ i, weight (point i) = 0 := by
  simp [tally, Finset.sum_eq_zero_iff]

/-- Weights of at most one count processes. -/
theorem tally_le_card {weight : κ → Nat} (hOne : ∀ k, weight k ≤ 1) (point : ι → κ) :
    tally weight point ≤ Fintype.card ι := by
  calc tally weight point ≤ ∑ _i : ι, 1 := Finset.sum_le_sum fun i _ => hOne (point i)
    _ = Fintype.card ι := by simp

/-- One process is out of a count that it does not belong to. -/
theorem tally_lt_card {weight : κ → Nat} (hOne : ∀ k, weight k ≤ 1) {point : ι → κ} {i : ι}
    (hOut : weight (point i) = 0) : tally weight point < Fintype.card ι := by
  calc tally weight point < ∑ _i : ι, 1 :=
        Finset.sum_lt_sum (fun j _ => hOne (point j)) ⟨i, Finset.mem_univ i, hOut ▸ Nat.one_pos⟩
    _ = Fintype.card ι := by simp

variable [DecidableEq ι]

theorem tally_update (weight : κ → Nat) (point : ι → κ) (i : ι) (k : κ) :
    tally weight (Function.update point i k) + weight (point i) = tally weight point + weight k := by
  have hOthers : ∑ j ∈ Finset.univ.erase i, weight (Function.update point i k j) =
      ∑ j ∈ Finset.univ.erase i, weight (point j) := by
    apply Finset.sum_congr rfl
    intro j hj
    rw [Function.update_of_ne (Finset.ne_of_mem_erase hj)]
  have hAfter := Finset.sum_erase_add Finset.univ (fun j => weight (Function.update point i k j)) (Finset.mem_univ i)
  have hBefore := Finset.sum_erase_add Finset.univ (fun j => weight (point j)) (Finset.mem_univ i)
  rw [Function.update_self] at hAfter
  unfold tally
  omega

end OCNote.Support
