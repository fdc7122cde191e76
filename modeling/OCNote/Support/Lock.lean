import Mathlib.Logic.Function.Basic
import Mathlib.Tactic.Common

/-! # A counting semaphore created with value one

The processes are indexed by any type. `inside` tells which program points lie
between the wait that returned and the signal that has not run yet. The semaphore
is exclusive when its value and the program points agree: value one and nobody
inside, or value zero and exactly one process inside. -/

namespace OCNote.Support
set_option autoImplicit false

universe u v

variable {ι : Type u} {κ : Type v}

def Exclusive (inside : κ → Prop) (value : Nat) (pc : ι → κ) : Prop :=
  (value = 1 ∧ ∀ i, ¬ inside (pc i)) ∨
  (value = 0 ∧ ∃ i, inside (pc i) ∧ ∀ j, inside (pc j) → j = i)

namespace Exclusive

variable {inside : κ → Prop} {value : Nat} {pc : ι → κ}

theorem start (h : ∀ i, ¬ inside (pc i)) : Exclusive inside 1 pc := .inl ⟨rfl, h⟩

theorem value_le_one (h : Exclusive inside value pc) : value ≤ 1 := by
  rcases h with ⟨rfl, _⟩ | ⟨rfl, _⟩ <;> decide

theorem unique (h : Exclusive inside value pc) {i j : ι} (hi : inside (pc i))
    (hj : inside (pc j)) : i = j := by
  obtain ⟨_, hNone⟩ | ⟨_, k, _, hOnly⟩ := h
  · exact absurd hi (hNone i)
  · exact (hOnly i hi).trans (hOnly j hj).symm

theorem value_eq_zero (h : Exclusive inside value pc) {i : ι} (hi : inside (pc i)) :
    value = 0 := by
  obtain ⟨_, hNone⟩ | ⟨hZero, _⟩ := h
  · exact absurd hi (hNone i)
  · exact hZero

theorem nobody_inside (h : Exclusive inside value pc) (hValue : 0 < value) (i : ι) :
    ¬ inside (pc i) := by
  obtain ⟨_, hNone⟩ | ⟨hZero, _⟩ := h
  · exact hNone i
  · omega

variable [DecidableEq ι]

theorem acquire (h : Exclusive inside value pc) (hValue : 0 < value) {i : ι} {p : κ}
    (hp : inside p) : Exclusive inside (value - 1) (Function.update pc i p) := by
  have hNone := h.nobody_inside hValue
  refine .inr ⟨by have := h.value_le_one; omega, i, by simpa using hp, ?_⟩
  intro j hj
  by_contra hji
  rw [Function.update_of_ne hji] at hj
  exact hNone j hj

theorem release (h : Exclusive inside value pc) {i : ι} (hi : inside (pc i)) {p : κ}
    (hp : ¬ inside p) : Exclusive inside (value + 1) (Function.update pc i p) := by
  refine .inl ⟨by rw [h.value_eq_zero hi], ?_⟩
  intro j hj
  obtain rfl | hji := eq_or_ne j i
  · exact hp (by simpa using hj)
  · rw [Function.update_of_ne hji] at hj
    exact hji (h.unique hj hi)

/-- A step that neither enters nor leaves the guarded region. -/
theorem move (h : Exclusive inside value pc) {i : ι} {p : κ} (hp : inside p ↔ inside (pc i)) :
    Exclusive inside value (Function.update pc i p) := by
  have hSame : ∀ j, inside (Function.update pc i p j) ↔ inside (pc j) := by
    intro j
    obtain rfl | hji := eq_or_ne j i
    · simpa using hp
    · rw [Function.update_of_ne hji]
  simpa only [Exclusive, hSame] using h

end Exclusive

end OCNote.Support
