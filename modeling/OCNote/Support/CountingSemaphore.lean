import OCNote.Support.Machine

/-! # Counting semaphores

What the callers of a counting semaphore can tell apart: a signal adds a permit, a wait takes
one, and a wait that gives up leaves the permits alone. -/

namespace OCNote.Support
set_option autoImplicit false

universe u

inductive SemaphoreOp (ι : Type u) where
  | signal (i : ι)
  | take (i : ι)
  | giveUp (i : ι)
  deriving DecidableEq, Repr

variable {ι : Type u}

namespace SemaphoreOp

def caller : SemaphoreOp ι → ι
  | signal i | take i | giveUp i => i

def isSignal : SemaphoreOp ι → Bool
  | signal _ => true
  | take _ | giveUp _ => false

def isTake : SemaphoreOp ι → Bool
  | take _ => true
  | signal _ | giveUp _ => false

def apply (permits : Nat) : SemaphoreOp ι → Option Nat
  | signal _ => some (permits + 1)
  | take _ => if permits = 0 then none else some (permits - 1)
  | giveUp _ => some permits

end SemaphoreOp

def countingSemaphore (ι : Type u) (permits : Nat) : Machine Nat (SemaphoreOp ι) where
  start := permits
  step := SemaphoreOp.apply

/-- Every permit there is or has been taken was there at the start or has been signalled. -/
theorem countingSemaphore_balance {permits : Nat} (ops : List (SemaphoreOp ι)) : ∀ left,
    (countingSemaphore ι permits).run ops = some left →
      left + ops.countP SemaphoreOp.isTake = permits + ops.countP SemaphoreOp.isSignal := by
  apply Machine.run_induction (P := fun ops left =>
    left + ops.countP SemaphoreOp.isTake = permits + ops.countP SemaphoreOp.isSignal)
  · rfl
  · intro ops left op left' _ hBalance hStep
    rw [List.countP_append, List.countP_append]
    cases op with
    | signal i =>
      cases hStep
      simp only [List.countP_singleton, SemaphoreOp.isTake, SemaphoreOp.isSignal]
      grind
    | take i =>
      obtain ⟨hLeft, hStep⟩ := Option.ite_none_left_eq_some.mp hStep
      cases hStep
      simp only [List.countP_singleton, SemaphoreOp.isTake, SemaphoreOp.isSignal]
      grind
    | giveUp i =>
      cases hStep
      simpa [SemaphoreOp.isTake, SemaphoreOp.isSignal] using hBalance

end OCNote.Support
