import Mathlib.Tactic.Common

/-! # C loops over a fallible body

`loop` runs `for (; test; advance) body` with a bound on the number of tests. The
test and the body may raise; the body may also leave the loop. Running out of the
bound is an outcome of its own, so that a result `ok` says that the loop ended. -/

namespace OCNote.Support
set_option autoImplicit false

universe u v

inductive Halt (ε : Type u) where
  | raised (exception : ε)
  | outOfFuel
  deriving DecidableEq, Repr

inductive Flow (σ : Type u) where
  | next (s : σ)
  | leave (s : σ)

variable {σ : Type u} {ε : Type v}

def loop (test : σ → Except (Halt ε) Bool) (body : σ → Except (Halt ε) (Flow σ)) (advance : σ → σ) :
    Nat → σ → Except (Halt ε) σ
  | 0, _ => .error .outOfFuel
  | fuel + 1, s =>
    match test s with
    | .error e => .error e
    | .ok false => .ok s
    | .ok true =>
      match body s with
      | .error e => .error e
      | .ok (.leave s') => .ok s'
      | .ok (.next s') => loop test body advance fuel (advance s')

/-- What has to be shown of one body: either the loop goes on with the invariant and a
smaller variant, or it is left with the postcondition. -/
def Flow.Keeps (advance : σ → σ) (invariant post : σ → Prop) (variant : σ → Nat) (s : σ) :
    Flow σ → Prop
  | .next s' => invariant (advance s') ∧ variant (advance s') < variant s
  | .leave s' => post s'

/-- The same with a rank that the state need not determine. -/
def Flow.Descends (advance : σ → σ) (invariant : Nat → σ → Prop) (post : σ → Prop) (rank : Nat) :
    Flow σ → Prop
  | .next s' => ∃ rank' < rank, invariant rank' (advance s')
  | .leave s' => post s'

variable {test : σ → Except (Halt ε) Bool} {body : σ → Except (Halt ε) (Flow σ)} {advance : σ → σ}

theorem loop_done {fuel : Nat} {s : σ} (hTest : test s = .ok false) :
    loop test body advance (fuel + 1) s = .ok s := by
  rw [loop, hTest]

theorem loop_leave {fuel : Nat} {s s' : σ} (hTest : test s = .ok true) (hBody : body s = .ok (.leave s')) :
    loop test body advance (fuel + 1) s = .ok s' := by
  rw [loop, hTest]
  simp only [hBody]

theorem loop_next {fuel : Nat} {s s' : σ} (hTest : test s = .ok true) (hBody : body s = .ok (.next s')) :
    loop test body advance (fuel + 1) s = loop test body advance fuel (advance s') := by
  rw [loop, hTest]
  simp only [hBody]

theorem loop_total_ranked (invariant : Nat → σ → Prop) {post : σ → Prop}
    (hBody : ∀ rank s, invariant rank s → (test s = .ok false ∧ post s) ∨
      (test s = .ok true ∧ ∃ flow, body s = .ok flow ∧ flow.Descends advance invariant post rank))
    {fuel rank : Nat} {s : σ} (hs : invariant rank s) (hFuel : rank < fuel) :
    ∃ s', loop test body advance fuel s = .ok s' ∧ post s' := by
  induction fuel generalizing rank s with
  | zero => omega
  | succ fuel ih =>
    obtain ⟨hTest, hPost⟩ | ⟨hTest, flow, hFlow, hDescends⟩ := hBody rank s hs
    · exact ⟨s, loop_done hTest, hPost⟩
    · cases flow with
      | leave s' => exact ⟨s', loop_leave hTest hFlow, hDescends⟩
      | next s' =>
        obtain ⟨rank', hLess, hInv⟩ := hDescends
        obtain ⟨t, hRun, hPost⟩ := ih hInv (by omega)
        exact ⟨t, (loop_next hTest hFlow).trans hRun, hPost⟩

/-- Total correctness: with more fuel than the variant, the loop ends without raising. -/
theorem loop_total (invariant : σ → Prop) {post : σ → Prop} (variant : σ → Nat)
    (hBody : ∀ s, invariant s → (test s = .ok false ∧ post s) ∨
      (test s = .ok true ∧ ∃ flow, body s = .ok flow ∧
        flow.Keeps advance invariant post variant s))
    {fuel : Nat} {s : σ} (hs : invariant s) (hFuel : variant s < fuel) :
    ∃ s', loop test body advance fuel s = .ok s' ∧ post s' := by
  refine loop_total_ranked (fun rank s => invariant s ∧ variant s = rank) ?_ ⟨hs, rfl⟩ hFuel
  rintro _ s ⟨hInv, rfl⟩
  obtain hEnd | ⟨hTest, flow, hFlow, hKeeps⟩ := hBody s hInv
  · exact .inl hEnd
  · refine .inr ⟨hTest, flow, hFlow, ?_⟩
    cases flow with
    | leave s' => exact hKeeps
    | next s' => exact ⟨_, hKeeps.2, hKeeps.1, rfl⟩

/-- Partial correctness: what holds of the result of a loop that has ended. -/
theorem loop_partial (invariant post : σ → Prop)
    (hEnd : ∀ s, invariant s → test s = .ok false → post s)
    (hNext : ∀ s s', invariant s → test s = .ok true → body s = .ok (.next s') → invariant (advance s'))
    (hLeave : ∀ s s', invariant s → test s = .ok true → body s = .ok (.leave s') → post s')
    {fuel : Nat} {s s' : σ} (hs : invariant s) (hRun : loop test body advance fuel s = .ok s') :
    post s' := by
  induction fuel generalizing s with
  | zero => cases hRun
  | succ fuel ih =>
    rw [loop] at hRun
    split at hRun
    · cases hRun
    · rename_i hTest
      cases hRun
      exact hEnd _ hs hTest
    · rename_i hTest
      split at hRun
      · cases hRun
      · rename_i hBody
        cases hRun
        exact hLeave _ _ hs hTest hBody
      · rename_i hBody
        exact ih (hNext _ _ hs hTest hBody) hRun

end OCNote.Support
