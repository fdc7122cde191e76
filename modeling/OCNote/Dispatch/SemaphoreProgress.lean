import OCNote.Dispatch.SemaphoreLinearizable

/-! # No wakeup is lost

When no more calls start, the threads come to rest. A thread that is left asleep in the
kernel then waits for a permit that nobody has signalled. -/

namespace OCNote.Dispatch.Semaphore
open OCNote.Support
set_option autoImplicit false

universe u

namespace Point

def asleep : Point → Bool
  | sema4Timedwait _ | sema4Wait _ => true
  | _ => false

/-- How many steps the call of a thread takes at most, when its undoing succeeds at once. -/
def rank : Point → Nat
  | outside | returned _ => 0
  | sema4Signal | sema4Wait _ => 1
  | createSlow .signal | cmpxchg _ _ => 2
  | create .signal | load _ => 3
  | inc | sema4Timedwait _ => 4
  | createSlow (.wait _) => 5
  | create (.wait _) => 6
  | dec _ => 7

/-- The thread is about to compare the value with another one. -/
def stale (value : Int64) : Point → Nat
  | cmpxchg _ orig => if value = orig then 0 else 1
  | _ => 0

theorem stale_le_one (value : Int64) (p : Point) : p.stale value ≤ 1 := by
  unfold stale
  split
  · split <;> decide
  · decide

theorem rank_slow (call : Call) : call.slow.rank < (createSlow call).rank := by
  cases call with
  | signal => decide
  | wait timeout =>
    obtain ⟨h, _⟩ | ⟨h, _⟩ | ⟨h, _⟩ := slow_wait timeout <;> rw [h] <;> simp [rank]

theorem rank_createSlow (call : Call) : (createSlow call).rank < (create call).rank := by
  cases call <;> simp [rank]

end Point

variable {ι : Type u} [Fintype ι] [DecidableEq ι]

/-- The steps by which the calls that have been made go on. A compare and exchange fails for
a reason only. -/
def Event.goesOn : Event ι → Bool
  | .go _ | .timesOut _ => true
  | .call _ _ | .failsSpuriously _ => false

def variant (s : State ι) : Nat :=
  (Fintype.card ι + 1) * tally Point.rank s.point + tally (Point.stale s.dsema.dsema_value) s.point

/-- Nobody has a step to take, except that threads may be asleep for want of a permit. -/
structure AtRest (s : State ι) : Prop where
  points : ∀ i, (s.point i).idle = true ∨ (s.point i).asleep = true
  needy : (∃ i, (s.point i).asleep = true) → s.available = 0

theorem variant_rank {s s' : State ι} {i : ι} {p : Point} (hPoint : s'.point = Function.update s.point i p)
    (hRank : p.rank < (s.point i).rank) : variant s' < variant s := by
  have hTally := tally_update Point.rank s.point i p
  have hStale := tally_le_card (Point.stale_le_one s'.dsema.dsema_value) s'.point
  have hMul : (Fintype.card ι + 1) * (tally Point.rank s'.point + 1) ≤
      (Fintype.card ι + 1) * tally Point.rank s.point := by
    apply Nat.mul_le_mul_left
    rw [hPoint]
    omega
  unfold variant
  rw [Nat.mul_add] at hMul
  omega

/-- A compare and exchange that has failed is tried again with the present value. -/
theorem variant_stale {s s' : State ι} {i : ι} {timeout : UInt64} {orig : Int64}
    (hPoint : s'.point = Function.update s.point i (.cmpxchg timeout s.dsema.dsema_value))
    (hOld : s.point i = .cmpxchg timeout orig) (hValue : s.dsema.dsema_value ≠ orig)
    (hSame : s'.dsema.dsema_value = s.dsema.dsema_value) : variant s' < variant s := by
  have hRank := tally_update Point.rank s.point i (.cmpxchg timeout s.dsema.dsema_value)
  have hStale := tally_update (Point.stale s.dsema.dsema_value) s.point i (.cmpxchg timeout s.dsema.dsema_value)
  simp only [hOld, Point.rank, Nat.add_right_cancel_iff] at hRank
  simp only [hOld, Point.stale, if_true, if_neg hValue] at hStale
  unfold variant
  rw [hSame, hPoint, hRank]
  omega

theorem variant_moves {s s' : State ι} {e : Event ι} (hMove : Moves s e s') (hGoesOn : e.goesOn = true)
    (hAlive : s'.crashed = none) : variant s' < variant s := by
  cases hMove with
  | enters => cases hGoesOn
  | overflows | fails => cases hAlive
  | signals i hPoint | owes i hPoint | takes i timeout hPoint | waits i timeout hPoint
  | posts i permits hPoint | gaveUp i timeout orig hPoint | expires i timeout hPoint =>
    refine variant_rank rfl ?_
    rw [hPoint]
    simp [Point.rank]
  | finds i call hPoint hSema =>
    refine variant_rank rfl ?_
    obtain hPoint | hPoint := hPoint <;> rw [hPoint]
    · exact (Point.rank_slow call).trans (Point.rank_createSlow call)
    · exact Point.rank_slow call
  | misses i call hPoint =>
    refine variant_rank rfl ?_
    rw [hPoint]
    exact Point.rank_createSlow call
  | publishes i call hPoint =>
    refine variant_rank rfl ?_
    rw [hPoint]
    exact Point.rank_slow call
  | wakes i timeout permits hPoint =>
    refine variant_rank rfl ?_
    obtain hPoint | hPoint := hPoint <;> rw [hPoint] <;> simp [Point.rank]
  | looks i timeout e hEvent hPoint =>
    by_cases hNeg : s.dsema.dsema_value < 0
    · have hUndo : undoLoop timeout s.dsema.dsema_value = .cmpxchg timeout s.dsema.dsema_value := if_pos hNeg
      obtain hPoint | ⟨orig, hPoint, hStale⟩ := hPoint
      · refine variant_rank rfl ?_
        rw [hPoint, hUndo]
        simp [Point.rank]
      · have hGo : e = .go i := by
          obtain rfl | rfl := hEvent
          · rfl
          · cases hGoesOn
        refine variant_stale ?_ hPoint (hStale hGo) rfl
        rw [hUndo]
        rfl
    · have hUndo : undoLoop timeout s.dsema.dsema_value = .sema4Wait timeout := if_neg hNeg
      refine variant_rank rfl ?_
      rw [hUndo]
      obtain hPoint | ⟨orig, hPoint, _⟩ := hPoint <;> rw [hPoint] <;> simp [Point.rank]

theorem Point.weights_of_asleep {p : Point} (h : p.asleep = true) : p.idle = false ∧ p.waiting = 1 := by
  cases p <;> first | exact ⟨rfl, rfl⟩ | cases h

theorem Point.posting_of_rest {p : Point} (h : p.idle = true ∨ p.asleep = true) : p.posting = 0 := by
  obtain h | h := h <;> cases p <;> first | rfl | cases h

omit [Fintype ι] in
theorem rests_of_blocked {s : State ι} {i : ι} (hSound : (s.point i).Sound s.dsema.dsema_sema)
    (hBlocked : ∀ s', go s i ≠ some s') :
    (s.point i).idle = true ∨ (s.point i).asleep = true ∧ s.dsema.dsema_sema = some 0 := by
  have hPermits : s.dsema.dsema_sema.isSome = true → (∀ s', sema4_wait s i ≠ some s') →
      s.dsema.dsema_sema = some 0 := by
    intro hSome hWait
    obtain ⟨permits, hSema⟩ := Option.isSome_iff_exists.mp hSome
    cases permits with
    | zero => exact hSema
    | succ permits =>
      unfold sema4_wait at hWait
      rw [hSema] at hWait
      exact absurd rfl (hWait _)
  unfold go at hBlocked
  cases hPoint : s.point i with
  | outside | returned => exact .inl rfl
  | sema4Wait timeout =>
    rw [hPoint] at hSound hBlocked
    exact .inr ⟨rfl, hPermits hSound hBlocked⟩
  | sema4Timedwait timeout =>
    rw [hPoint] at hSound hBlocked
    exact .inr ⟨rfl, hPermits hSound.1 hBlocked⟩
  | _ =>
    rw [hPoint] at hBlocked
    exact absurd rfl (hBlocked _)

theorem atRest_of_blocked {s : State ι} (h : Balanced s) (hBlocked : ∀ i s', go s i ≠ some s') : AtRest s := by
  have hEach := fun i => rests_of_blocked (h.sound i) (hBlocked i)
  have hPoints : ∀ i, (s.point i).idle = true ∨ (s.point i).asleep = true := fun i => (hEach i).imp_right And.left
  refine ⟨hPoints, ?_⟩
  rintro ⟨i, hAsleep⟩
  have hPosting : tally Point.posting s.point = 0 := tally_eq_zero_iff.mpr fun j => Point.posting_of_rest (hPoints j)
  obtain ⟨hIdle, hOne⟩ := Point.weights_of_asleep hAsleep
  have hPermits : s.permits = 0 := by
    obtain hIdle' | ⟨_, hSema⟩ := hEach i
    · rw [hIdle] at hIdle'
      cases hIdle'
    · exact permits_of_some hSema
  have hWaiting := weight_le_tally Point.waiting s.point i
  have hBalance := h.waiting
  unfold State.available
  omega

theorem comes_to_rest {dsema : DispatchSemaphore} {s : State ι} (hThreads : Fintype.card ι < 2 ^ 63)
    (h : s.crashed = none → Balanced s) :
    ((semaphore ι dsema).restrict Event.goesOn).Inevitably (fun s' => s'.crashed = none → AtRest s') s := by
  refine Machine.inevitably_of_variant (fun s => s.crashed = none → Balanced s) variant ?_ ?_ h
  · intro s hs hNot
    push Not at hNot
    obtain ⟨hAlive, hNotAtRest⟩ := hNot
    by_contra hNone
    push Not at hNone
    refine hNotAtRest (atRest_of_blocked (hs hAlive) fun i s' hGo => hNone (.go i) s' ?_)
    refine Machine.restrict_step.mpr ⟨rfl, ?_⟩
    change step s (.go i) = some s'
    unfold step
    rw [hAlive]
    exact hGo
  · intro s e s' hs hNot hStep
    obtain ⟨hGoesOn, hStep⟩ := Machine.restrict_step.mp hStep
    obtain ⟨hBefore, hMove⟩ := moves_of_step hStep
    by_cases hAlive : s'.crashed = none
    · exact .inr ⟨fun _ => (hs hBefore).moves hThreads hMove hAlive, variant_moves hMove hGoesOn hAlive⟩
    · exact .inl fun h => absurd h hAlive

/-- From any state that a run reaches the calls that have been made come to rest, in whatever order
the threads go on. Whoever is then still asleep waits for a permit that does not exist: all that
were there or have been signalled are taken. -/
theorem no_lost_wakeup {value : Int64} {dsema : DispatchSemaphore}
    (hCreate : dispatch_semaphore_create value = some dsema) (hThreads : Fintype.card ι < 2 ^ 63)
    {es : List (Event ι)} {p : State ι × List (SemaphoreOp ι)}
    (hRun : ((semaphore ι dsema).withHistory [] note).run es = some p) :
    ((semaphore ι dsema).restrict Event.goesOn).Inevitably (fun s => s.crashed = none → AtRest s) p.1 ∧
    (p.1.crashed = none → AtRest p.1 → (∃ i, (p.1.point i).asleep = true) →
      p.2.countP SemaphoreOp.isTake = value.toInt.toNat + p.2.countP SemaphoreOp.isSignal) := by
  have h := linear_of_run hCreate hThreads es p hRun
  refine ⟨comes_to_rest hThreads fun hAlive => (h.alive hAlive).1, fun hAlive hRest hAsleep => ?_⟩
  have hBalance := countingSemaphore_balance p.2 _ (h.alive hAlive).2
  have hNone := hRest.needy hAsleep
  omega

theorem no_lost_wakeup_one_asleep : ∃ p : State (Fin 2) × List (SemaphoreOp (Fin 2)),
    ((semaphore (Fin 2) ⟨1, 1, none⟩).withHistory [] note).run
      [.call 0 (.wait DISPATCH_TIME_FOREVER), .go 0, .call 1 (.wait DISPATCH_TIME_FOREVER), .go 1, .go 1, .go 1] = some p ∧
    p.1.point 1 = .sema4Wait DISPATCH_TIME_FOREVER ∧ AtRest p.1 ∧
    p.2.countP SemaphoreOp.isTake = 1 + p.2.countP SemaphoreOp.isSignal := by
  obtain ⟨p, hRun⟩ := Option.isSome_iff_exists.mp
    (show (((semaphore (Fin 2) ⟨1, 1, none⟩).withHistory [] note).run
      [.call 0 (.wait DISPATCH_TIME_FOREVER), .go 0, .call 1 (.wait DISPATCH_TIME_FOREVER), .go 1, .go 1,
        .go 1]).isSome = true by decide +kernel)
  have hZero := Machine.read_of_run hRun (f := fun p => p.1.point 0) (x := .returned 0) (by decide +kernel)
  have hOne := Machine.read_of_run hRun (f := fun p => p.1.point 1) (x := .sema4Wait DISPATCH_TIME_FOREVER)
    (by decide +kernel)
  have hAvailable := Machine.read_of_run hRun (f := fun p => p.1.available) (x := 0) (by decide +kernel)
  have hAlive := Machine.read_of_run hRun (f := fun p => p.1.crashed) (x := none) (by decide +kernel)
  have hRest : AtRest p.1 := by
    refine ⟨fun i => ?_, fun _ => hAvailable⟩
    match i with
    | 0 => exact .inl (hZero ▸ rfl)
    | 1 => exact .inr (hOne ▸ rfl)
  exact ⟨p, hRun, hOne, hRest, (no_lost_wakeup (show dispatch_semaphore_create 1 = some ⟨1, 1, none⟩ from rfl) (by decide)
    hRun).2 hAlive hRest ⟨1, hOne ▸ rfl⟩⟩

end OCNote.Dispatch.Semaphore
