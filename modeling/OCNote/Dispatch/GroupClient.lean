import OCNote.Dispatch.GroupProgress

/-! # What a program that does not wait for its group relies on

Nobody sleeps, a thread in a call goes on with it and leaves the others where they are. As long as
nobody hands over a notification, whoever leaves the group only gives its reference back. -/

namespace OCNote.Dispatch.Group
open OCNote.Support
set_option autoImplicit false

universe u

namespace Point

/-- The thread neither begins a call nor waits. -/
def inside : Point → Bool
  | enter | leave | pushTail _ | waitLoad _ | waitCmpxchg _ _ | waitOnAddress _ _ | asleep _ _ | recheck _ _ _ => false
  | _ => true

/-- Where threads are while there is no notification. -/
def early : Point → Bool
  | outside | returned _ | enter | retainEntered | leave | release _ => true
  | _ => false

/-- The thread is about to leave the group. -/
def leaves : Point → Nat
  | leave => 1
  | _ => 0

theorem inside_release_refs (refs : Nat) : (release_refs refs).inside = true := by
  unfold release_refs
  split <;> rfl

theorem inside_wake_waiters (dg_state : BitVec 64) (refs : Nat) : (wake_waiters dg_state refs).inside = true := by
  unfold wake_waiters
  split
  · rfl
  · exact inside_release_refs refs

theorem inside_group_wake (dg_state : BitVec 64) (needs_release : Bool) : (group_wake dg_state needs_release).inside = true := by
  unfold group_wake
  split
  · rfl
  · exact inside_wake_waiters ..

theorem inside_leave_loop (w : BitVec 64) : (leave_loop w).inside = true := by
  unfold leave_loop
  split
  · exact inside_group_wake ..
  · rfl

theorem inside_notify_loop (w : BitVec 64) : (notify_loop w).inside = true := by
  unfold notify_loop
  split
  · exact inside_group_wake ..
  · rfl

theorem woken_of_not_waits {p : Point} (h : p.waits = false) : p.woken = p := by
  cases p <;> first | rfl | cases h

theorem waits_of_inside {p : Point} (h : p.inside = true) : p.waits = false := by
  cases p <;> first | rfl | cases h

theorem leaves_of_inside {p : Point} (h : p.inside = true) : p.leaves = 0 := by
  cases p <;> first | rfl | cases h

theorem leaves_of_idle {p : Point} (h : p.idle = true) : p.leaves = 0 := by
  cases p <;> first | rfl | cases h

theorem firing_of_early {p : Point} (h : p.early = true) : p.firing = false := by
  cases p <;> first | rfl | cases h

end Point

/-- Without a flag the last one to leave only gives its reference back. -/
theorem leave_loop_of_no_flags {w : BitVec 64} (hEmpty : (fields w).count = 0) (hNotifs : (fields w).notifs = false)
    (hWaiters : (fields w).waiters = false) : leave_loop w = .release 1 := by
  have hFields : fields (leave_new_state w) = fields w := by
    rw [leave_new_state, if_pos ((empty_iff w).mpr hEmpty), fields_clear_notifs, fields_clear_waiters]
    generalize fields w = f at hNotifs hWaiters ⊢
    obtain ⟨gen, value, notifs, waiters⟩ := f
    dsimp only at hNotifs hWaiters ⊢
    rw [hNotifs, hWaiters]
  have hSame : w = leave_new_state w := by
    rw [← word_fields (leave_new_state w), hFields, word_fields]
  have hWake : ¬ w &&& DISPATCH_GROUP_HAS_WAITERS ≠ 0#64 := by
    rw [has_waiters_iff, hWaiters]
    exact Bool.false_ne_true
  have hSubmit : ¬ w &&& DISPATCH_GROUP_HAS_NOTIFS ≠ 0#64 := by
    rw [has_notifs_iff, hNotifs]
    exact Bool.false_ne_true
  rw [leave_loop, if_pos hSame, group_wake, if_neg hSubmit, wake_waiters, if_neg hWake]
  rfl

variable {ι : Type u} [DecidableEq ι] {s s' : State ι} {i : ι}

omit [DecidableEq ι] in
theorem History.after_of_idle {h : History ι} [DecidableEq ι] (hIdle : (s.point i).idle = true) : h.after s i = h := by
  unfold History.after
  cases hPoint : s.point i <;> rw [hPoint] at hIdle <;> first | rfl | cases hIdle

/-- A thread in a call goes on with it. -/
theorem inside_of_moves (hMoves : Moves s i s') (hAlive : s'.crashed = none) (hBusy : (s.point i).idle = false)
    (hWaits : (s.point i).waits = false) : (s'.point i).inside = true := by
  have hGoto : ∀ {t : State ι} {p : Point}, p.inside = true → ((t.goto i p).point i).inside = true := by
    intro t p hp
    rwa [goto_point]
  cases hMoves with
  | overflows | unbalanced => cases hAlive
  | begins call hPoint =>
    rw [hBusy] at hPoint
    cases hPoint
  | enters =>
    apply hGoto
    split <;> rfl
  | leavesLast word => exact hGoto (Point.inside_leave_loop word)
  | clears => exact hGoto (Point.inside_group_wake ..)
  | reloads => exact hGoto (Point.inside_leave_loop _)
  | submitsLast => exact hGoto (Point.inside_wake_waiters ..)
  | wakes refs => exact hGoto (Point.inside_release_refs refs)
  | pushes dsn =>
    apply hGoto
    split <;> rfl
  | looks => exact hGoto (Point.inside_notify_loop _)
  | waits p hMove =>
    rw [hMove.points.1] at hWaits
    cases hWaits
  | setsWaiters timeout hPoint =>
    rw [hPoint] at hWaits
    cases hWaits
  | _ => exact hGoto rfl

theorem point_of_moves (hMoves : Moves s i s') (hWaits : ∀ j, (s.point j).waits = false) {j : ι} (hji : j ≠ i) :
    s'.point j = s.point j := by
  obtain hSame | hSame := others_of_moves hMoves hji
  · exact hSame
  · rw [hSame, Point.woken_of_not_waits (hWaits j)]

theorem point_update_of_moves (hMoves : Moves s i s') (hWaits : ∀ j, (s.point j).waits = false) :
    s'.point = Function.update s.point i (s'.point i) := by
  funext j
  obtain rfl | hji := eq_or_ne j i
  · rw [Function.update_self]
  · rw [Function.update_of_ne hji, point_of_moves hMoves hWaits hji]

theorem allocated_of_moves (hMoves : Moves s i s') (hBusy : (s.point i).idle = false) : s'.allocated = s.allocated := by
  cases hMoves with
  | begins call hPoint =>
    rw [hBusy] at hPoint
    cases hPoint
  | _ => rfl

/-- Without notifications and waiters the state has no flag, and nobody looks for one. -/
structure Quiet (s : State ι) : Prop where
  early : ∀ i, (s.point i).early = true
  notifs : (fields s.dg_state).notifs = false
  waiters : (fields s.dg_state).waiters = false

theorem Quiet.goto {p : Point} (hQuiet : Quiet s) (hNotifs : (fields s'.dg_state).notifs = (fields s.dg_state).notifs)
    (hWaiters : (fields s'.dg_state).waiters = (fields s.dg_state).waiters) (hPoint : s'.point = Function.update s.point i p)
    (hp : p.early = true) : Quiet s' := by
  refine ⟨fun j => ?_, hNotifs.trans hQuiet.notifs, hWaiters.trans hQuiet.waiters⟩
  rw [hPoint]
  obtain rfl | hji := eq_or_ne j i
  · rwa [Function.update_self]
  · rw [Function.update_of_ne hji]
    exact hQuiet.early j

theorem quiet_of_moves (hQuiet : Quiet s) (hMoves : Moves s i s') (hAlive : s'.crashed = none) (hBusy : (s.point i).idle = false) :
    Quiet s' := by
  have hEarly := hQuiet.early i
  have hNot : ∀ {q : Point} {P : Prop}, s.point i = q → q.early = false → P := by
    intro q P hPoint hq
    rw [hPoint, hq] at hEarly
    cases hEarly
  cases hMoves with
  | overflows | unbalanced => cases hAlive
  | begins call hPoint =>
    rw [hBusy] at hPoint
    cases hPoint
  | enters word _ _ hWord =>
    refine hQuiet.goto ((congrArg Fields.notifs hWord).trans rfl) ((congrArg Fields.waiters hWord).trans rfl) rfl ?_
    split <;> rfl
  | leaves word _ _ hWord =>
    exact hQuiet.goto ((congrArg Fields.notifs hWord).trans (flags_leave _).1) ((congrArg Fields.waiters hWord).trans (flags_leave _).2)
      rfl rfl
  | leavesLast word _ hLast hWord =>
    have hNotifs := (congrArg Fields.notifs hWord).trans (flags_leave _).1
    have hWaiters := (congrArg Fields.waiters hWord).trans (flags_leave _).2
    have hCount := (congrArg Fields.count hWord).trans (Fields.count_leave (hLast.trans_ne Nat.one_ne_zero))
    refine hQuiet.goto hNotifs hWaiters rfl ?_
    rw [leave_loop_of_no_flags (hCount.trans (congrArg (· - 1) hLast)) (hNotifs.trans hQuiet.notifs) (hWaiters.trans hQuiet.waiters)]
    rfl
  | retainsEntered | releases => exact hQuiet.goto rfl rfl rfl rfl
  | clears hPoint | reloads _ hPoint | getsHead _ _ _ hPoint | clearsHead _ _ _ hPoint | takesTail _ _ _ _ hPoint
  | submitsLast _ _ _ hPoint | submits _ _ _ _ _ hPoint | wakes _ hPoint | pushes _ hPoint | retainsNotified _ hPoint
  | links _ _ hPoint | setsHead _ hPoint | announces hPoint | setsWaiters _ hPoint => exact hNot hPoint rfl
  | looks hPoint => obtain hPoint | ⟨old, hPoint⟩ := hPoint <;> exact hNot hPoint rfl
  | waits p hWaits =>
    have hOld := hWaits.points.1
    cases hPoint : s.point i <;> rw [hPoint] at hOld <;> first | exact hNot hPoint rfl | cases hOld

theorem variant_begin_call [Fintype ι] (s : State ι) (i : ι) (call : Call) :
    variant (begin_call s i call) ≤ variant s + 4 * (11 * Fintype.card ι + 1) := by
  have hCard : 0 < Fintype.card ι := Fintype.card_pos_iff.mpr ⟨i⟩
  have hCalls : ∀ (t : State ι) (p : Point), t.dg_state = s.dg_state → t.point = s.point → t.submitted = s.submitted →
      p.stage + t.allocated ≤ 3 + s.allocated → s.allocated ≤ t.allocated →
      variant (t.goto i p) ≤ variant s + 4 * (11 * Fintype.card ι + 1) := by
    intro t p hWord hPoint hSubmitted hStage hAllocated
    have hStages := tally_update Point.stage s.point i p
    have hRanks := tally_update (Point.rank s.dg_state) s.point i p
    have hRank := p.rank_le s.dg_state
    have hStage' : stage (t.goto i p) ≤ stage s + 3 := by
      change tally Point.stage (Function.update t.point i p) + (t.allocated - t.submitted.length) ≤ _
      unfold stage
      rw [hPoint, hSubmitted]
      omega
    have hMul := Nat.mul_le_mul_right (11 * Fintype.card ι + 1) hStage'
    rw [Nat.add_mul] at hMul
    have hRank' : tally (Point.rank s.dg_state) (Function.update s.point i p) ≤ tally (Point.rank s.dg_state) s.point + 11 := by
      omega
    change stage (t.goto i p) * _ + tally (Point.rank t.dg_state) (Function.update t.point i p) ≤ _
    unfold variant
    rw [hWord, hPoint]
    omega
  cases call with
  | enter => exact hCalls s .enter rfl rfl rfl (Nat.add_le_add_right (by decide : 1 ≤ 3) _) (Nat.le_refl _)
  | leave => exact hCalls s .leave rfl rfl rfl (Nat.le_refl _) (Nat.le_refl _)
  | wait timeout => exact hCalls s (.waitLoad timeout) rfl rfl rfl (Nat.add_le_add_right (by decide : 1 ≤ 3) _) (Nat.le_refl _)
  | notify =>
    have hStage : Point.stage (.pushTail s.allocated) + (s.allocated + 1) ≤ 3 + s.allocated := by
      change 1 + (s.allocated + 1) ≤ _
      omega
    exact hCalls { s with allocated := s.allocated + 1 } (.pushTail s.allocated) rfl rfl rfl hStage (Nat.le_succ _)

omit [DecidableEq ι] in
theorem call_of_step [DecidableEq ι] {call : Call} (h : step s (.call i call) = some s') :
    (s.point i).idle = true ∧ s' = begin_call s i call := by
  obtain ⟨_, h⟩ := Option.ite_none_left_eq_some.mp h
  dsimp only at h
  split at h <;> rename_i hPoint
  · cases h
    exact ⟨hPoint ▸ rfl, rfl⟩
  · cases h
    exact ⟨hPoint ▸ rfl, rfl⟩
  · cases h

theorem step_call (hAlive : s.crashed = none) (hIdle : (s.point i).idle = true) (call : Call) :
    step s (.call i call) = some (begin_call s i call) := by
  rw [step, if_neg (not_crashed hAlive)]
  cases hPoint : s.point i <;> rw [hPoint] at hIdle <;> first | rfl | cases hIdle

/-- Whoever takes a step that is not the beginning of a call is in one. -/
theorem busy_of_step {e : Event ι} (h : step s e = some s') (hCall : ∀ i call, e ≠ .call i call) :
    (s.point e.thread).idle = false := by
  obtain ⟨_, h⟩ := Option.ite_none_left_eq_some.mp h
  cases e with
  | call i call => exact absurd rfl (hCall i call)
  | go i =>
    change go s i = some s' at h
    unfold go at h
    change (s.point i).idle = false
    cases hPoint : s.point i <;> rw [hPoint] at h <;> first | rfl | cases h
  | timesOut i | failsSpuriously i | wakesSpuriously i =>
    dsimp only at h
    change (s.point i).idle = false
    cases hPoint : s.point i <;> rw [hPoint] at h <;> first | rfl | cases h

end OCNote.Dispatch.Group
