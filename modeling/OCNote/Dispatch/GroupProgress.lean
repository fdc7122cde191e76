import OCNote.Dispatch.GroupWakeup

/-! # The calls of a group come to rest

The state of the group can change only as often as the calls that are under way change it, and between
two changes every thread only comes closer to its return or to its sleep. -/

namespace OCNote.Dispatch.Group
open OCNote.Support
open Semaphore (DISPATCH_TIME_FOREVER)
set_option autoImplicit false

universe u

/-- The thread goes on, or its time is over. No compare and exchange fails without a reason, and
nobody wakes up without one. -/
def Event.calm {ι : Type u} : Event ι → Bool
  | go _ | timesOut _ => true
  | _ => false

namespace Point

/-- How often a thread can still change the state of the group or wake the others. -/
def stage : Point → Nat
  | leave => 3
  | leaveCmpxchg _ => 2
  | enter | getHead _ _ | clearHead _ _ _ | takeTail _ _ _ | async _ _ _ _ | wakeByAddress _ => 1
  | pushTail _ | retainNotified _ | pushPrev none _ | notifyLoad | notifyCmpxchg _ => 1
  | waitLoad _ | waitCmpxchg _ _ => 1
  | _ => 0

/-- How many steps a thread takes at most while the state of the group stays as it is. -/
def rank (word : BitVec 64) : Point → Nat
  | outside | returned _ => 0
  | enter | leave | retainEntered | release _ => 1
  | wakeByAddress _ => 2
  | async _ _ _ _ => 3
  | takeTail _ _ _ => 4
  | clearHead _ _ _ => 5
  | getHead _ _ => 6
  | leaveCmpxchg old_state => if word = old_state then 7 else 8
  | notifyCmpxchg old_state => if word = old_state then 7 else 8
  | notifyLoad => 8
  | pushPrev _ _ => 9
  | retainNotified _ => 10
  | pushTail _ => 11
  | recheck _ gen timedOut => if timedOut then 1 else if (fields word).gen = gen then 4 else 1
  | asleep _ _ => 2
  | waitOnAddress _ _ => 3
  | waitCmpxchg _ old_state => if word = old_state then 5 else 6
  | waitLoad _ => 6

variable (word : BitVec 64)

theorem rank_le (word : BitVec 64) (p : Point) : p.rank word ≤ 11 := by
  cases p with
  | recheck _ gen timedOut =>
    simp only [rank]
    split
    · decide
    · split <;> decide
  | _ =>
    simp only [rank]
    first | decide | split <;> decide

theorem stage_woken (p : Point) : p.woken.stage = p.stage := by cases p <;> rfl

theorem near_release_refs (refs : Nat) : (release_refs refs).rank word ≤ 1 ∧ (release_refs refs).stage = 0 := by
  unfold release_refs
  split
  · exact ⟨Nat.le_refl 1, rfl⟩
  · exact ⟨Nat.zero_le 1, rfl⟩

theorem near_wake_waiters (dg_state : BitVec 64) (refs : Nat) :
    (wake_waiters dg_state refs).rank word ≤ 2 ∧ (wake_waiters dg_state refs).stage ≤ 1 := by
  unfold wake_waiters
  split
  · exact ⟨Nat.le_refl 2, Nat.le_refl 1⟩
  · obtain ⟨hRank, hStage⟩ := near_release_refs word refs
    omega

theorem near_group_wake (dg_state : BitVec 64) (needs_release : Bool) :
    (group_wake dg_state needs_release).rank word ≤ 6 ∧ (group_wake dg_state needs_release).stage ≤ 1 := by
  unfold group_wake
  split
  · exact ⟨Nat.le_refl 6, Nat.le_refl 1⟩
  · obtain ⟨hRank, hStage⟩ := near_wake_waiters word dg_state (if needs_release then 1 else 0)
    omega

/-- A loop that has just loaded the state is ready to exchange it. -/
theorem near_leave_loop (word : BitVec 64) : (leave_loop word).rank word ≤ 7 ∧ (leave_loop word).stage ≤ 2 := by
  unfold leave_loop
  split
  · obtain ⟨hRank, hStage⟩ := near_group_wake word word true
    omega
  · rw [rank, if_pos rfl]
    exact ⟨Nat.le_refl 7, Nat.le_refl 2⟩

theorem near_notify_loop (word : BitVec 64) : (notify_loop word).rank word ≤ 7 ∧ (notify_loop word).stage ≤ 1 := by
  unfold notify_loop
  split
  · obtain ⟨hRank, hStage⟩ := near_group_wake word (word ||| DISPATCH_GROUP_HAS_NOTIFS) false
    omega
  · rw [rank, if_pos rfl]
    exact ⟨Nat.le_refl 7, Nat.le_refl 1⟩

theorem near_wait_loop (timeout : UInt64) (word : BitVec 64) :
    (wait_loop timeout word).rank word ≤ 5 ∧ (wait_loop timeout word).stage ≤ 1 := by
  unfold wait_loop
  split
  · exact ⟨Nat.zero_le 5, Nat.zero_le 1⟩
  · split
    · exact ⟨Nat.zero_le 5, Nat.zero_le 1⟩
    · split
      · exact ⟨(by decide : 3 ≤ 5), Nat.zero_le 1⟩
      · rw [rank, if_pos rfl]
        exact ⟨Nat.le_refl 5, Nat.le_refl 1⟩

end Point

variable {ι : Type u} [DecidableEq ι] {s s' : State ι} {i : ι}

/-- A step by which the state of the group stays as it is and the thread comes closer to its end. -/
structure Nears (s : State ι) (i : ι) (s' : State ι) : Prop where
  word : s'.dg_state = s.dg_state
  allocated : s'.allocated = s.allocated
  submitted : s'.submitted = s.submitted
  point : ∃ p, s'.point = Function.update s.point i p ∧ p.rank s.dg_state < (s.point i).rank s.dg_state ∧
    p.stage ≤ (s.point i).stage

section Variant

variable [Fintype ι]

/-- The changes and the submissions that are left. -/
def stage (s : State ι) : Nat := tally Point.stage s.point + (s.allocated - s.submitted.length)

def variant (s : State ι) : Nat := stage s * (11 * Fintype.card ι + 1) + tally (Point.rank s.dg_state) s.point

omit [DecidableEq ι] in
theorem tally_rank_le (word : BitVec 64) (point : ι → Point) : tally (Point.rank word) point ≤ 11 * Fintype.card ι := by
  calc tally (Point.rank word) point ≤ ∑ _i : ι, 11 := Finset.sum_le_sum fun i _ => (point i).rank_le word
    _ = 11 * Fintype.card ι := by simp [mul_comm]

omit [DecidableEq ι] in
theorem variant_of_stage (h : stage s' < stage s) : variant s' < variant s := by
  have hRank := tally_rank_le s'.dg_state s'.point
  have hMul := Nat.mul_le_mul_right (11 * Fintype.card ι + 1) (Nat.succ_le_of_lt h)
  rw [Nat.succ_mul] at hMul
  unfold variant
  omega

theorem Nears.variant_lt (h : Nears s i s') : variant s' < variant s := by
  obtain ⟨p, hPoint, hRank, hStage⟩ := h.point
  have hRanks := tally_update (Point.rank s.dg_state) s.point i p
  have hStages := tally_update Point.stage s.point i p
  by_cases hLess : stage s' < stage s
  · exact variant_of_stage hLess
  · have hSame : stage s' = stage s := by
      unfold stage at hLess ⊢
      rw [h.allocated, h.submitted, hPoint] at hLess ⊢
      omega
    unfold variant
    rw [hSame, h.word, hPoint]
    omega

theorem stage_of_update {p : Point} (hPoint : s'.point = Function.update s.point i p) (hAllocated : s'.allocated = s.allocated)
    (hSubmitted : s'.submitted = s.submitted) (hStage : p.stage < (s.point i).stage) : stage s' < stage s := by
  have hStages := tally_update Point.stage s.point i p
  unfold stage
  rw [hPoint, hAllocated, hSubmitted]
  omega

theorem stage_of_submission {p : Point} {dc : Nat} (hPoint : s'.point = Function.update s.point i p)
    (hAllocated : s'.allocated = s.allocated) (hSubmitted : s'.submitted = s.submitted ++ [dc])
    (hLength : s'.submitted.length ≤ s'.allocated) (hStage : p.stage ≤ (s.point i).stage) : stage s' < stage s := by
  have hStages := tally_update Point.stage s.point i p
  have hMore : s'.submitted.length = s.submitted.length + 1 := by
    rw [hSubmitted, List.length_append]
    rfl
  unfold stage
  rw [hPoint, hMore]
  omega

end Variant

section Calm

theorem nears_goto {p : Point} (hRank : p.rank s.dg_state < (s.point i).rank s.dg_state) (hStage : p.stage ≤ (s.point i).stage) :
    Nears s i (s.goto i p) := ⟨rfl, rfl, rfl, p, rfl, hRank, hStage⟩

variable [Fintype ι]

theorem stage_wake_by_address {refs : Nat} (hPoint : s.point i = .wakeByAddress refs) : stage (wake_by_address s i refs) < stage s := by
  have hStages := tally_update Point.stage (fun j => (s.point j).woken) i (release_refs refs)
  have hWoken : tally Point.stage (fun j => (s.point j).woken) = tally Point.stage s.point :=
    tally_congr fun j => Point.stage_woken (s.point j)
  have hRelease := (Point.near_release_refs s.dg_state refs).2
  have hOne : (s.point i).woken.stage = 1 := by
    rw [hPoint]
    rfl
  change tally Point.stage (Function.update (fun j => (s.point j).woken) i (release_refs refs)) + _ < stage s
  unfold stage
  rw [hWoken, hRelease, hOne] at hStages
  change _ + (s.allocated - s.submitted.length) < _
  omega

/-- Every step brings the group closer to rest, unless the process crashes in it. -/
theorem advances_of_go (hGo : go s i = some s') (hAlive : s'.crashed = none) (hLength : s'.submitted.length ≤ s'.allocated) :
    Nears s i s' ∨ stage s' < stage s := by
  have hNear : ∀ {q p : Point} {t : State ι}, s.point i = q → t.dg_state = s.dg_state → t.allocated = s.allocated →
      t.submitted = s.submitted → t.point = s.point → p.rank s.dg_state < q.rank s.dg_state → p.stage ≤ q.stage →
      Nears s i (t.goto i p) := by
    intro q p t hPoint hWord hAllocated hSubmitted hPoints hRank hStage
    refine ⟨hWord, hAllocated, hSubmitted, p, ?_, ?_, ?_⟩
    · rw [← hPoints]
      rfl
    · rwa [hPoint]
    · rwa [hPoint]
  unfold go at hGo
  cases hPoint : s.point i <;> rw [hPoint] at hGo <;> dsimp only at hGo
  case outside | returned | asleep => cases hGo
  case enter =>
    cases hGo
    unfold dispatch_group_enter at hAlive ⊢
    dsimp only at hAlive ⊢
    split
    · rw [if_pos ‹_›] at hAlive
      cases hAlive
    · refine .inr (stage_of_update rfl rfl rfl ?_)
      rw [hPoint]
      split <;> exact Nat.one_pos
  case leave =>
    cases hGo
    unfold dispatch_group_leave at hAlive ⊢
    dsimp only at hAlive ⊢
    split
    · refine .inr (stage_of_update rfl rfl rfl ?_)
      rw [hPoint]
      exact Nat.lt_succ_of_le (Point.near_leave_loop _).2
    · rw [if_neg ‹_›] at hAlive
      split
      · rw [if_pos ‹_›] at hAlive
        cases hAlive
      · refine .inr (stage_of_update rfl rfl rfl ?_)
        rw [hPoint]
        exact (by decide : 0 < 3)
  case leaveCmpxchg old_state =>
    cases hGo
    unfold leave_cmpxchg
    split
    · refine .inr (stage_of_update rfl rfl rfl ?_)
      rw [hPoint]
      exact Nat.lt_succ_of_le (Point.near_group_wake s.dg_state ..).2
    · obtain ⟨hRank, hStage⟩ := Point.near_leave_loop s.dg_state
      refine .inl (hNear hPoint rfl rfl rfl rfl ?_ hStage)
      rw [Point.rank, if_neg ‹_›]
      exact Nat.lt_succ_of_le hRank
  case retainEntered | release =>
    cases hGo
    exact .inl (hNear hPoint rfl rfl rfl rfl Nat.one_pos (Nat.le_refl 0))
  case getHead dg_state needs_release =>
    obtain ⟨head, _, rfl⟩ := Option.map_eq_some_iff.mp hGo
    exact .inl (hNear hPoint rfl rfl rfl rfl (Nat.lt_succ_self 5) (Nat.le_refl 1))
  case clearHead =>
    cases hGo
    exact .inl (hNear hPoint rfl rfl rfl rfl (Nat.lt_succ_self 4) (Nat.le_refl 1))
  case takeTail dg_state needs_release head =>
    obtain ⟨tail, _, rfl⟩ := Option.map_eq_some_iff.mp hGo
    exact .inl (hNear hPoint rfl rfl rfl rfl (Nat.lt_succ_self 3) (Nat.le_refl 1))
  case async dg_state needs_release dc tail =>
    have hStage := (Point.near_wake_waiters s.dg_state dg_state ((if needs_release then 1 else 0) + 1)).2
    unfold continuation_async at hGo
    dsimp only at hGo
    split at hGo
    · cases hGo
      exact .inr (stage_of_submission rfl rfl rfl hLength (by rw [hPoint]; exact hStage))
    · obtain ⟨next_dc, _, rfl⟩ := Option.map_eq_some_iff.mp hGo
      exact .inr (stage_of_submission rfl rfl rfl hLength (by rw [hPoint]; exact Nat.le_refl 1))
  case wakeByAddress refs =>
    cases hGo
    exact .inr (stage_wake_by_address hPoint)
  case pushTail dsn =>
    cases hGo
    refine .inl (hNear hPoint rfl rfl rfl rfl ?_ ?_)
    · split
      · exact Nat.lt_succ_self 10
      · exact (by decide : 9 < 11)
    · split
      · exact Nat.le_refl 1
      · cases s.dg_notify_tail with
        | none => exact Nat.le_refl 1
        | some tail => exact Nat.zero_le 1
  case retainNotified dsn =>
    cases hGo
    exact .inl (hNear hPoint rfl rfl rfl rfl (Nat.lt_succ_self 9) (Nat.le_refl 1))
  case pushPrev prev dsn =>
    cases hGo
    cases prev with
    | none => exact .inl (hNear hPoint rfl rfl rfl rfl (Nat.lt_succ_self 8) (Nat.le_refl 1))
    | some prev => exact .inl (hNear hPoint rfl rfl rfl rfl (by decide : 0 < 9) (Nat.le_refl 0))
  case notifyLoad =>
    cases hGo
    obtain ⟨hRank, hStage⟩ := Point.near_notify_loop s.dg_state
    exact .inl (hNear hPoint rfl rfl rfl rfl (Nat.lt_succ_of_le hRank) hStage)
  case notifyCmpxchg old_state =>
    cases hGo
    unfold notify_cmpxchg
    split
    · exact .inr (stage_of_update rfl rfl rfl (by rw [hPoint]; exact Nat.one_pos))
    · obtain ⟨hRank, hStage⟩ := Point.near_notify_loop s.dg_state
      refine .inl (hNear hPoint rfl rfl rfl rfl ?_ hStage)
      rw [Point.rank, if_neg ‹_›]
      exact Nat.lt_succ_of_le hRank
  case waitLoad timeout =>
    cases hGo
    obtain ⟨hRank, hStage⟩ := Point.near_wait_loop timeout s.dg_state
    exact .inl (hNear hPoint rfl rfl rfl rfl (Nat.lt_succ_of_le hRank) hStage)
  case waitCmpxchg timeout old_state =>
    cases hGo
    unfold wait_cmpxchg
    split
    · exact .inr (stage_of_update rfl rfl rfl (by rw [hPoint]; exact Nat.one_pos))
    · obtain ⟨hRank, hStage⟩ := Point.near_wait_loop timeout s.dg_state
      refine .inl (hNear hPoint rfl rfl rfl rfl ?_ hStage)
      rw [Point.rank, if_neg ‹_›]
      exact Nat.lt_succ_of_le hRank
  case waitOnAddress timeout gen =>
    cases hGo
    refine .inl (hNear hPoint rfl rfl rfl rfl ?_ ?_)
    · rw [gen_eq]
      split
      · exact Nat.lt_succ_self 2
      · rw [Point.rank, if_neg Bool.false_ne_true, if_neg ‹_›]
        exact (by decide : 1 < 3)
    · split <;> exact Nat.le_refl 0
  case recheck timeout gen timedOut =>
    cases hGo
    refine .inl (hNear hPoint rfl rfl rfl rfl ?_ ?_)
    · rw [gen_eq]
      cases timedOut with
      | true =>
        split
        · exact Nat.one_pos
        · exact Nat.one_pos
      | false =>
        rw [Point.rank, if_neg Bool.false_ne_true]
        split
        · rename_i hOther
          rw [if_neg hOther.symm]
          exact Nat.one_pos
        · rename_i hSame
          rw [if_pos (not_not.mp hSame).symm]
          exact Nat.lt_succ_self 3
    · split
      · exact Nat.le_refl 0
      · split <;> exact Nat.le_refl 0

omit [Fintype ι] in
theorem nears_of_timesOut (hStep : step s (.timesOut i) = some s') : Nears s i s' := by
  obtain ⟨_, hStep⟩ := Option.ite_none_left_eq_some.mp hStep
  dsimp only at hStep
  split at hStep
  · rename_i hPoint
    obtain ⟨_, hStep⟩ := Option.ite_none_left_eq_some.mp hStep
    cases hStep
    exact nears_goto (hPoint ▸ (by decide : 1 < 3)) (hPoint ▸ Nat.le_refl 0)
  · rename_i hPoint
    obtain ⟨_, hStep⟩ := Option.ite_none_left_eq_some.mp hStep
    cases hStep
    exact nears_goto (hPoint ▸ (by decide : 1 < 2)) (hPoint ▸ Nat.le_refl 0)
  · cases hStep

omit [DecidableEq ι] in
theorem Listed.submitted_length {h : History ι} (hListed : Listed s h) : s.submitted.length ≤ s.allocated := by
  have hRange : s.submitted ⊆ List.range s.allocated := by
    intro d hd
    rw [List.mem_range, hListed.somewhere]
    exact .inl hd
  have hLength := (List.subperm_of_subset hListed.submitted_nodup hRange).length_le
  rwa [List.length_range] at hLength

theorem variant_of_calm {e : Event ι} (hCalm : e.calm = true) (hStep : step s e = some s') (hAlive : s'.crashed = none)
    (hLength : s'.submitted.length ≤ s'.allocated) : variant s' < variant s := by
  cases e with
  | call | failsSpuriously | wakesSpuriously => cases hCalm
  | go i =>
    obtain ⟨_, hGo⟩ := Option.ite_none_left_eq_some.mp hStep
    exact (advances_of_go hGo hAlive hLength).elim Nears.variant_lt variant_of_stage
  | timesOut i => exact (nears_of_timesOut hStep).variant_lt

end Calm

section Rest

variable [Fintype ι] {h : History ι} {m : Missed ι} {n : Nat}

omit [DecidableEq ι] [Fintype ι] in
theorem not_crashed (hAlive : s.crashed = none) : ¬ s.crashed.isSome = true := by
  rw [hAlive]
  exact Bool.false_ne_true

omit [Fintype ι] in
theorem step_go (hAlive : s.crashed = none) (i : ι) : step s (.go i) = go s i := if_neg (not_crashed hAlive)

theorem go_of_busy (hListed : Listed s h) (hGuarded : Guarded s h) (hBusy : (s.point i).idle = false)
    (hAwake : ∀ timeout gen, s.point i ≠ .asleep timeout gen) : ∃ j s', go s j = some s' := by
  cases hPoint : s.point i with
  | outside | returned =>
    rw [hPoint] at hBusy
    cases hBusy
  | asleep timeout gen => exact absurd hPoint (hAwake timeout gen)
  | getHead dg_state needs_release =>
    have hRole : (s.point i).role = 1 := hPoint ▸ rfl
    have hHead := hGuarded.heads i
    rw [hPoint] at hHead
    obtain ⟨first, hFirst⟩ := Option.isSome_iff_exists.mp (List.isSome_head?.mpr (hGuarded.sole hRole).1)
    refine ⟨i, s.goto i (.clearHead dg_state needs_release first), ?_⟩
    rw [go, hPoint]
    exact Option.map_eq_some_iff.mpr ⟨first, hHead.trans hFirst, rfl⟩
  | takeTail dg_state needs_release head =>
    have hRole : (s.point i).role = 1 := hPoint ▸ rfl
    obtain ⟨last, hLast⟩ := Option.isSome_iff_exists.mp (List.getLast?_isSome.mpr (hGuarded.sole hRole).1)
    refine ⟨i, { s with dg_notify_tail := none }.goto i (.async dg_state needs_release head last), ?_⟩
    rw [go, hPoint]
    exact Option.map_eq_some_iff.mpr ⟨last, hListed.tail.trans hLast, rfl⟩
  | async dg_state needs_release dc tail =>
    obtain ⟨rest, _, _, hRest⟩ := hListed.snapshot_cons hPoint
    by_cases hLast : dc = tail
    · refine ⟨i, { s with submitted := s.submitted ++ [dc] }.goto i
        (wake_waiters dg_state ((if needs_release then 1 else 0) + 1)), ?_⟩
      rw [go, hPoint]
      exact if_pos hLast
    · rw [if_neg hLast] at hRest
      obtain ⟨next, _, _, hSucc, _⟩ := hRest
      -- Either the link to the next one is there, or the thread that sets it can go on.
      obtain hNext | ⟨_, j, hj⟩ := hListed.linked dc next hSucc
      · refine ⟨i, { s with submitted := s.submitted ++ [dc] }.goto i (.async dg_state needs_release next tail), ?_⟩
        rw [go, hPoint]
        dsimp only
        rw [continuation_async, if_neg hLast, hNext]
        rfl
      · refine ⟨j, mpsc_push_update_prev s j (some dc) next, ?_⟩
        rw [go, hj]
  | _ =>
    refine ⟨i, ?_⟩
    rw [go, hPoint]
    exact ⟨_, rfl⟩

/-- Whoever is in a call sleeps without a time limit, and only while the group is entered. When it
is empty every call has returned and everything has been submitted. -/
structure AtRest (s : State ι) : Prop where
  calls : ∀ i, (s.point i).idle = true ∨ ∃ gen, s.point i = .asleep DISPATCH_TIME_FOREVER gen
  empty : s.count = 0 →
    (∀ i, (s.point i).idle = true) ∧ (∀ d < s.allocated, d ∈ s.submitted) ∧ group_dispose s = none

omit [DecidableEq ι] in
/-- Nobody sleeps in an empty group once the others have returned. -/
theorem atRest_of_calls (hSafe : Safe n s h) (hWatched : Watched s m)
    (hCalls : ∀ i, (s.point i).idle = true ∨ ∃ gen, s.point i = .asleep DISPATCH_TIME_FOREVER gen) : AtRest s := by
  refine ⟨hCalls, fun hEmpty => ?_⟩
  have hIdle : ∀ i, (s.point i).idle = true := by
    intro i
    obtain hIdle | ⟨gen, hAsleep⟩ := hCalls i
    · exact hIdle
    · have hFor : (s.point i).waitsFor = some gen := by
        rw [hAsleep]
        rfl
      by_cases hMissed : m.emptyings i = 0
      · exact absurd hEmpty (hWatched.recent i gen hFor hMissed).2
      · obtain ⟨k, hk⟩ | ⟨_, k, old_state, hk⟩ := hWatched.sleepers i DISPATCH_TIME_FOREVER gen hAsleep hMissed
        · obtain hRest | ⟨gen', hRest⟩ := hCalls k
          · cases hAt : s.point k <;> rw [hAt] at hk hRest <;> first | exact absurd hk Bool.false_ne_true | cases hRest
          · rw [hRest] at hk
            cases hk
        · obtain hRest | ⟨gen', hRest⟩ := hCalls k
          · rw [hk] at hRest
            cases hRest
          · rw [hk] at hRest
            cases hRest
  obtain ⟨hSubmitted, _, hDispose⟩ := hSafe.of_idle hIdle hEmpty
  exact ⟨hIdle, hSubmitted, hDispose⟩

theorem calm_of_not_rest (hAlive : s.crashed = none) (hSafe : Safe n s h) (hWatched : Watched s m) (hRest : ¬ AtRest s) :
    ∃ (e : Event ι) (s' : State ι), e.calm = true ∧ step s e = some s' := by
  have hSome : ∃ i, ¬ ((s.point i).idle = true ∨ ∃ gen, s.point i = .asleep DISPATCH_TIME_FOREVER gen) := by
    by_contra hNone
    push Not at hNone
    exact hRest (atRest_of_calls hSafe hWatched hNone)
  obtain ⟨i, hi⟩ := hSome
  rw [not_or, Bool.not_eq_true] at hi
  by_cases hAsleep : ∃ timeout gen, s.point i = .asleep timeout gen
  · obtain ⟨timeout, gen, hAsleep⟩ := hAsleep
    have hLimit : timeout ≠ DISPATCH_TIME_FOREVER := by
      rintro rfl
      exact hi.2 ⟨gen, hAsleep⟩
    refine ⟨.timesOut i, s.goto i (.recheck timeout gen true), rfl, ?_⟩
    rw [step, if_neg (not_crashed hAlive), hAsleep]
    exact if_neg hLimit
  · push Not at hAsleep
    obtain ⟨j, s', hGo⟩ := go_of_busy hSafe.listed hSafe.guarded hi.1 hAsleep
    exact ⟨.go j, s', rfl, (step_go hAlive j).trans hGo⟩

end Rest

section Main

variable [Fintype ι]

def noteCalls (p : History ι × Missed ι) (s : State ι) (e : Event ι) (s' : State ι) : History ι × Missed ι :=
  (note p.1 s e s', noteMissed p.2 s e s')

def groupWatched (ι : Type u) [DecidableEq ι] [Fintype ι] (n : BitVec 32) : Machine (State ι × History ι × Missed ι) (Event ι) :=
  (group ι n).withHistory (History.start ι, ⟨fun _ => 0, false⟩) noteCalls

/-- What holds of a group that has not crashed and that nobody has waited for too long. -/
structure Sane (n : Nat) (q : State ι × History ι × Missed ι) : Prop where
  safe : Safe n q.1 q.2.1
  watched : q.2.2.outwaited = false → Watched q.1 q.2.2

theorem sane_of_step {n : BitVec 32} {q q' : State ι × History ι × Missed ι} {e : Event ι} (hSane : Sane n.toNat q)
    (hStep : (groupWatched ι n).step q e = some q') (hAlive : q'.1.crashed = none) : Sane n.toNat q' := by
  obtain ⟨hStep, hNote⟩ := Machine.withHistory_step.mp hStep
  obtain ⟨_, hMoves⟩ := moves_of_step hStep
  rw [noteCalls] at hNote
  have hHistory : q'.2.1 = q.2.1.after q.1 e.thread := congrArg Prod.fst hNote
  have hMissed : q'.2.2 = q.2.2.after q.1 q'.1 := congrArg Prod.snd hNote
  refine ⟨hHistory ▸ safe_of_moves hSane.safe hMoves hAlive, fun hShort => ?_⟩
  rw [hMissed] at hShort ⊢
  exact watched_of_moves (hSane.watched (Bool.or_eq_false_iff.mp hShort).1) hSane.safe.sound hMoves hAlive hShort

theorem sane_of_reachable {n : BitVec 32} (hN : n.toNat < 2 ^ 30) {q : State ι × History ι × Missed ι}
    (hReach : (groupWatched ι n).Reachable q) : q.1.crashed = none → Sane n.toNat q := by
  refine Machine.invariant (P := fun (q : State ι × History ι × Missed ι) => q.1.crashed = none → Sane n.toNat q) ?_ ?_ hReach
  · refine fun _ => ⟨safe_create hN, fun _ => ⟨fun _ => (by decide : 0 < 2 ^ 32), fun _ _ hFor => ?_, fun _ _ hFor => ?_, fun _ _ _ hAsleep => ?_⟩⟩
    · cases hFor
    · cases hFor
    · cases hAsleep
  · intro q e q' hSane hStep hAlive
    have hBefore : q.1.crashed = none := (moves_of_step (Machine.withHistory_step.mp hStep).1).1
    exact sane_of_step (hSane hBefore) hStep hAlive

/-- From any state that can be reached, the calls under way come to rest: each returns, but for those that
wait without a time limit while the group is entered. In particular a thread that waits is woken and a
notification is submitted once the group is empty. -/
theorem calls_come_to_rest {n : BitVec 32} (hN : n.toNat < 2 ^ 30) {q : State ι × History ι × Missed ι}
    (hReach : (groupWatched ι n).Reachable q) :
    ((groupWatched ι n).restrict Event.calm).Inevitably
      (fun q => q.1.crashed ≠ none ∨ q.2.2.outwaited = true ∨ AtRest q.1) q := by
  by_cases hCrashed : q.1.crashed = none
  · refine Machine.inevitably_of_variant (fun q => q.1.crashed = none ∧ Sane n.toNat q) (fun q => variant q.1) ?_ ?_
      ⟨hCrashed, sane_of_reachable hN hReach hCrashed⟩
    · intro q ⟨hAlive, hSane⟩ hNot
      rw [not_or, not_or, Bool.not_eq_true] at hNot
      obtain ⟨_, hShort, hRest⟩ := hNot
      obtain ⟨e, s', hCalm, hStep⟩ := calm_of_not_rest hAlive hSane.safe (hSane.watched hShort) hRest
      exact ⟨e, (s', noteCalls q.2 q.1 e s'), Machine.restrict_step.mpr ⟨hCalm, Machine.withHistory_step.mpr ⟨hStep, rfl⟩⟩⟩
    · intro q e q' ⟨_, hSane⟩ _ hStep
      obtain ⟨hCalm, hStep⟩ := Machine.restrict_step.mp hStep
      by_cases hAlive : q'.1.crashed = none
      · have hSane' := sane_of_step hSane hStep hAlive
        refine .inr ⟨⟨hAlive, hSane'⟩, ?_⟩
        exact variant_of_calm hCalm (Machine.withHistory_step.mp hStep).1 hAlive hSane'.safe.listed.submitted_length
      · exact .inl (.inl hAlive)
  · exact .now (.inl hCrashed)

/-- One thread enters, the other is in a wait without a time limit and the first one leaves. -/
theorem calls_come_to_rest_of_leaver : ∃ q, (groupWatched Bool 0#32).run
      [.call false .enter, .go false, .go false, .call true (.wait DISPATCH_TIME_FOREVER), .go true, .go true, .go true,
        .call false .leave] = some q ∧ q.1.point true = .asleep DISPATCH_TIME_FOREVER 0#32 ∧
      ((groupWatched Bool 0#32).restrict Event.calm).Inevitably
        (fun q => q.1.crashed ≠ none ∨ q.2.2.outwaited = true ∨ AtRest q.1) q := by
  obtain ⟨q, hRun⟩ := Option.isSome_iff_exists.mp
    (show ((groupWatched Bool 0#32).run [.call false .enter, .go false, .go false,
      .call true (.wait DISPATCH_TIME_FOREVER), .go true, .go true, .go true, .call false .leave]).isSome = true by
      decide +kernel)
  have hAsleep := Machine.read_of_run hRun (f := fun q => q.1.point true) (x := .asleep DISPATCH_TIME_FOREVER 0#32)
    (by decide +kernel)
  exact ⟨q, hRun, hAsleep, calls_come_to_rest (by decide) ⟨_, hRun⟩⟩

end Main

end OCNote.Dispatch.Group
