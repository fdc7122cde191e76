import OCNote.Dispatch.GroupTiming

/-! # No lost wakeup of a wait

A thread that sleeps in `dispatch_group_wait` sleeps while the group is entered, or another thread is
on its way to wake it. The generation that it compares has 32 bits, so that this holds as
long as nobody waits while the group is emptied 2 ^ 32 times. -/

namespace OCNote.Dispatch.Group
open OCNote.Support
set_option autoImplicit false

universe u

namespace Point

/-- The thread will wake those who sleep. -/
def wakes : Point → Bool
  | getHead dg_state _ | clearHead dg_state _ _ | takeTail dg_state _ _ | async dg_state _ _ _ => (fields dg_state).waiters
  | wakeByAddress _ => true
  | _ => false

theorem wakes_wake_waiters {dg_state : BitVec 64} (h : (fields dg_state).waiters = true) (refs : Nat) :
    (wake_waiters dg_state refs).wakes = true := by
  rw [wake_waiters, if_pos ((has_waiters_iff _).mpr h)]
  rfl

theorem wakes_group_wake {dg_state : BitVec 64} (h : (fields dg_state).waiters = true) (needs_release : Bool) :
    (group_wake dg_state needs_release).wakes = true := by
  unfold group_wake
  split
  · exact h
  · exact wakes_wake_waiters h _

/-- Who leaves and finds the bit for waiters set either clears it next or wakes them. -/
theorem wakes_leave_loop {w : BitVec 64} (h : (fields w).waiters = true) :
    (leave_loop w).wakes = true ∨ leave_loop w = .leaveCmpxchg w := by
  unfold leave_loop
  split
  · exact .inl (wakes_group_wake h true)
  · exact .inr rfl

end Point

theorem waiters_leave_new_state_of_count {w : BitVec 64} (h : (fields w).count ≠ 0) :
    (fields (leave_new_state w)).waiters = (fields w).waiters := by
  rw [leave_new_state, if_neg (mt (empty_iff w).mp h), fields_clear_notifs]

variable {ι : Type u} [DecidableEq ι]

/-- Whether the step has emptied the group. -/
def emptied (s s' : State ι) : Nat := if s.count ≠ 0 ∧ s'.count = 0 then 1 else 0

structure Missed (ι : Type u) where
  /-- How often the group has been emptied since the thread read the generation that it waits for. -/
  emptyings : ι → Nat
  /-- The generation may have come back to the one that a thread waits for. -/
  outwaited : Bool

def Missed.next (m : Missed ι) (s s' : State ι) (j : ι) : Nat :=
  if (s.point j).waitsFor.isNone then 0 else m.emptyings j + emptied s s'

variable {s s' : State ι} {m : Missed ι} {i : ι}

section Steps

omit [DecidableEq ι] in
theorem emptied_eq_zero (h : s'.count = s.count) : emptied s s' = 0 := by
  refine if_neg fun hBoth => hBoth.1 ?_
  rw [← h]
  exact hBoth.2

omit [DecidableEq ι] in
theorem Missed.next_of_waits {j : ι} {gen : BitVec 32} (h : (s.point j).waitsFor = some gen) (m : Missed ι) (s' : State ι) :
    m.next s s' j = m.emptyings j + emptied s s' := by
  rw [Missed.next, h]
  rfl

omit [DecidableEq ι] in
theorem Missed.next_of_not {j : ι} (h : (s.point j).waitsFor = none) (m : Missed ι) (s' : State ι) : m.next s s' j = 0 := by
  rw [Missed.next, h]
  rfl

theorem gen_emptied (hMoves : Moves s i s') (hAlive : s'.crashed = none) :
    (fields s'.dg_state).gen = (fields s.dg_state).gen + BitVec.ofNat 32 (emptied s s') := by
  have hSame : s'.count = s.count → (fields s'.dg_state).gen = (fields s.dg_state).gen →
      (fields s'.dg_state).gen = (fields s.dg_state).gen + BitVec.ofNat 32 (emptied s s') := by
    intro hCount hGen
    rw [emptied_eq_zero hCount, hGen, BitVec.add_zero]
  cases hMoves with
  | overflows | unbalanced => cases hAlive
  | begins call => cases call <;> exact hSame rfl rfl
  | enters word _ hRoom hWord =>
    have hCount : (fields word).count = s.count + 1 := (congrArg Fields.count hWord).trans (Fields.count_enter hRoom)
    have hNot : emptied s ({ s with dg_state := word }.goto i (if s.count = 0 then .retainEntered else .returned 0)) = 0 :=
      if_neg fun hBoth => Nat.succ_ne_zero _ (hCount.symm.trans hBoth.2)
    rw [hNot, BitVec.add_zero]
    exact (congrArg Fields.gen hWord).trans rfl
  | leaves word _ hMore hWord =>
    have hCount : (fields word).count = s.count - 1 :=
      (congrArg Fields.count hWord).trans (Fields.count_leave (Nat.ne_zero_of_lt hMore))
    have hNot : emptied s ({ s with dg_state := word }.goto i (.returned 0)) = 0 := by
      refine if_neg fun hBoth => ?_
      have hZero : (fields word).count = 0 := hBoth.2
      omega
    rw [hNot, BitVec.add_zero]
    refine (congrArg Fields.gen hWord).trans ?_
    rw [Fields.leave_of_count_ne_one (Nat.ne_of_gt hMore)]
  | leavesLast word _ hLast hWord =>
    have hCount : (fields word).count = s.count - 1 :=
      (congrArg Fields.count hWord).trans (Fields.count_leave (hLast.trans_ne Nat.one_ne_zero))
    have hOne : emptied s ({ s with dg_state := word }.goto i (leave_loop word)) = 1 :=
      if_pos ⟨hLast.trans_ne Nat.one_ne_zero, hCount.trans (congrArg (· - 1) hLast)⟩
    rw [hOne]
    refine (congrArg Fields.gen hWord).trans ?_
    rw [Fields.leave_of_count_one hLast]
  | clears => exact hSame (count_leave_new_state _) (gen_leave_new_state _)
  | announces => exact hSame (count_or_notifs _) ((congrArg Fields.gen (fields_or_notifs s.dg_state)).trans rfl)
  | setsWaiters => exact hSame (count_or_waiters _) ((congrArg Fields.gen (fields_or_waiters s.dg_state)).trans rfl)
  | _ => exact hSame rfl rfl

theorem waiters_of_moves (hMoves : Moves s i s') (hAlive : s'.crashed = none) (hWaiters : (fields s.dg_state).waiters = true)
    (hCount : s.count ≠ 0) (hEmptied : emptied s s' = 0) : (fields s'.dg_state).waiters = true ∧ s'.count ≠ 0 := by
  have hCount' : s'.count ≠ 0 := by
    intro hZero
    rw [emptied, if_pos ⟨hCount, hZero⟩] at hEmptied
    cases hEmptied
  refine ⟨?_, hCount'⟩
  cases hMoves with
  | overflows | unbalanced => cases hAlive
  | begins call => cases call <;> exact hWaiters
  | enters word _ _ hWord => exact (congrArg Fields.waiters hWord).trans hWaiters
  | leaves word _ _ hWord | leavesLast word _ _ hWord =>
    exact (congrArg Fields.waiters hWord).trans ((flags_leave _).2.trans hWaiters)
  | clears => exact (waiters_leave_new_state_of_count hCount).trans hWaiters
  | announces => exact (congrArg Fields.waiters (fields_or_notifs s.dg_state)).trans hWaiters
  | setsWaiters => exact congrArg Fields.waiters (fields_or_waiters s.dg_state)
  | _ => exact hWaiters

theorem asleep_of_moves (hMoves : Moves s i s') (hAlive : s'.crashed = none) {j : ι} {timeout : UInt64} {gen : BitVec 32}
    (hAsleep : s'.point j = .asleep timeout gen) : s.point j = .asleep timeout gen ∨
      (s.point j).waitsFor = some gen ∧ (fields s.dg_state).gen = gen ∧ emptied s s' = 0 := by
  obtain rfl | hji := eq_or_ne j i
  · have hGen : (s'.point j).waitsFor = some gen := by
      rw [hAsleep]
      rfl
    obtain ⟨p, hWaits, rfl⟩ | ⟨_, _, rfl⟩ := waiting_of_moves hMoves hAlive hGen
    · rw [goto_point] at hAsleep
      cases hWaits with
      | loads =>
        unfold wait_loop at hAsleep
        split at hAsleep
        · cases hAsleep
        · split at hAsleep
          · cases hAsleep
          · split at hAsleep <;> cases hAsleep
      | sleeps timeout gen' hPoint hNow =>
        cases hAsleep
        exact .inr ⟨by rw [hPoint]; rfl, hNow, emptied_eq_zero rfl⟩
      | wakes | sees | expires | again => cases hAsleep
    · rw [goto_point] at hAsleep
      cases hAsleep
  · obtain hSame | hSame := others_of_moves hMoves hji
    · exact .inl (hSame ▸ hAsleep)
    · cases hPoint : s.point j <;> rw [hSame, hPoint] at hAsleep <;> cases hAsleep

/-- A thread is on its way to wake those who sleep. -/
def Rousing (s : State ι) : Prop :=
  (∃ k, (s.point k).wakes = true) ∨ (fields s.dg_state).waiters = true ∧ ∃ k old_state, s.point k = .leaveCmpxchg old_state

theorem Rousing.goto {p : Point} (hRousing : Rousing s) (hWaiters : (fields s'.dg_state).waiters = (fields s.dg_state).waiters)
    (hPoint : s'.point = Function.update s.point i p) (hWakes : (s.point i).wakes = true → p.wakes = true)
    (hOld : ∀ old_state, s.point i ≠ .leaveCmpxchg old_state) : Rousing s' := by
  obtain ⟨k, hk⟩ | ⟨hBit, k, old_state, hk⟩ := hRousing
  · refine .inl ⟨k, ?_⟩
    rw [hPoint]
    obtain rfl | hki := eq_or_ne k i
    · rw [Function.update_self]
      exact hWakes hk
    · rwa [Function.update_of_ne hki]
  · have hki : k ≠ i := by
      rintro rfl
      exact hOld old_state hk
    refine .inr ⟨hWaiters.trans hBit, k, old_state, ?_⟩
    rwa [hPoint, Function.update_of_ne hki]

/-- Another thread that is going to wake the sleepers is not hindered, and whoever clears the bit wakes them. -/
theorem rousing_of_leave (hRousing : Rousing s) {old_state : BitVec 64} (hPoint : s.point i = .leaveCmpxchg old_state) {p : Point}
    (hPoint' : s'.point = Function.update s.point i p)
    (hNext : (fields s.dg_state).waiters = true →
      p.wakes = true ∨ (fields s'.dg_state).waiters = true ∧ ∃ old_state, p = .leaveCmpxchg old_state) : Rousing s' := by
  have hAt : s'.point i = p := by
    rw [hPoint', Function.update_self]
  obtain ⟨k, hk⟩ | ⟨hBit, _⟩ := hRousing
  · have hki : k ≠ i := by
      rintro rfl
      rw [hPoint] at hk
      cases hk
    refine .inl ⟨k, ?_⟩
    rwa [hPoint', Function.update_of_ne hki]
  · obtain hWakes | ⟨hBit', old, hOld⟩ := hNext hBit
    · exact .inl ⟨i, hAt ▸ hWakes⟩
    · exact .inr ⟨hBit', i, old, hAt.trans hOld⟩

omit [DecidableEq ι] in
theorem woken_ne_asleep (p : Point) (timeout : UInt64) (gen : BitVec 32) : p.woken ≠ .asleep timeout gen := by
  cases p <;> exact Point.noConfusion

omit [DecidableEq ι] in
theorem release_refs_ne_asleep (refs : Nat) (timeout : UInt64) (gen : BitVec 32) : release_refs refs ≠ .asleep timeout gen := by
  unfold release_refs
  split <;> exact Point.noConfusion

/-- The sleepers are woken, or somebody is still on the way to do so. -/
theorem rousing_of_moves (hRousing : Rousing s) (hMoves : Moves s i s') (hAlive : s'.crashed = none) :
    Rousing s' ∨ ∀ j timeout gen, s'.point j ≠ .asleep timeout gen := by
  have hQuiet : ∀ {q p : Point}, s.point i = q → q.wakes = false → (s.point i).wakes = true → p.wakes = true := by
    intro q p hPoint hq hWakes
    rw [hPoint, hq] at hWakes
    cases hWakes
  have hNot : ∀ {q : Point}, s.point i = q → (∀ old_state, q ≠ .leaveCmpxchg old_state) → ∀ old_state, s.point i ≠ .leaveCmpxchg old_state :=
    fun hPoint hq old_state hAt => hq old_state (hPoint.symm.trans hAt)
  cases hMoves with
  | overflows | unbalanced => cases hAlive
  | begins call hPoint =>
    have hWakes : (s.point i).wakes = false := by
      cases hAt : s.point i <;> rw [hAt] at hPoint <;> first | rfl | cases hPoint
    have hOld : ∀ old_state, s.point i ≠ .leaveCmpxchg old_state := by
      intro old_state hAt
      rw [hAt] at hPoint
      cases hPoint
    cases call <;> exact .inl (hRousing.goto rfl rfl (hQuiet rfl hWakes) hOld)
  | enters word hPoint _ hWord =>
    exact .inl (hRousing.goto ((congrArg Fields.waiters hWord).trans rfl) rfl (hQuiet hPoint rfl) (hNot hPoint fun _ => Point.noConfusion))
  | leaves word hPoint _ hWord | leavesLast word hPoint _ hWord =>
    exact .inl (hRousing.goto ((congrArg Fields.waiters hWord).trans (flags_leave _).2) rfl (hQuiet hPoint rfl)
      (hNot hPoint fun _ => Point.noConfusion))
  | clears hPoint => exact .inl (rousing_of_leave hRousing hPoint rfl fun hBit => .inl (Point.wakes_group_wake hBit true))
  | reloads old_state hPoint =>
    refine .inl (rousing_of_leave hRousing hPoint rfl fun hBit => ?_)
    exact (Point.wakes_leave_loop hBit).imp_right fun hOld => ⟨hBit, _, hOld⟩
  | getsHead dg_state needs_release head hPoint | clearsHead dg_state needs_release head hPoint
  | takesTail dg_state needs_release head tail hPoint | submits dg_state needs_release dc next_dc tail hPoint =>
    refine .inl (hRousing.goto rfl rfl (fun hWakes => ?_) (hNot hPoint fun _ => Point.noConfusion))
    rw [hPoint] at hWakes
    exact hWakes
  | submitsLast dg_state needs_release dc hPoint =>
    refine .inl (hRousing.goto rfl rfl (fun hWakes => ?_) (hNot hPoint fun _ => Point.noConfusion))
    rw [hPoint] at hWakes
    exact Point.wakes_wake_waiters hWakes _
  | wakes refs hPoint =>
    refine .inr fun j timeout gen => ?_
    change Function.update (fun j => (s.point j).woken) i (release_refs refs) j ≠ _
    obtain rfl | hji := eq_or_ne j i
    · rw [Function.update_self]
      exact release_refs_ne_asleep refs timeout gen
    · rw [Function.update_of_ne hji]
      exact woken_ne_asleep _ timeout gen
  | looks hPoint =>
    refine .inl (hRousing.goto rfl rfl ?_ ?_)
    · obtain hPoint | ⟨old, hPoint⟩ := hPoint <;> exact hQuiet hPoint rfl
    · obtain hPoint | ⟨old, hPoint⟩ := hPoint <;> exact hNot hPoint fun _ => Point.noConfusion
  | announces hPoint =>
    exact .inl (hRousing.goto ((congrArg Fields.waiters (fields_or_notifs s.dg_state)).trans rfl) rfl (hQuiet hPoint rfl)
      (hNot hPoint fun _ => Point.noConfusion))
  | setsWaiters timeout hPoint =>
    obtain ⟨k, hk⟩ | ⟨_, k, old_state, hk⟩ := hRousing
    · refine .inl (.inl ⟨k, ?_⟩)
      have hki : k ≠ i := by
        rintro rfl
        rw [hPoint] at hk
        cases hk
      exact (congrArg Point.wakes (goto_point_of_ne hki ..)).trans hk
    · have hki : k ≠ i := by
        rintro rfl
        rw [hPoint] at hk
        cases hk
      exact .inl (.inr ⟨congrArg Fields.waiters (fields_or_waiters s.dg_state), k, old_state, (goto_point_of_ne hki ..).trans hk⟩)
  | waits p hWaits =>
    have hOld := hWaits.points.1
    have hWakes : (s.point i).wakes = false := by
      cases hAt : s.point i <;> rw [hAt] at hOld <;> first | rfl | cases hOld
    refine .inl (hRousing.goto rfl rfl (hQuiet rfl hWakes) fun old_state hAt => ?_)
    rw [hAt] at hOld
    cases hOld
  | retainsEntered hPoint | releases _ hPoint | pushes _ hPoint | retainsNotified _ hPoint | links _ _ hPoint
  | setsHead _ hPoint =>
    exact .inl (hRousing.goto rfl rfl (hQuiet hPoint rfl) (hNot hPoint fun _ => Point.noConfusion))

/-- The last one to leave sees the bit for waiters. -/
theorem rousing_of_emptied (hMoves : Moves s i s') (hAlive : s'.crashed = none) (hWaiters : (fields s.dg_state).waiters = true)
    (hCount : s.count ≠ 0) (hEmpty : s'.count = 0) : Rousing s' := by
  have hKept : s'.count ≠ s.count := fun hSame => hCount (hSame.symm.trans hEmpty)
  cases hMoves with
  | overflows | unbalanced => cases hAlive
  | begins call => cases call <;> exact absurd rfl hKept
  | enters word _ hRoom hWord =>
    have hMore : (fields word).count = s.count + 1 := (congrArg Fields.count hWord).trans (Fields.count_enter hRoom)
    exact absurd (hMore.symm.trans hEmpty) (Nat.succ_ne_zero _)
  | leaves word _ hMore hWord =>
    have hLess : (fields word).count = s.count - 1 :=
      (congrArg Fields.count hWord).trans (Fields.count_leave (Nat.ne_zero_of_lt hMore))
    have hZero : (fields word).count = 0 := hEmpty
    omega
  | leavesLast word _ _ hWord =>
    have hBit : (fields word).waiters = true := (congrArg Fields.waiters hWord).trans ((flags_leave _).2.trans hWaiters)
    refine .inr ⟨hBit, i, word, ?_⟩
    rw [goto_point]
    exact leave_loop_of_flags hEmpty (.inr hBit)
  | clears => exact absurd (count_leave_new_state _) hKept
  | announces => exact absurd (count_or_notifs _) hKept
  | setsWaiters => exact absurd (count_or_waiters _) hKept
  | _ => exact absurd rfl hKept

end Steps

/-- What holds as long as nobody waits through 2 ^ 32 emptyings. -/
structure Watched (s : State ι) (m : Missed ι) : Prop where
  short : ∀ j, m.emptyings j < 2 ^ 32
  gens : ∀ j gen, (s.point j).waitsFor = some gen → (fields s.dg_state).gen = gen + BitVec.ofNat 32 (m.emptyings j)
  recent : ∀ j gen, (s.point j).waitsFor = some gen → m.emptyings j = 0 → (fields s.dg_state).waiters = true ∧ s.count ≠ 0
  sleepers : ∀ j timeout gen, s.point j = .asleep timeout gen → m.emptyings j ≠ 0 → Rousing s

omit [DecidableEq ι] in
theorem Watched.emptyings_eq_zero (hWatched : Watched s m) {j : ι} {gen : BitVec 32} (hFor : (s.point j).waitsFor = some gen)
    (hGen : (fields s.dg_state).gen = gen) : m.emptyings j = 0 := by
  have hSum := congrArg BitVec.toNat (hGen.symm.trans (hWatched.gens j gen hFor))
  have hShort := hWatched.short j
  have hLt := gen.isLt
  rw [BitVec.toNat_add, BitVec.toNat_ofNat] at hSum
  omega

variable [Fintype ι]

def Missed.after (m : Missed ι) (s s' : State ι) : Missed ι where
  emptyings := m.next s s'
  outwaited := m.outwaited || decide (∃ j, 2 ^ 32 ≤ m.next s s' j)

def noteMissed (m : Missed ι) (s : State ι) (_ : Event ι) (s' : State ι) : Missed ι := m.after s s'

theorem watched_of_moves (hWatched : Watched s m) (hSound : ∀ j, (s.point j).Sound) (hMoves : Moves s i s')
    (hAlive : s'.crashed = none) (hShort : (m.after s s').outwaited = false) : Watched s' (m.after s s') := by
  have hNext : ∀ j, m.next s s' j < 2 ^ 32 := by
    have hNone := of_decide_eq_false (Bool.or_eq_false_iff.mp hShort).2
    push Not at hNone
    exact hNone
  have hGen := gen_emptied hMoves hAlive
  refine ⟨hNext, fun j gen hFor => ?_, fun j gen hFor hZero => ?_, fun j timeout gen hAsleep hMissed => ?_⟩
  · change _ = gen + BitVec.ofNat 32 (m.next s s' j)
    obtain hOld | ⟨hOld, _, hNow, _⟩ := waitsFor_of_moves hMoves hAlive hFor
    · rw [Missed.next_of_waits hOld, hGen, hWatched.gens j gen hOld, BitVec.add_assoc, ← BitVec.ofNat_add]
    · rw [Missed.next_of_not hOld, hNow, BitVec.add_zero]
  · change m.next s s' j = 0 at hZero
    obtain hOld | ⟨_, _, _, hBit, hCount⟩ := waitsFor_of_moves hMoves hAlive hFor
    · rw [Missed.next_of_waits hOld] at hZero
      obtain ⟨hBit, hCount⟩ := hWatched.recent j gen hOld (by omega)
      exact waiters_of_moves hMoves hAlive hBit hCount (by omega)
    · exact ⟨hBit, hCount (hSound i)⟩
  · change m.next s s' j ≠ 0 at hMissed
    obtain hOld | ⟨hOld, hNow, hKept⟩ := asleep_of_moves hMoves hAlive hAsleep
    · have hFor : (s.point j).waitsFor = some gen := by
        rw [hOld]
        rfl
      rw [Missed.next_of_waits hFor] at hMissed
      by_cases hZero : m.emptyings j = 0
      · obtain ⟨hBit, hCount⟩ := hWatched.recent j gen hFor hZero
        have hEmpty : s'.count = 0 := by
          by_contra hNot
          rw [emptied, if_neg fun hBoth => hNot hBoth.2] at hMissed
          omega
        exact rousing_of_emptied hMoves hAlive hBit hCount hEmpty
      · have hRousing := hWatched.sleepers j timeout gen hOld hZero
        exact (rousing_of_moves hRousing hMoves hAlive).resolve_right fun hNobody => hNobody j timeout gen hAsleep
    · rw [Missed.next_of_waits hOld, hWatched.emptyings_eq_zero hOld hNow, hKept] at hMissed
      exact absurd rfl hMissed

end OCNote.Dispatch.Group
