import OCNote.Dispatch.GroupSafety

/-! # When a wait ends and when a notification is submitted

A wait that succeeds has seen the group empty. A notification is submitted by a thread that has seen
the group empty too, but if the group is entered again while that thread is on its way, it takes
along what has been handed over since. -/

namespace OCNote.Dispatch.Group
open OCNote.Support
open Semaphore (DISPATCH_TIME_FOREVER)
set_option autoImplicit false

universe u

variable {ι : Type u} [DecidableEq ι]

def State.isEmpty (s : State ι) : Bool := s.count == 0

section Waiting

/-- Whether the group has been empty since the last call of each thread. -/
def noteEmpty (seen : ι → Bool) (_ : State ι) (e : Event ι) (s' : State ι) : ι → Bool :=
  match e with
  | .call i _ => Function.update (fun j => seen j || s'.isEmpty) i s'.isEmpty
  | _ => fun j => seen j || s'.isEmpty

/-- The generation that a thread waits for to change. -/
def Point.waitsFor : Point → Option (BitVec 32)
  | waitOnAddress _ gen | asleep _ gen | recheck _ gen _ => some gen
  | _ => none

structure Seen (s : State ι) (seen : ι → Bool) : Prop where
  empty : s.count = 0 → ∀ i, seen i = true
  changed : ∀ i gen, (s.point i).waitsFor = some gen → (fields s.dg_state).gen ≠ gen → seen i = true

variable {s s' : State ι} {seen : ι → Bool} {i : ι} {p : Point}

omit [DecidableEq ι] in
theorem Point.waitsFor_woken (p : Point) : p.woken.waitsFor = p.waitsFor := by cases p <;> rfl

omit [DecidableEq ι] in
theorem Point.idle_of_waits {p : Point} (h : p.waits = true) : p.idle = false := by
  cases p <;> first | rfl | cases h

/-- A thread that loads the state and starts to wait has seen the bit for waiters. -/
theorem waitsFor_wait_loop {timeout : UInt64} {w : BitVec 64} {gen : BitVec 32} (h : (wait_loop timeout w).waitsFor = some gen) :
    (fields w).gen = gen ∧ (fields w).waiters = true ∧ (fields w).count ≠ 0 := by
  unfold wait_loop at h
  split at h
  · cases h
  · rename_i hSome
    split at h
    · cases h
    · split at h
      · rw [gen_or_waiters] at h
        exact ⟨Option.some.inj h, (has_waiters_iff w).mp ‹_›, mt (empty_iff w).mpr hSome⟩
      · cases h

theorem gen_leave_new_state (w : BitVec 64) : (fields (leave_new_state w)).gen = (fields w).gen := by
  unfold leave_new_state
  split
  · rw [fields_clear_notifs, fields_clear_waiters]
  · rw [fields_clear_notifs]

theorem gen_of_moves (hMoves : Moves s i s') (hAlive : s'.crashed = none) :
    s'.count = 0 ∨ (fields s'.dg_state).gen = (fields s.dg_state).gen := by
  cases hMoves with
  | overflows | unbalanced => cases hAlive
  | begins call => cases call <;> exact .inr rfl
  | enters word _ _ hWord => exact .inr ((congrArg Fields.gen hWord).trans rfl)
  | leaves word _ hMore hWord =>
    refine .inr ((congrArg Fields.gen hWord).trans ?_)
    rw [Fields.leave_of_count_ne_one (Nat.ne_of_gt hMore)]
  | leavesLast word _ hLast hWord =>
    have hCount := (congrArg Fields.count hWord).trans (Fields.count_leave (hLast.trans_ne Nat.one_ne_zero))
    exact .inl (hCount.trans (congrArg (· - 1) hLast))
  | clears => exact .inr (gen_leave_new_state _)
  | announces => exact .inr ((congrArg Fields.gen (fields_or_notifs s.dg_state)).trans rfl)
  | setsWaiters => exact .inr ((congrArg Fields.gen (fields_or_waiters s.dg_state)).trans rfl)
  | _ => exact .inr rfl

theorem others_of_moves (hMoves : Moves s i s') {j : ι} (hji : j ≠ i) :
    s'.point j = s.point j ∨ s'.point j = (s.point j).woken := by
  have hGoto := goto_point_of_ne hji
  cases hMoves with
  | begins call => cases call <;> exact .inl (hGoto ..)
  | overflows | unbalanced => exact .inl rfl
  | wakes => exact .inr (hGoto ..)
  | _ => exact .inl (hGoto ..)

theorem waitsFor_release_refs (refs : Nat) : (release_refs refs).waitsFor = none := by
  unfold release_refs
  split <;> rfl

theorem waitsFor_wake_waiters (dg_state : BitVec 64) (refs : Nat) : (wake_waiters dg_state refs).waitsFor = none := by
  unfold wake_waiters
  split
  · rfl
  · exact waitsFor_release_refs refs

theorem waitsFor_group_wake (dg_state : BitVec 64) (needs_release : Bool) : (group_wake dg_state needs_release).waitsFor = none := by
  unfold group_wake
  split
  · rfl
  · exact waitsFor_wake_waiters ..

theorem waitsFor_leave_loop (w : BitVec 64) : (leave_loop w).waitsFor = none := by
  unfold leave_loop
  split
  · exact waitsFor_group_wake ..
  · rfl

theorem waitsFor_notify_loop (w : BitVec 64) : (notify_loop w).waitsFor = none := by
  unfold notify_loop
  split
  · exact waitsFor_group_wake ..
  · rfl

/-- Whoever waits for a change after a step of its own has taken a step of a wait. -/
theorem waiting_of_moves (hMoves : Moves s i s') (hAlive : s'.crashed = none) {gen : BitVec 32}
    (hGen : (s'.point i).waitsFor = some gen) : (∃ p, Waits s i p ∧ s' = s.goto i p) ∨
      ∃ timeout, s.point i = .waitCmpxchg timeout s.dg_state ∧
        s' = { s with dg_state := s.dg_state ||| DISPATCH_GROUP_HAS_WAITERS }.goto i
          (.waitOnAddress timeout (fields s.dg_state).gen) := by
  have hNone : ∀ {t : State ι} {p : Point}, p.waitsFor = none → ((t.goto i p).point i).waitsFor ≠ some gen := by
    intro t p hp hSome
    rw [goto_point, hp] at hSome
    cases hSome
  cases hMoves with
  | overflows | unbalanced => cases hAlive
  | begins call => cases call <;> exact absurd hGen (hNone rfl)
  | enters =>
    refine absurd hGen (hNone ?_)
    split <;> rfl
  | leavesLast word => exact absurd hGen (hNone (waitsFor_leave_loop word))
  | clears => exact absurd hGen (hNone (waitsFor_group_wake ..))
  | reloads => exact absurd hGen (hNone (waitsFor_leave_loop _))
  | submitsLast => exact absurd hGen (hNone (waitsFor_wake_waiters ..))
  | wakes refs => exact absurd hGen (hNone (waitsFor_release_refs refs))
  | pushes dsn =>
    refine absurd hGen (hNone ?_)
    split <;> rfl
  | looks => exact absurd hGen (hNone (waitsFor_notify_loop _))
  | setsWaiters timeout hPoint => exact .inr ⟨timeout, hPoint, rfl⟩
  | waits p hWaits => exact .inl ⟨p, hWaits, rfl⟩
  | _ => exact absurd hGen (hNone rfl)

/-- Whoever starts to wait for a change waits for one of the generation that there is, in a group that is
entered and with the bit for waiters set. -/
theorem waitsFor_of_moves (hMoves : Moves s i s') (hAlive : s'.crashed = none) {j : ι} {gen : BitVec 32}
    (hGen : (s'.point j).waitsFor = some gen) : (s.point j).waitsFor = some gen ∨
      (s.point j).waitsFor = none ∧ (fields s.dg_state).gen = gen ∧ (fields s'.dg_state).gen = gen ∧
        (fields s'.dg_state).waiters = true ∧ ((s.point i).Sound → s'.count ≠ 0) := by
  obtain rfl | hji := eq_or_ne j i
  · obtain ⟨p, hWaits, rfl⟩ | ⟨timeout, hPoint, rfl⟩ := waiting_of_moves hMoves hAlive hGen
    · rw [goto_point] at hGen
      cases hWaits with
      | loads timeout hPoint =>
        obtain ⟨hNow, hBit, hCount⟩ := waitsFor_wait_loop hGen
        refine .inr ⟨?_, hNow, hNow, hBit, fun _ => hCount⟩
        obtain hPoint | ⟨old, hPoint⟩ := hPoint <;> rw [hPoint] <;> rfl
      | sleeps timeout gen' hPoint => exact .inl (Eq.trans (by rw [hPoint]; rfl) hGen)
      | wakes timeout gen' timedOut hPoint =>
        refine .inl (Eq.trans ?_ hGen)
        obtain hPoint | hPoint := hPoint <;> rw [hPoint] <;> rfl
      | sees | expires => cases hGen
      | again timeout gen' hPoint => exact .inl (Eq.trans (by rw [hPoint]; rfl) hGen)
    · rw [goto_point] at hGen
      have hNow : (fields s.dg_state).gen = gen := Option.some.inj hGen
      refine .inr ⟨by rw [hPoint]; rfl, hNow, ?_, congrArg Fields.waiters (fields_or_waiters s.dg_state), fun hSound => ?_⟩
      · exact (congrArg Fields.gen (fields_or_waiters s.dg_state)).trans hNow
      · rw [hPoint] at hSound
        exact (count_or_waiters s.dg_state).trans_ne hSound
  · obtain hSame | hSame := others_of_moves hMoves hji
    · exact .inl (hSame ▸ hGen)
    · rw [hSame, Point.waitsFor_woken] at hGen
      exact .inl hGen

theorem seen_of_step {e : Event ι} (hSeen : Seen s seen) (hStep : step s e = some s') (hAlive : s'.crashed = none) :
    Seen s' (noteEmpty seen s e s') := by
  obtain ⟨_, hMoves⟩ := moves_of_step hStep
  have hNow : s'.count = 0 → ∀ j, noteEmpty seen s e s' j = true := by
    intro hZero j
    have hEmpty : s'.isEmpty = true := beq_iff_eq.mpr hZero
    unfold noteEmpty
    rw [hEmpty]
    split
    · obtain rfl | hji := eq_or_ne j ‹_›
      · rw [Function.update_self]
      · rw [Function.update_of_ne hji, Bool.or_true]
    · exact Bool.or_true _
  refine ⟨hNow, fun j gen hFor hChanged => ?_⟩
  obtain hZero | hGen := gen_of_moves hMoves hAlive
  · exact hNow hZero j
  · rw [hGen] at hChanged
    have hOld := (waitsFor_of_moves hMoves hAlive hFor).resolve_right fun hNew => hChanged hNew.2.1
    have hBefore := hSeen.changed j gen hOld hChanged
    unfold noteEmpty
    split
    · obtain rfl | hji := eq_or_ne j ‹_›
      · obtain ⟨_, hStep⟩ := Option.ite_none_left_eq_some.mp hStep
        dsimp only at hStep
        split at hStep <;> rename_i hPoint
        · rw [hPoint] at hOld
          cases hOld
        · rw [hPoint] at hOld
          cases hOld
        · cases hStep
      · rw [Function.update_of_ne hji, hBefore, Bool.true_or]
    · exact congrArg (· || s'.isEmpty) hBefore

theorem seen_of_run {n : BitVec 32} {es : List (Event ι)} {q : State ι × (ι → Bool)}
    (hRun : ((group ι n).withHistory (fun _ => (group_create_with_count ι n).isEmpty) noteEmpty).run es = some q)
    (hAlive : q.1.crashed = none) : Seen q.1 q.2 := by
  refine Machine.run_induction (P := fun _ (q : State ι × (ι → Bool)) => q.1.crashed = none → Seen q.1 q.2) ?_ ?_ es q hRun hAlive
  · exact fun _ => ⟨fun hZero _ => beq_iff_eq.mpr hZero, fun _ _ hFor => by cases hFor⟩
  · intro es q e q' _ ih hStep hAlive'
    obtain ⟨hStep, hNote⟩ := Machine.withHistory_step.mp hStep
    rw [hNote]
    exact seen_of_step (ih (moves_of_step hStep).1) hStep hAlive'

theorem seen_of_return (hSeen : Seen s seen) (hMoves : Moves s i s') (hWaits : (s.point i).waits = true)
    (hReturned : s'.point i = .returned 0) : seen i = true := by
  have hNot : ∀ q : Point, q.waits = false → s.point i ≠ q := by
    rintro q hq rfl
    rw [hWaits] at hq
    cases hq
  have hReturn : ∀ {t : State ι} {p : Point}, (t.goto i p).point i = .returned 0 → p = .returned 0 := by
    intro t p h
    rwa [goto_point] at h
  cases hMoves with
  | begins call hPoint =>
    rw [Point.idle_of_waits hWaits] at hPoint
    cases hPoint
  | setsWaiters => cases hReturn hReturned
  | waits p hMove =>
    have hp := hReturn hReturned
    cases hMove with
    | loads timeout hPoint =>
      refine hSeen.empty ?_ i
      unfold wait_loop at hp
      split at hp
      · exact (empty_iff _).mp ‹_›
      · split at hp
        · cases hp
        · split at hp <;> cases hp
    | sleeps | wakes | again => cases hp
    | sees timeout gen timedOut hPoint hGen => exact hSeen.changed i gen (by rw [hPoint]; rfl) hGen
    | expires =>
      have hResult := Point.returned.inj hp
      exact absurd hResult (by decide)
  | looks hPoint =>
    obtain hPoint | ⟨old, hPoint⟩ := hPoint <;> exact absurd hPoint (hNot _ rfl)
  | enters _ hPoint | overflows _ hPoint | retainsEntered hPoint | leaves _ hPoint | leavesLast _ hPoint | unbalanced _ hPoint
  | clears hPoint | reloads _ hPoint | getsHead _ _ _ hPoint | clearsHead _ _ _ hPoint | takesTail _ _ _ _ hPoint
  | submitsLast _ _ _ hPoint | submits _ _ _ _ _ hPoint | wakes _ hPoint | releases _ hPoint | pushes _ hPoint
  | retainsNotified _ hPoint | links _ _ hPoint | setsHead _ hPoint | announces hPoint => exact absurd hPoint (hNot _ rfl)

/-- A call of `dispatch_group_wait` that returns 0 has seen the group empty: it was so at some
moment since the call. -/
theorem wait_sees_empty {n : BitVec 32} {es : List (Event ι)} {q q' : State ι × (ι → Bool)} {e : Event ι}
    (hRun : ((group ι n).withHistory (fun _ => (group_create_with_count ι n).isEmpty) noteEmpty).run es = some q)
    (hStep : ((group ι n).withHistory (fun _ => (group_create_with_count ι n).isEmpty) noteEmpty).step q e = some q')
    (hWaits : (q.1.point i).waits = true) (hReturned : q'.1.point i = .returned 0) : q'.2 i = true := by
  obtain ⟨hStep, hNote⟩ := Machine.withHistory_step.mp hStep
  obtain ⟨hBefore, hMoves⟩ := moves_of_step hStep
  have hSeen := seen_of_run hRun hBefore
  have hi : i = e.thread := by
    by_contra hOther
    obtain hSame | hSame := others_of_moves hMoves hOther
    · rw [← hSame, hReturned] at hWaits
      cases hWaits
    · rw [hReturned] at hSame
      cases hPoint : q.1.point i <;> rw [hPoint] at hSame hWaits <;> cases hSame
      cases hWaits
  subst hi
  have hBusy := Point.idle_of_waits hWaits
  have hOld : q.2 e.thread = true := seen_of_return hSeen hMoves hWaits hReturned
  rw [hNote]
  unfold noteEmpty
  split
  · rename_i j call
    obtain ⟨_, hStep⟩ := Option.ite_none_left_eq_some.mp hStep
    dsimp only [Event.thread] at hStep hBusy
    split at hStep <;> rename_i hPoint
    · rw [hPoint] at hBusy
      cases hBusy
    · rw [hPoint] at hBusy
      cases hBusy
    · cases hStep
  · exact congrArg (· || q'.1.isEmpty) hOld

/-- A thread enters, the other waits, and is woken when the first one leaves. -/
def wokenByLeaver : List (Event Bool) :=
  [.call false .enter, .go false, .go false, .call true (.wait DISPATCH_TIME_FOREVER), .go true, .go true, .go true,
    .call false .leave, .go false, .go false, .go false]

theorem wait_sees_empty_woken : ∃ q q',
    ((group Bool 0#32).withHistory (fun _ => (group_create_with_count Bool 0#32).isEmpty) noteEmpty).run wokenByLeaver = some q ∧
    ((group Bool 0#32).withHistory (fun _ => (group_create_with_count Bool 0#32).isEmpty) noteEmpty).step q (.go true) = some q' ∧
      q'.2 true = true := by
  obtain ⟨q, hRun⟩ := Option.isSome_iff_exists.mp
    (show (((group Bool 0#32).withHistory (fun _ => (group_create_with_count Bool 0#32).isEmpty) noteEmpty).run
      wokenByLeaver).isSome = true by decide +kernel)
  have hPoint := Machine.read_of_run hRun (f := fun q => q.1.point true) (x := .recheck DISPATCH_TIME_FOREVER 0#32 false)
    (by decide +kernel)
  have hStepped := Machine.read_of_run hRun (f := fun q => (((group Bool 0#32).withHistory
    (fun _ => (group_create_with_count Bool 0#32).isEmpty) noteEmpty).step q (.go true)).map fun q' => q'.1.point true)
    (x := some (.returned 0)) (by decide +kernel)
  obtain ⟨q', hStep, hReturned⟩ := Option.map_eq_some_iff.mp hStepped
  exact ⟨q, q', hRun, hStep, wait_sees_empty hRun hStep (by rw [hPoint]; rfl) hReturned⟩

end Waiting

section Notified

/-- For each notification, whether the group has been empty since it was appended, and whether
an enter has overtaken a thread that is about to take the notifications. -/
structure Timing where
  emptySince : Nat → Bool
  overtaken : Bool

/-- The thread has seen the group empty, and will take the notifications that are there. -/
def Point.firing : Point → Bool
  | leaveCmpxchg _ | getHead _ _ | clearHead _ _ _ | takeTail _ _ _ => true
  | _ => false

variable [Fintype ι]

def Timing.after (t : Timing) (s : State ι) (i : ι) (s' : State ι) : Timing where
  emptySince d := if s.point i = .pushTail d then s'.isEmpty else t.emptySince d || s'.isEmpty
  overtaken := t.overtaken || decide (s.point i = .enter ∧ s.count = 0 ∧ ∃ j, (s.point j).firing = true)

def noteTiming (t : Timing) (s : State ι) (e : Event ι) (s' : State ι) : Timing := t.after s e.thread s'

def noteBoth (p : History ι × Timing) (s : State ι) (e : Event ι) (s' : State ι) : History ι × Timing :=
  (note p.1 s e s', noteTiming p.2 s e s')

/-- What holds as long as no enter has overtaken a thread that is about to take the notifications. -/
structure Timely (s : State ι) (h : History ι) (t : Timing) : Prop where
  firing : ∀ i, (s.point i).firing = true → s.count = 0
  queue : s.count = 0 → ∀ d ∈ h.queue, t.emptySince d = true
  snapshot : ∀ i, ∀ d ∈ h.snapshot i, t.emptySince d = true
  submitted : ∀ d ∈ s.submitted, t.emptySince d = true

variable {s s' : State ι} {h : History ι} {t : Timing} {i : ι}

theorem Point.firing_woken (p : Point) : p.woken.firing = p.firing := by cases p <;> rfl

theorem firing_release_refs (refs : Nat) : (release_refs refs).firing = false := by
  unfold release_refs
  split <;> rfl

theorem firing_wake_waiters (dg_state : BitVec 64) (refs : Nat) : (wake_waiters dg_state refs).firing = false := by
  unfold wake_waiters
  split
  · rfl
  · exact firing_release_refs refs

theorem firing_wait_loop (timeout : UInt64) (w : BitVec 64) : (wait_loop timeout w).firing = false := by
  unfold wait_loop
  split
  · rfl
  · split
    · rfl
    · split <;> rfl

theorem empty_of_firing_notify_loop {w : BitVec 64} (h : (notify_loop w).firing = true) : (fields w).count = 0 := by
  unfold notify_loop at h
  split at h
  · exact ((idle_iff w).mp ‹_›).1
  · cases h

omit [Fintype ι] in
theorem empty_of_moves (hMoves : Moves s i s') (hAlive : s'.crashed = none) (hEnter : s.point i ≠ .enter)
    (hEmpty : s.count = 0) : s'.count = 0 := by
  cases hMoves with
  | overflows | unbalanced => cases hAlive
  | enters _ hPoint => exact absurd hPoint hEnter
  | leaves _ _ hMore => omega
  | leavesLast _ _ hLast => omega
  | begins call => cases call <;> exact hEmpty
  | clears => exact (count_leave_new_state _).trans hEmpty
  | announces => exact (count_or_notifs _).trans hEmpty
  | setsWaiters => exact (count_or_waiters _).trans hEmpty
  | _ => exact hEmpty

omit [Fintype ι] in
/-- Who is about to take the notifications after a step was so before it, or has just seen the
group empty. -/
theorem firing_of_moves (hMoves : Moves s i s') (hAlive : s'.crashed = none) (hFiring : (s'.point i).firing = true) :
    s'.count = 0 ∨ (s.point i).firing = true ∧ s.point i ≠ .enter := by
  have hGoto : ∀ {t : State ι} {p : Point}, ((t.goto i p).point i).firing = true → p.firing = true := by
    intro t p h
    rwa [goto_point] at h
  have hNot : ∀ {t : State ι} {p : Point}, p.firing = false → ((t.goto i p).point i).firing ≠ true := by
    intro t p hp h
    rw [hGoto h] at hp
    cases hp
  cases hMoves with
  | overflows | unbalanced => cases hAlive
  | begins call => cases call <;> exact absurd hFiring (hNot rfl)
  | enters =>
    refine absurd hFiring (hNot ?_)
    split <;> rfl
  | leavesLast word _ hLast hWord =>
    have hCount := (congrArg Fields.count hWord).trans (Fields.count_leave (hLast.trans_ne Nat.one_ne_zero))
    exact .inl (hCount.trans (congrArg (· - 1) hLast))
  | clears hPoint | reloads _ hPoint | getsHead _ _ _ hPoint | clearsHead _ _ _ hPoint =>
    rw [hPoint]
    exact .inr ⟨rfl, Point.noConfusion⟩
  | looks => exact .inl (empty_of_firing_notify_loop (hGoto hFiring))
  | submitsLast => exact absurd hFiring (hNot (firing_wake_waiters ..))
  | wakes refs => exact absurd hFiring (hNot (firing_release_refs refs))
  | pushes dsn =>
    refine absurd hFiring (hNot ?_)
    split <;> rfl
  | waits p hWaits =>
    refine absurd hFiring (hNot ?_)
    cases hWaits with
    | loads timeout => exact firing_wait_loop timeout _
    | _ => rfl
  | _ => exact absurd hFiring (hNot rfl)

omit [DecidableEq ι] in
theorem Listed.not_pushed (hListed : Listed s h) {d : Nat} (hPoint : s.point i = .pushTail d) :
    d ∉ s.submitted ∧ ∀ j, d ∉ h.snapshot j := by
  have hOnce := hListed.once d
  have hUnpushed := unpushed_eq_one hPoint
  have hNone : s.submitted.count d = 0 ∧ tally (List.count d) h.snapshot = 0 := by
    split at hOnce <;> omega
  exact ⟨List.count_eq_zero.mp hNone.1, fun j => List.count_eq_zero.mp (tally_eq_zero_iff.mp hNone.2 j)⟩

theorem submitted_of_moves (hListed : Listed s h) (hMoves : Moves s i s') {d : Nat} (hd : d ∈ s'.submitted) :
    d ∈ s.submitted ∨ d ∈ h.snapshot i := by
  cases hMoves with
  | begins call => cases call <;> exact .inl hd
  | submitsLast dg_state needs_release dc hPoint | submits dg_state needs_release dc next_dc tail hPoint =>
    obtain ⟨rest, hRest, _⟩ := hListed.snapshot_cons hPoint
    refine (List.mem_append.mp hd).imp_right fun hLast => ?_
    rw [List.mem_singleton.mp hLast, hRest]
    exact List.mem_cons_self
  | _ => exact .inl hd

omit [Fintype ι] in
theorem snapshot_after {d : Nat} {k : ι} (hd : d ∈ (h.after s i).snapshot k) :
    d ∈ h.snapshot k ∨ k = i ∧ (s.point i).firing = true ∧ d ∈ h.queue := by
  unfold History.after at hd
  split at hd
  case h_4 hPoint =>
    change d ∈ Function.update h.snapshot i h.queue k at hd
    obtain rfl | hki := eq_or_ne k i
    · rw [Function.update_self] at hd
      exact .inr ⟨rfl, by rw [hPoint]; rfl, hd⟩
    · rw [Function.update_of_ne hki] at hd
      exact .inl hd
  case h_5 =>
    change d ∈ Function.update h.snapshot i (h.snapshot i).tail k at hd
    obtain rfl | hki := eq_or_ne k i
    · rw [Function.update_self] at hd
      exact .inl (List.mem_of_mem_tail hd)
    · rw [Function.update_of_ne hki] at hd
      exact .inl hd
  all_goals exact .inl hd

theorem timely_of_moves (hListed : Listed s h) (hTimely : t.overtaken = false → Timely s h t) (hMoves : Moves s i s')
    (hAlive : s'.crashed = none) (hCalm : (t.after s i s').overtaken = false) : Timely s' (h.after s i) (t.after s i s') := by
  obtain ⟨hBefore, hEnter⟩ := Bool.or_eq_false_iff.mp hCalm
  have hTimely := hTimely hBefore
  have hEnter := of_decide_eq_false hEnter
  have hKept : ∀ d, s.point i ≠ .pushTail d → t.emptySince d = true → (t.after s i s').emptySince d = true := by
    intro d hOther hSince
    change (if s.point i = .pushTail d then _ else t.emptySince d || s'.isEmpty) = true
    rw [if_neg hOther, hSince, Bool.true_or]
  refine ⟨fun j hFiring => ?_, fun hEmpty d _ => ?_, fun k d hd => ?_, fun d hd => ?_⟩
  · have hOld : s'.count = 0 ∨ (s.point j).firing = true ∧ s.point i ≠ .enter := by
      obtain rfl | hji := eq_or_ne j i
      · exact firing_of_moves hMoves hAlive hFiring
      · have hOther : (s.point j).firing = true := by
          obtain hSame | hSame := others_of_moves hMoves hji
          · exact hSame ▸ hFiring
          · rwa [hSame, Point.firing_woken] at hFiring
        exact .inr ⟨hOther, fun hAt => hEnter ⟨hAt, hTimely.firing j hOther, j, hOther⟩⟩
    exact hOld.elim id fun ⟨hFiring, hNot⟩ => empty_of_moves hMoves hAlive hNot (hTimely.firing j hFiring)
  · have hNow : s'.isEmpty = true := beq_iff_eq.mpr hEmpty
    change (if s.point i = .pushTail d then s'.isEmpty else t.emptySince d || s'.isEmpty) = true
    rw [hNow, Bool.or_true, ite_self]
  · obtain hOld | ⟨rfl, hFiring, hQueue⟩ := snapshot_after hd
    · exact hKept d (fun hPush => (hListed.not_pushed hPush).2 k hOld) (hTimely.snapshot k d hOld)
    · refine hKept d (fun hPush => ?_) (hTimely.queue (hTimely.firing k hFiring) d hQueue)
      rw [hPush] at hFiring
      cases hFiring
  · obtain hOld | hOld := submitted_of_moves hListed hMoves hd
    · exact hKept d (fun hPush => (hListed.not_pushed hPush).1 hOld) (hTimely.submitted d hOld)
    · exact hKept d (fun hPush => (hListed.not_pushed hPush).2 i hOld) (hTimely.snapshot i d hOld)

def groupTimed (ι : Type u) [DecidableEq ι] [Fintype ι] (n : BitVec 32) : Machine (State ι × History ι × Timing) (Event ι) :=
  (group ι n).withHistory (History.start ι, ⟨fun _ => false, false⟩) noteBoth

/-- A thread leaves with a notification to submit. Before it clears the bits another one enters and
hands over a second notification. -/
def overtakenByEnter : List (Event Bool) :=
  [.call false .enter, .go false, .go false, .call false .notify, .go false, .go false, .go false, .go false, .go false,
    .call false .leave, .go false, .call true .enter, .go true, .go true, .call true .notify, .go true, .go true,
    .go false, .go false, .go false, .go false, .go false, .go false, .go false]

/-- The group has been entered all the time since the second one was appended. -/
example : ((groupTimed Bool 0#32).run overtakenByEnter).map
    (fun q => (q.1.submitted, q.1.count, q.2.2.emptySince 1, q.2.2.overtaken)) = some ([0, 1], 1, false, true) := by
  decide +kernel

end Notified

end OCNote.Dispatch.Group
