import OCNote.Dispatch.GroupWord
import OCNote.Dispatch.Semaphore

/-! # dispatch_group_t

Threads enter and leave one group, wait for it, and hand over notifications, which the thread
that finds the group empty submits to their queues. The notifications are in a list that any number of
threads append to: an exchange of the tail first, and the link to the new element second. -/

namespace OCNote.Dispatch.Group
open OCNote.Support
open Semaphore (DISPATCH_TIME_FOREVER DSEMA4_TIMEOUT)
set_option autoImplicit false

universe u

inductive Call where
  | enter
  | leave
  | notify
  | wait (timeout : UInt64)
  deriving DecidableEq, Repr

/-- Where a thread is. A point inside a call is named after what the thread does next.
Notifications are known by the order in which they were allocated. -/
inductive Point where
  | outside
  | returned (result : Int64)
  | enter
  | retainEntered
  | leave
  | leaveCmpxchg (old_state : BitVec 64)
  /-- `os_mpsc_capture_snapshot`: the head is read, cleared, and the tail exchanged. -/
  | getHead (dg_state : BitVec 64) (needs_release : Bool)
  | clearHead (dg_state : BitVec 64) (needs_release : Bool) (head : Nat)
  | takeTail (dg_state : BitVec 64) (needs_release : Bool) (head : Nat)
  | async (dg_state : BitVec 64) (needs_release : Bool) (dc tail : Nat)
  | wakeByAddress (refs : Nat)
  | release (refs : Nat)
  | pushTail (dsn : Nat)
  | retainNotified (dsn : Nat)
  | pushPrev (prev : Option Nat) (dsn : Nat)
  | notifyLoad
  | notifyCmpxchg (old_state : BitVec 64)
  | waitLoad (timeout : UInt64)
  | waitCmpxchg (timeout : UInt64) (old_state : BitVec 64)
  /-- `_dispatch_wait_on_address`, which sleeps if the generation is as expected. -/
  | waitOnAddress (timeout : UInt64) (gen : BitVec 32)
  | asleep (timeout : UInt64) (gen : BitVec 32)
  | recheck (timeout : UInt64) (gen : BitVec 32) (timedOut : Bool)
  deriving DecidableEq, Repr

structure State (ι : Type u) where
  dg_state : BitVec 64
  dg_notify_head : Option Nat
  dg_notify_tail : Option Nat
  do_next : Nat → Option Nat
  /-- The references that the group holds to itself. -/
  do_ref_cnt : Int
  /-- The first notification that is not in use. -/
  allocated : Nat
  /-- The notifications submitted to their queues, in this order. -/
  submitted : List Nat
  point : ι → Point
  /-- The message of the crash that has ended the process. -/
  crashed : Option String

inductive Event (ι : Type u) where
  | call (i : ι) (call : Call)
  | go (i : ι)
  /-- The kernel reports that the time is over. -/
  | timesOut (i : ι)
  /-- A weak compare and exchange may fail although the value is the expected one. -/
  | failsSpuriously (i : ι)
  /-- A thread may wake up for no reason. -/
  | wakesSpuriously (i : ι)
  deriving DecidableEq, Repr

/-- What is left to do below the notifications. -/
def release_refs (refs : Nat) : Point := if refs ≠ 0 then .release refs else .returned 0

def wake_waiters (dg_state : BitVec 64) (refs : Nat) : Point :=
  if dg_state &&& DISPATCH_GROUP_HAS_WAITERS ≠ 0#64 then .wakeByAddress refs else release_refs refs

def group_wake (dg_state : BitVec 64) (needs_release : Bool) : Point :=
  if dg_state &&& DISPATCH_GROUP_HAS_NOTIFS ≠ 0#64 then .getHead dg_state needs_release
  else wake_waiters dg_state (if needs_release then 1 else 0)

/-- The new state in the loop of `dispatch_group_leave`. If the group was entered again the bit for
waiters stays. -/
def leave_new_state (old_state : BitVec 64) : BitVec 64 :=
  if old_state &&& DISPATCH_GROUP_VALUE_MASK = 0#64 then
    old_state &&& ~~~DISPATCH_GROUP_HAS_WAITERS &&& ~~~DISPATCH_GROUP_HAS_NOTIFS
  else old_state &&& ~~~DISPATCH_GROUP_HAS_NOTIFS

def leave_loop (old_state : BitVec 64) : Point :=
  if old_state = leave_new_state old_state then group_wake old_state true else .leaveCmpxchg old_state

def notify_loop (old_state : BitVec 64) : Point :=
  if dg_bits old_state = 0#32 then group_wake (old_state ||| DISPATCH_GROUP_HAS_NOTIFS) false
  else .notifyCmpxchg old_state

def wait_loop (timeout : UInt64) (old_state : BitVec 64) : Point :=
  if old_state &&& DISPATCH_GROUP_VALUE_MASK = 0#64 then .returned 0
  else if timeout = 0 then .returned DSEMA4_TIMEOUT
  else if old_state &&& DISPATCH_GROUP_HAS_WAITERS ≠ 0#64 then
    .waitOnAddress timeout (dg_state_gen (old_state ||| DISPATCH_GROUP_HAS_WAITERS))
  else .waitCmpxchg timeout old_state

/-- Whoever sleeps wakes up. -/
def Point.woken : Point → Point
  | asleep timeout gen => recheck timeout gen false
  | p => p

section Model

variable {ι : Type u} [DecidableEq ι]

def State.goto (s : State ι) (i : ι) (p : Point) : State ι :=
  { s with point := Function.update s.point i p }

def State.crash (s : State ι) (message : String) : State ι := { s with crashed := some message }

def dispatch_group_enter (s : State ι) (i : ι) : State ι :=
  let old_bits := dg_bits s.dg_state
  let s := { s with dg_state := with_bits s.dg_state (old_bits - DISPATCH_GROUP_VALUE_INTERVAL.setWidth 32) }
  let old_value := old_bits &&& DISPATCH_GROUP_VALUE_MASK.setWidth 32
  if old_value.setWidth 64 = DISPATCH_GROUP_VALUE_MAX then s.crash "Too many nested calls to dispatch_group_enter()"
  else s.goto i (if old_value.setWidth 64 = 0#64 then .retainEntered else .returned 0)

def dispatch_group_leave (s : State ι) (i : ι) : State ι :=
  let old_state := s.dg_state
  let s := { s with dg_state := old_state + DISPATCH_GROUP_VALUE_INTERVAL }
  let old_value := (old_state &&& DISPATCH_GROUP_VALUE_MASK).setWidth 32
  if old_value.setWidth 64 = DISPATCH_GROUP_VALUE_1 then s.goto i (leave_loop (old_state + DISPATCH_GROUP_VALUE_INTERVAL))
  else if old_value.setWidth 64 = 0#64 then s.crash "Unbalanced call to dispatch_group_leave()"
  else s.goto i (.returned 0)

def leave_cmpxchg (s : State ι) (i : ι) (old_state : BitVec 64) : State ι :=
  if s.dg_state = old_state then
    { s with dg_state := leave_new_state old_state }.goto i (group_wake old_state true)
  else s.goto i (leave_loop s.dg_state)

/-- The head is there, or the thread waits for the one that appends it. -/
def mpsc_get_head (s : State ι) (i : ι) (dg_state : BitVec 64) (needs_release : Bool) : Option (State ι) :=
  s.dg_notify_head.map fun head => s.goto i (.clearHead dg_state needs_release head)

def mpsc_take_tail (s : State ι) (i : ι) (dg_state : BitVec 64) (needs_release : Bool) (head : Nat) : Option (State ι) :=
  s.dg_notify_tail.map fun tail =>
    { s with dg_notify_tail := none }.goto i (.async dg_state needs_release head tail)

/-- `os_mpsc_pop_snapshot_head`, which waits for the link to the next element, and
`_dispatch_continuation_async`. -/
def continuation_async (s : State ι) (i : ι) (dg_state : BitVec 64) (needs_release : Bool) (dc tail : Nat) :
    Option (State ι) :=
  let s' := { s with submitted := s.submitted ++ [dc] }
  if dc = tail then some (s'.goto i (wake_waiters dg_state ((if needs_release then 1 else 0) + 1)))
  else (s.do_next dc).map fun next_dc => s'.goto i (.async dg_state needs_release next_dc tail)

def wake_by_address (s : State ι) (i : ι) (refs : Nat) : State ι :=
  { s with point := fun j => (s.point j).woken }.goto i (release_refs refs)

def mpsc_push_update_tail (s : State ι) (i : ι) (dsn : Nat) : State ι :=
  { s with do_next := Function.update s.do_next dsn none, dg_notify_tail := some dsn }.goto i
    (if s.dg_notify_tail.isNone then .retainNotified dsn else .pushPrev s.dg_notify_tail dsn)

def mpsc_push_update_prev (s : State ι) (i : ι) (prev : Option Nat) (dsn : Nat) : State ι :=
  match prev with
  | some prev => { s with do_next := Function.update s.do_next prev (some dsn) }.goto i (.returned 0)
  | none => { s with dg_notify_head := some dsn }.goto i .notifyLoad

def notify_cmpxchg (s : State ι) (i : ι) (old_state : BitVec 64) : State ι :=
  if s.dg_state = old_state then { s with dg_state := old_state ||| DISPATCH_GROUP_HAS_NOTIFS }.goto i (.returned 0)
  else s.goto i (notify_loop s.dg_state)

def wait_cmpxchg (s : State ι) (i : ι) (timeout : UInt64) (old_state : BitVec 64) : State ι :=
  if s.dg_state = old_state then
    { s with dg_state := old_state ||| DISPATCH_GROUP_HAS_WAITERS }.goto i
      (.waitOnAddress timeout (dg_state_gen (old_state ||| DISPATCH_GROUP_HAS_WAITERS)))
  else s.goto i (wait_loop timeout s.dg_state)

def wait_on_address (s : State ι) (i : ι) (timeout : UInt64) (gen : BitVec 32) : State ι :=
  s.goto i (if dg_state_gen s.dg_state = gen then .asleep timeout gen else .recheck timeout gen false)

def wait_slow (s : State ι) (i : ι) (timeout : UInt64) (gen : BitVec 32) (timedOut : Bool) : State ι :=
  s.goto i (if gen ≠ dg_state_gen s.dg_state then .returned 0
    else if timedOut then .returned DSEMA4_TIMEOUT else .waitOnAddress timeout gen)

def go (s : State ι) (i : ι) : Option (State ι) :=
  match s.point i with
  | .outside | .returned _ | .asleep _ _ => none
  | .enter => some (dispatch_group_enter s i)
  | .retainEntered => some ({ s with do_ref_cnt := s.do_ref_cnt + 1 }.goto i (.returned 0))
  | .leave => some (dispatch_group_leave s i)
  | .leaveCmpxchg old_state => some (leave_cmpxchg s i old_state)
  | .getHead dg_state needs_release => mpsc_get_head s i dg_state needs_release
  | .clearHead dg_state needs_release head =>
    some ({ s with dg_notify_head := none }.goto i (.takeTail dg_state needs_release head))
  | .takeTail dg_state needs_release head => mpsc_take_tail s i dg_state needs_release head
  | .async dg_state needs_release dc tail => continuation_async s i dg_state needs_release dc tail
  | .wakeByAddress refs => some (wake_by_address s i refs)
  | .release refs => some ({ s with do_ref_cnt := s.do_ref_cnt - refs }.goto i (.returned 0))
  | .pushTail dsn => some (mpsc_push_update_tail s i dsn)
  | .retainNotified dsn => some ({ s with do_ref_cnt := s.do_ref_cnt + 1 }.goto i (.pushPrev none dsn))
  | .pushPrev prev dsn => some (mpsc_push_update_prev s i prev dsn)
  | .notifyLoad => some (s.goto i (notify_loop s.dg_state))
  | .notifyCmpxchg old_state => some (notify_cmpxchg s i old_state)
  | .waitLoad timeout => some (s.goto i (wait_loop timeout s.dg_state))
  | .waitCmpxchg timeout old_state => some (wait_cmpxchg s i timeout old_state)
  | .waitOnAddress timeout gen => some (wait_on_address s i timeout gen)
  | .recheck timeout gen timedOut => some (wait_slow s i timeout gen timedOut)

/-- The call begins. Only a notification is allocated at once. -/
def begin_call (s : State ι) (i : ι) : Call → State ι
  | .enter => s.goto i .enter
  | .leave => s.goto i .leave
  | .notify => { s with allocated := s.allocated + 1 }.goto i (.pushTail s.allocated)
  | .wait timeout => s.goto i (.waitLoad timeout)

def step (s : State ι) (e : Event ι) : Option (State ι) :=
  if s.crashed.isSome then none else
  match e with
  | .call i call =>
    match s.point i with
    | .outside | .returned _ => some (begin_call s i call)
    | _ => none
  | .go i => go s i
  | .timesOut i =>
    match s.point i with
    | .waitOnAddress timeout gen | .asleep timeout gen =>
      if timeout = DISPATCH_TIME_FOREVER then none else some (s.goto i (.recheck timeout gen true))
    | _ => none
  | .failsSpuriously i =>
    match s.point i with
    | .notifyCmpxchg _ => some (s.goto i (notify_loop s.dg_state))
    | .waitCmpxchg timeout _ => some (s.goto i (wait_loop timeout s.dg_state))
    | _ => none
  | .wakesSpuriously i =>
    match s.point i with
    | .asleep timeout gen => some (s.goto i (.recheck timeout gen false))
    | _ => none

/-- `_dispatch_group_create_with_count` -/
def group_create_with_count (ι : Type u) (n : BitVec 32) : State ι where
  dg_state := (-n * DISPATCH_GROUP_VALUE_INTERVAL.setWidth 32).setWidth 64
  dg_notify_head := none
  dg_notify_tail := none
  do_next _ := none
  do_ref_cnt := if n ≠ 0#32 then 1 else 0
  allocated := 0
  submitted := []
  point _ := .outside
  crashed := none

/-- The message of the crash, if the group may not be disposed of. -/
def group_dispose (s : State ι) : Option String :=
  if dg_bits s.dg_state ≠ 0#32 then some "Group object deallocated while in use" else none

def group (ι : Type u) [DecidableEq ι] (n : BitVec 32) : Machine (State ι) (Event ι) where
  start := group_create_with_count ι n
  step := step

end Model

def Event.thread {ι : Type u} : Event ι → ι
  | call i _ | go i | timesOut i | failsSpuriously i | wakesSpuriously i => i

namespace Point

def idle : Point → Bool
  | outside | returned _ => true
  | _ => false

/-- The thread is inside `dispatch_group_wait`. -/
def waits : Point → Bool
  | waitLoad _ | waitCmpxchg _ _ | waitOnAddress _ _ | asleep _ _ | recheck _ _ _ => true
  | _ => false

end Point

section Moves

variable {ι : Type u} [DecidableEq ι]

theorem goto_point (s : State ι) (i : ι) (p : Point) : (s.goto i p).point i = p := Function.update_self ..

theorem goto_point_of_ne {i j : ι} (h : j ≠ i) (s : State ι) (p : Point) : (s.goto i p).point j = s.point j :=
  Function.update_of_ne h ..

/-- How often the group is entered. -/
def State.count (s : State ι) : Nat := (fields s.dg_state).count

/-- What a thread in `dispatch_group_wait` can do short of setting the bit for waiters. -/
inductive Waits (s : State ι) (i : ι) : Point → Prop
  | loads (timeout : UInt64) (hPoint : s.point i = .waitLoad timeout ∨ ∃ old, s.point i = .waitCmpxchg timeout old) :
      Waits s i (wait_loop timeout s.dg_state)
  | sleeps (timeout : UInt64) (gen : BitVec 32) (hPoint : s.point i = .waitOnAddress timeout gen)
      (hGen : (fields s.dg_state).gen = gen) : Waits s i (.asleep timeout gen)
  | wakes (timeout : UInt64) (gen : BitVec 32) (timedOut : Bool)
      (hPoint : s.point i = .waitOnAddress timeout gen ∨ s.point i = .asleep timeout gen) :
      Waits s i (.recheck timeout gen timedOut)
  | sees (timeout : UInt64) (gen : BitVec 32) (timedOut : Bool) (hPoint : s.point i = .recheck timeout gen timedOut)
      (hGen : (fields s.dg_state).gen ≠ gen) : Waits s i (.returned 0)
  | expires (timeout : UInt64) (gen : BitVec 32) (hPoint : s.point i = .recheck timeout gen true) :
      Waits s i (.returned DSEMA4_TIMEOUT)
  | again (timeout : UInt64) (gen : BitVec 32) (hPoint : s.point i = .recheck timeout gen false) :
      Waits s i (.waitOnAddress timeout gen)

/-- What a step of a thread can do. -/
inductive Moves (s : State ι) (i : ι) : State ι → Prop
  | begins (call : Call) (hPoint : (s.point i).idle = true) : Moves s i (begin_call s i call)
  | enters (word : BitVec 64) (hPoint : s.point i = .enter) (hRoom : s.count ≠ 2 ^ 30 - 1)
      (hWord : fields word = (fields s.dg_state).enter) :
      Moves s i ({ s with dg_state := word }.goto i (if s.count = 0 then .retainEntered else .returned 0))
  | overflows (word : BitVec 64) (hPoint : s.point i = .enter) (hFull : s.count = 2 ^ 30 - 1) :
      Moves s i ({ s with dg_state := word }.crash "Too many nested calls to dispatch_group_enter()")
  | retainsEntered (hPoint : s.point i = .retainEntered) :
      Moves s i ({ s with do_ref_cnt := s.do_ref_cnt + 1 }.goto i (.returned 0))
  | leaves (word : BitVec 64) (hPoint : s.point i = .leave) (hMore : 1 < s.count)
      (hWord : fields word = (fields s.dg_state).leave) : Moves s i ({ s with dg_state := word }.goto i (.returned 0))
  | leavesLast (word : BitVec 64) (hPoint : s.point i = .leave) (hLast : s.count = 1)
      (hWord : fields word = (fields s.dg_state).leave) : Moves s i ({ s with dg_state := word }.goto i (leave_loop word))
  | unbalanced (word : BitVec 64) (hPoint : s.point i = .leave) (hEmpty : s.count = 0) :
      Moves s i ({ s with dg_state := word }.crash "Unbalanced call to dispatch_group_leave()")
  | clears (hPoint : s.point i = .leaveCmpxchg s.dg_state) :
      Moves s i ({ s with dg_state := leave_new_state s.dg_state }.goto i (group_wake s.dg_state true))
  | reloads (old_state : BitVec 64) (hPoint : s.point i = .leaveCmpxchg old_state) (hOther : s.dg_state ≠ old_state) :
      Moves s i (s.goto i (leave_loop s.dg_state))
  | getsHead (dg_state : BitVec 64) (needs_release : Bool) (head : Nat)
      (hPoint : s.point i = .getHead dg_state needs_release) (hHead : s.dg_notify_head = some head) :
      Moves s i (s.goto i (.clearHead dg_state needs_release head))
  | clearsHead (dg_state : BitVec 64) (needs_release : Bool) (head : Nat)
      (hPoint : s.point i = .clearHead dg_state needs_release head) :
      Moves s i ({ s with dg_notify_head := none }.goto i (.takeTail dg_state needs_release head))
  | takesTail (dg_state : BitVec 64) (needs_release : Bool) (head tail : Nat)
      (hPoint : s.point i = .takeTail dg_state needs_release head) (hTail : s.dg_notify_tail = some tail) :
      Moves s i ({ s with dg_notify_tail := none }.goto i (.async dg_state needs_release head tail))
  | submitsLast (dg_state : BitVec 64) (needs_release : Bool) (dc : Nat)
      (hPoint : s.point i = .async dg_state needs_release dc dc) :
      Moves s i ({ s with submitted := s.submitted ++ [dc] }.goto i
        (wake_waiters dg_state ((if needs_release then 1 else 0) + 1)))
  | submits (dg_state : BitVec 64) (needs_release : Bool) (dc next_dc tail : Nat)
      (hPoint : s.point i = .async dg_state needs_release dc tail) (hMore : dc ≠ tail)
      (hNext : s.do_next dc = some next_dc) :
      Moves s i ({ s with submitted := s.submitted ++ [dc] }.goto i (.async dg_state needs_release next_dc tail))
  | wakes (refs : Nat) (hPoint : s.point i = .wakeByAddress refs) : Moves s i (wake_by_address s i refs)
  | releases (refs : Nat) (hPoint : s.point i = .release refs) :
      Moves s i ({ s with do_ref_cnt := s.do_ref_cnt - refs }.goto i (.returned 0))
  | pushes (dsn : Nat) (hPoint : s.point i = .pushTail dsn) : Moves s i (mpsc_push_update_tail s i dsn)
  | retainsNotified (dsn : Nat) (hPoint : s.point i = .retainNotified dsn) :
      Moves s i ({ s with do_ref_cnt := s.do_ref_cnt + 1 }.goto i (.pushPrev none dsn))
  | links (prev dsn : Nat) (hPoint : s.point i = .pushPrev (some prev) dsn) :
      Moves s i ({ s with do_next := Function.update s.do_next prev (some dsn) }.goto i (.returned 0))
  | setsHead (dsn : Nat) (hPoint : s.point i = .pushPrev none dsn) :
      Moves s i ({ s with dg_notify_head := some dsn }.goto i .notifyLoad)
  | looks (hPoint : s.point i = .notifyLoad ∨ ∃ old_state, s.point i = .notifyCmpxchg old_state) :
      Moves s i (s.goto i (notify_loop s.dg_state))
  | announces (hPoint : s.point i = .notifyCmpxchg s.dg_state) :
      Moves s i ({ s with dg_state := s.dg_state ||| DISPATCH_GROUP_HAS_NOTIFS }.goto i (.returned 0))
  | waits (p : Point) (hWaits : Waits s i p) : Moves s i (s.goto i p)
  | setsWaiters (timeout : UInt64) (hPoint : s.point i = .waitCmpxchg timeout s.dg_state) :
      Moves s i ({ s with dg_state := s.dg_state ||| DISPATCH_GROUP_HAS_WAITERS }.goto i
        (.waitOnAddress timeout (fields s.dg_state).gen))

theorem moves_of_enter {s : State ι} {i : ι} (hPoint : s.point i = .enter) : Moves s i (dispatch_group_enter s i) := by
  unfold dispatch_group_enter
  dsimp only
  rw [masked_bits]
  split
  · exact .overflows _ hPoint ((full_iff _).mp ‹_›)
  · rename_i hRoom
    simp only [empty_iff]
    exact .enters _ hPoint (mt (full_iff _).mpr hRoom) (fields_enter _)

theorem moves_of_leave {s : State ι} {i : ι} (hPoint : s.point i = .leave) : Moves s i (dispatch_group_leave s i) := by
  unfold dispatch_group_leave
  dsimp only
  rw [setWidth_masked]
  split
  · exact .leavesLast _ hPoint ((last_iff _).mp ‹_›) (fields_leave _)
  · rename_i hNotLast
    split
    · exact .unbalanced _ hPoint ((empty_iff _).mp ‹_›)
    · rename_i hNotEmpty
      have hOne : s.count ≠ 1 := mt (last_iff _).mpr hNotLast
      have hZero : s.count ≠ 0 := mt (empty_iff _).mpr hNotEmpty
      exact .leaves _ hPoint (by omega) (fields_leave _)

theorem gen_or_waiters (w : BitVec 64) : dg_state_gen (w ||| DISPATCH_GROUP_HAS_WAITERS) = (fields w).gen := by
  rw [gen_eq, fields_or_waiters]

theorem moves_of_wait_cmpxchg {s : State ι} {i : ι} {timeout : UInt64} {old_state : BitVec 64}
    (hPoint : s.point i = .waitCmpxchg timeout old_state) : Moves s i (wait_cmpxchg s i timeout old_state) := by
  unfold wait_cmpxchg
  split
  · rename_i hSame
    rw [← hSame, gen_or_waiters]
    exact .setsWaiters timeout (hSame ▸ hPoint)
  · exact .waits _ (.loads timeout (.inr ⟨old_state, hPoint⟩))

theorem moves_of_async {s s' : State ι} {i : ι} {dg_state : BitVec 64} {needs_release : Bool} {dc tail : Nat}
    (hPoint : s.point i = .async dg_state needs_release dc tail)
    (h : continuation_async s i dg_state needs_release dc tail = some s') : Moves s i s' := by
  unfold continuation_async at h
  dsimp only at h
  split at h
  · rename_i hLast
    cases h
    cases hLast
    exact .submitsLast dg_state needs_release dc hPoint
  · obtain ⟨next_dc, hNext, rfl⟩ := Option.map_eq_some_iff.mp h
    exact .submits dg_state needs_release dc next_dc tail hPoint ‹_› hNext

theorem moves_of_go {s s' : State ι} {i : ι} (h : go s i = some s') : Moves s i s' := by
  unfold go at h
  cases hPoint : s.point i <;> rw [hPoint] at h <;> dsimp only at h
  case outside | returned | asleep => cases h
  case enter =>
    cases h
    exact moves_of_enter hPoint
  case retainEntered =>
    cases h
    exact .retainsEntered hPoint
  case leave =>
    cases h
    exact moves_of_leave hPoint
  case leaveCmpxchg old_state =>
    cases h
    unfold leave_cmpxchg
    split
    · rename_i hSame
      rw [← hSame]
      exact .clears (hSame ▸ hPoint)
    · exact .reloads old_state hPoint ‹_›
  case getHead dg_state needs_release =>
    obtain ⟨head, hHead, rfl⟩ := Option.map_eq_some_iff.mp h
    exact .getsHead dg_state needs_release head hPoint hHead
  case clearHead dg_state needs_release head =>
    cases h
    exact .clearsHead dg_state needs_release head hPoint
  case takeTail dg_state needs_release head =>
    obtain ⟨tail, hTail, rfl⟩ := Option.map_eq_some_iff.mp h
    exact .takesTail dg_state needs_release head tail hPoint hTail
  case async dg_state needs_release dc tail => exact moves_of_async hPoint h
  case wakeByAddress refs =>
    cases h
    exact .wakes refs hPoint
  case release refs =>
    cases h
    exact .releases refs hPoint
  case pushTail dsn =>
    cases h
    exact .pushes dsn hPoint
  case retainNotified dsn =>
    cases h
    exact .retainsNotified dsn hPoint
  case pushPrev prev dsn =>
    cases h
    cases prev with
    | none => exact .setsHead dsn hPoint
    | some prev => exact .links prev dsn hPoint
  case notifyLoad =>
    cases h
    exact .looks (.inl hPoint)
  case notifyCmpxchg old_state =>
    cases h
    unfold notify_cmpxchg
    split
    · rename_i hSame
      rw [← hSame]
      exact .announces (hSame ▸ hPoint)
    · exact .looks (.inr ⟨old_state, hPoint⟩)
  case waitLoad timeout =>
    cases h
    exact .waits _ (.loads timeout (.inl hPoint))
  case waitCmpxchg timeout old_state =>
    cases h
    exact moves_of_wait_cmpxchg hPoint
  case waitOnAddress timeout gen =>
    cases h
    unfold wait_on_address
    rw [gen_eq]
    split
    · exact .waits _ (.sleeps timeout gen hPoint ‹_›)
    · exact .waits _ (.wakes timeout gen false (.inl hPoint))
  case recheck timeout gen timedOut =>
    cases h
    unfold wait_slow
    rw [gen_eq]
    split
    · rename_i hGen
      exact .waits _ (.sees timeout gen timedOut hPoint hGen.symm)
    · cases timedOut with
      | true => exact .waits _ (.expires timeout gen hPoint)
      | false => exact .waits _ (.again timeout gen hPoint)

theorem moves_of_step {s s' : State ι} {e : Event ι} (h : step s e = some s') :
    s.crashed = none ∧ Moves s e.thread s' := by
  obtain ⟨hAlive, h⟩ := Option.ite_none_left_eq_some.mp h
  refine ⟨by simpa using hAlive, ?_⟩
  cases e with
  | call i call =>
    dsimp only at h
    split at h
    · cases h
      exact .begins call (by rw [Event.thread, ‹s.point i = _›]; rfl)
    · cases h
      exact .begins call (by rw [Event.thread, ‹s.point i = _›]; rfl)
    · cases h
  | go i => exact moves_of_go h
  | timesOut i =>
    dsimp only at h
    split at h
    · obtain ⟨_, h⟩ := Option.ite_none_left_eq_some.mp h
      cases h
      exact .waits _ (.wakes _ _ true (.inl ‹_›))
    · obtain ⟨_, h⟩ := Option.ite_none_left_eq_some.mp h
      cases h
      exact .waits _ (.wakes _ _ true (.inr ‹_›))
    · cases h
  | failsSpuriously i =>
    dsimp only at h
    split at h
    · cases h
      exact .looks (.inr ⟨_, ‹_›⟩)
    · cases h
      exact .waits _ (.loads _ (.inr ⟨_, ‹_›⟩))
    · cases h
  | wakesSpuriously i =>
    dsimp only at h
    split at h
    · cases h
      exact .waits _ (.wakes _ _ false (.inr ‹_›))
    · cases h

end Moves

end OCNote.Dispatch.Group
