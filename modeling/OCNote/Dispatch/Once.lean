import Mathlib.Logic.Function.Basic
import OCNote.Dispatch.LockWord
import OCNote.Support.Machine

/-! # dispatch_once

Threads call `dispatch_once_f` on one token, whose block changes what they share. The block may itself
call `dispatch_once` on the token. A processor either has a counter of quiescent states, and then the
token ends as a generation of that counter before it is marked as done, or it has none. -/

namespace OCNote.Dispatch.Once
open OCNote.Support
set_option autoImplicit false

universe u v

/-- Where a thread is. A point inside a call is named after what the thread does next. -/
inductive Point where
  | outside
  | returned
  /-- `os_atomic_load(&l->dgo_once, acquire)` -/
  | load
  | tryenter
  /-- `_dispatch_client_callout`: the block runs. -/
  | callout
  /-- `_dispatch_once_gate_broadcast` -/
  | broadcast
  /-- `_dispatch_unfair_lock_wake` with `ULF_WAKE_ALL` -/
  | wake
  /-- `_dispatch_once_mark_done_if_quiesced`, which reads the counter first. -/
  | readGeneration (gen : BitVec 64)
  | storeDone
  /-- `_dispatch_once_wait`: the load and the compare and exchange of its loop. -/
  | waitLoad
  | waitCmpxchg (old_v : BitVec 64)
  /-- `_dispatch_unfair_lock_wait`, which sleeps if the lower half of the token is as expected. -/
  | unfairLockWait (new_v : BitVec 64)
  | asleep
  deriving DecidableEq, Repr

structure State (ι : Type u) (γ : Type v) where
  dgo_once : BitVec 64
  shared : γ
  /-- `_COMM_PAGE_CPU_QUIESCENT_COUNTER` -/
  counter : BitVec 64
  point : ι → Point
  /-- The call of the thread was made by the block, which the thread is running. -/
  nested : ι → Bool
  /-- The message of the crash that has ended the process. -/
  crashed : Option String

inductive Event (ι : Type u) where
  /-- The thread, or the block that it is running, calls `dispatch_once`. -/
  | call (i : ι)
  | go (i : ι)
  /-- A weak compare and exchange may fail although the value is the expected one. -/
  | failsSpuriously (i : ι)
  /-- A thread may wake up for no reason. -/
  | wakesSpuriously (i : ι)
  /-- All processors have switched contexts. -/
  | quiesce
  deriving DecidableEq, Repr

/-- What a build and a program fix: whether there is a quiescent counter, the ports of the
threads, and what the block does. -/
structure Setting (ι : Type u) (γ : Type v) where
  quiescent : Bool
  tid : ι → BitVec 32
  block : γ → γ

section Model

variable {ι : Type u} {γ : Type v} [DecidableEq ι] (E : Setting ι γ)

def Setting.self (i : ι) : BitVec 32 := lock_value_from_tid (E.tid i)

def State.goto (s : State ι γ) (i : ι) (p : Point) : State ι γ :=
  { s with point := Function.update s.point i p }

/-- The call returns to the caller, or to the block that made it. -/
def State.finish (s : State ι γ) (i : ι) : State ι γ :=
  if s.nested i then { s with nested := Function.update s.nested i false }.goto i .callout
  else s.goto i .returned

def State.crash (s : State ι γ) (message : String) : State ι γ := { s with crashed := some message }

def dispatch_once_f (s : State ι γ) (i : ι) : State ι γ :=
  if s.dgo_once = DLOCK_ONCE_DONE then s.finish i
  else if E.quiescent && DISPATCH_ONCE_IS_GEN s.dgo_once then s.goto i (.readGeneration s.dgo_once)
  else s.goto i .tryenter

def once_gate_tryenter (s : State ι γ) (i : ι) : State ι γ :=
  if s.dgo_once = DLOCK_ONCE_UNLOCKED then { s with dgo_once := (E.self i).setWidth 64 }.goto i .callout
  else s.goto i .waitLoad

/-- The end of the block. -/
def once_callout (s : State ι γ) (i : ι) : State ι γ := { s with shared := E.block s.shared }.goto i .broadcast

/-- The exchange of `_dispatch_once_gate_broadcast`. -/
def once_gate_broadcast (s : State ι γ) (i : ι) : State ι γ :=
  let v := s.dgo_once
  let s := { s with dgo_once := if E.quiescent then DISPATCH_ONCE_MAKE_GEN s.counter else DLOCK_ONCE_DONE }
  if v.setWidth 32 = E.self i then s.finish i
  else if lock_is_locked_by (v.setWidth 32) (E.tid i) then s.goto i .wake
  else s.crash "lock not owned by current thread"

/-- Everyone who sleeps wakes up. -/
def gate_broadcast_slow (s : State ι γ) (i : ι) : State ι γ :=
  State.finish { s with point := fun j => if s.point j = .asleep then .waitLoad else s.point j } i

def once_mark_done_if_quiesced (s : State ι γ) (i : ι) (gen : BitVec 64) : State ι γ :=
  if DISPATCH_ONCE_GEN_SAFE_DELTA ≤ DISPATCH_ONCE_MAKE_GEN s.counter - gen then s.goto i .storeDone
  else s.finish i

/-- Below the loop of `_dispatch_once_wait` that sets the bit for waiters. -/
def sleep_unless_recursive (s : State ι γ) (i : ι) (old_v new_v : BitVec 64) : State ι γ :=
  if lock_is_locked_by (old_v.setWidth 32) (E.self i) then s.crash "trying to lock recursively"
  else s.goto i (.unfairLockWait new_v)

/-- The body of that loop, with the value that has been read last. -/
def once_wait_body (s : State ι γ) (i : ι) : State ι γ :=
  let old_v := s.dgo_once
  if old_v = DLOCK_ONCE_DONE then s.finish i
  else if E.quiescent && DISPATCH_ONCE_IS_GEN old_v then s.goto i (.readGeneration old_v)
  else if old_v ||| DLOCK_WAITERS_BIT.setWidth 64 = old_v then sleep_unless_recursive E s i old_v old_v
  else s.goto i (.waitCmpxchg old_v)

def once_wait_cmpxchg (s : State ι γ) (i : ι) (old_v : BitVec 64) : State ι γ :=
  if s.dgo_once = old_v then
    sleep_unless_recursive E { s with dgo_once := old_v ||| DLOCK_WAITERS_BIT.setWidth 64 } i old_v
      (old_v ||| DLOCK_WAITERS_BIT.setWidth 64)
  else once_wait_body E s i

def unfair_lock_wait (s : State ι γ) (i : ι) (new_v : BitVec 64) : State ι γ :=
  s.goto i (if s.dgo_once.setWidth 32 = new_v.setWidth 32 then .asleep else .waitLoad)

def go (s : State ι γ) (i : ι) : Option (State ι γ) :=
  match s.point i with
  | .outside | .returned | .asleep => none
  | .load => some (dispatch_once_f E s i)
  | .tryenter => some (once_gate_tryenter E s i)
  | .callout => some (once_callout E s i)
  | .broadcast => some (once_gate_broadcast E s i)
  | .wake => some (gate_broadcast_slow s i)
  | .readGeneration gen => some (once_mark_done_if_quiesced s i gen)
  | .storeDone => some ({ s with dgo_once := DLOCK_ONCE_DONE }.finish i)
  | .waitLoad => some (once_wait_body E s i)
  | .waitCmpxchg old_v => some (once_wait_cmpxchg E s i old_v)
  | .unfairLockWait new_v => some (unfair_lock_wait s i new_v)

def step (s : State ι γ) (e : Event ι) : Option (State ι γ) :=
  if s.crashed.isSome then none else
  match e with
  | .call i =>
    match s.point i with
    | .outside | .returned => some (s.goto i .load)
    | .callout => some ({ s with nested := Function.update s.nested i true }.goto i .load)
    | _ => none
  | .go i => go E s i
  | .failsSpuriously i =>
    match s.point i with
    | .waitCmpxchg _ => some (once_wait_body E s i)
    | _ => none
  | .wakesSpuriously i =>
    match s.point i with
    | .asleep => some (s.goto i .waitLoad)
    | _ => none
  | .quiesce => some { s with counter := s.counter + 1 }

def once (initial : γ) : Machine (State ι γ) (Event ι) where
  start := {
    dgo_once := DLOCK_ONCE_UNLOCKED
    shared := initial
    counter := 0
    point := fun _ => .outside
    nested := fun _ => false
    crashed := none }
  step := step E

end Model

theorem heldWord_false (tid : BitVec 32) : (lock_value_from_tid tid).setWidth 64 = heldWord tid false := by
  rw [heldWord, if_neg Bool.false_ne_true, BitVec.or_zero]

section Invariant

variable {ι : Type u} {γ : Type v} (E : Setting ι γ) (initial : γ)

/-- Where a thread can be before anyone has entered. -/
inductive Early : Point → Prop
  | outside : Early .outside
  | load : Early .load
  | tryenter : Early .tryenter

/-- Where a thread can be while another one runs the block. -/
inductive Other (tid : BitVec 32) (waiters : Bool) : Point → Prop
  | early {p : Point} (h : Early p) : Other tid waiters p
  | waitLoad : Other tid waiters .waitLoad
  | waitCmpxchg (w : Bool) : Other tid waiters (.waitCmpxchg (heldWord tid w))
  | unfairLockWait (hWaiters : waiters = true) : Other tid waiters (.unfairLockWait (heldWord tid true))
  | asleep (hWaiters : waiters = true) : Other tid waiters .asleep

/-- Where the thread that has entered can be, and what it has done by then. -/
inductive Owner (tid : BitVec 32) : Bool → Point → γ → Prop
  | callout : Owner tid false .callout initial
  | broadcast : Owner tid false .broadcast (E.block initial)
  | load : Owner tid true .load initial
  | tryenter : Owner tid true .tryenter initial
  | waitLoad : Owner tid true .waitLoad initial
  | waitCmpxchg (w : Bool) : Owner tid true (.waitCmpxchg (heldWord tid w)) initial

/-- Where a thread can be once the block has run. -/
inductive Late : Point → Prop
  | early {p : Point} (h : Early p) : Late p
  | returned : Late .returned
  | wake : Late .wake
  | readGeneration (gen : BitVec 64) : Late (.readGeneration gen)
  | storeDone : Late .storeDone
  | waitLoad : Late .waitLoad
  | waitCmpxchg (i : ι) (w : Bool) : Late (.waitCmpxchg (heldWord (E.tid i) w))
  | unfairLockWait (i : ι) : Late (.unfairLockWait (heldWord (E.tid i) true))
  | asleep : Late .asleep

structure Unlocked (s : State ι γ) : Prop where
  word : s.dgo_once = DLOCK_ONCE_UNLOCKED
  shared : s.shared = initial
  threads : ∀ i, s.nested i = false ∧ Early (s.point i)

structure Held (i : ι) (waiters : Bool) (s : State ι γ) : Prop where
  word : s.dgo_once = heldWord (E.tid i) waiters
  owner : Owner E initial (E.tid i) (s.nested i) (s.point i) s.shared
  others : ∀ j, j ≠ i → s.nested j = false ∧ Other (E.tid i) waiters (s.point j)

structure Done (s : State ι γ) : Prop where
  word : s.dgo_once = DLOCK_ONCE_DONE ∨ E.quiescent = true ∧ DISPATCH_ONCE_IS_GEN s.dgo_once = true
  shared : s.shared = E.block initial
  threads : ∀ i, s.nested i = false ∧ Late E (s.point i)
  wakes : (∃ i, s.point i = .asleep) → ∃ i, s.point i = .wake

inductive Fits (s : State ι γ) : Prop
  | unlocked (h : Unlocked initial s)
  | held (i : ι) (waiters : Bool) (h : Held E initial i waiters s)
  | done (h : Done E initial s)

end Invariant

end OCNote.Dispatch.Once
