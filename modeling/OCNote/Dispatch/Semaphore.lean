import OCNote.Support.CountingSemaphore
import OCNote.Support.Tally

/-! # dispatch_semaphore_t

Any finite number of threads call `dispatch_semaphore_signal` and `dispatch_semaphore_wait`
on one object. Every access to memory is a step of its own, and so is every call into
the kernel. The kernel semaphore is created on demand, by whichever thread comes first. -/

namespace OCNote.Dispatch.Semaphore
open OCNote.Support
set_option autoImplicit false

universe u

def DISPATCH_TIME_NOW : UInt64 := 0

def DISPATCH_TIME_FOREVER : UInt64 := ~~~0

/-- `KERN_OPERATION_TIMED_OUT`. -/
def DSEMA4_TIMEOUT : Int64 := 49

structure DispatchSemaphore where
  dsema_value : Int64
  dsema_orig : Int64
  /-- The permits of the kernel semaphore, `none` for `MACH_PORT_NULL`. -/
  dsema_sema : Option Nat
  deriving DecidableEq, Repr

def dispatch_semaphore_create (value : Int64) : Option DispatchSemaphore :=
  if value < 0 then none else some { dsema_value := value, dsema_orig := value, dsema_sema := none }

/-- The message of the crash, if the semaphore may not be disposed of. -/
def dispatch_semaphore_dispose (dsema : DispatchSemaphore) : Option String :=
  if dsema.dsema_value < dsema.dsema_orig then some "Semaphore object deallocated while in use" else none

inductive Call where
  | signal
  | wait (timeout : UInt64)
  deriving DecidableEq, Repr

/-- Where a thread is. A point inside a call is named after what the thread does next. -/
inductive Point where
  | outside
  | returned (result : Int64)
  | inc
  | dec (timeout : UInt64)
  | create (call : Call)
  | createSlow (call : Call)
  | sema4Signal
  | sema4Timedwait (timeout : UInt64)
  | load (timeout : UInt64)
  | cmpxchg (timeout : UInt64) (orig : Int64)
  | sema4Wait (timeout : UInt64)
  deriving DecidableEq, Repr

structure State (ι : Type u) where
  dsema : DispatchSemaphore
  point : ι → Point
  /-- The message of the crash that has ended the process. -/
  crashed : Option String

inductive Event (ι : Type u) where
  | call (i : ι) (call : Call)
  | go (i : ι)
  /-- The kernel reports that the time is over. -/
  | timesOut (i : ι)
  /-- A weak compare and exchange may fail although the value is the expected one. -/
  | failsSpuriously (i : ι)
  deriving DecidableEq, Repr

/-- What follows `_dispatch_sema4_create`: the rest of `_dispatch_semaphore_signal_slow`,
or the switch of `_dispatch_semaphore_wait_slow`. -/
def Call.slow : Call → Point
  | .signal => .sema4Signal
  | .wait timeout =>
    if timeout = DISPATCH_TIME_NOW then .load timeout
    else if timeout = DISPATCH_TIME_FOREVER then .sema4Wait timeout
    else .sema4Timedwait timeout

/-- The condition of the loop that undoes the decrement. Below it the case falls through. -/
def undoLoop (timeout : UInt64) (orig : Int64) : Point :=
  if orig < 0 then .cmpxchg timeout orig else .sema4Wait timeout

section Model

variable {ι : Type u} [DecidableEq ι]

def State.goto (s : State ι) (i : ι) (p : Point) : State ι :=
  { s with point := Function.update s.point i p }

def State.setValue (s : State ι) (value : Int64) : State ι :=
  { s with dsema := { s.dsema with dsema_value := value } }

def State.setSema (s : State ι) (permits : Nat) : State ι :=
  { s with dsema := { s.dsema with dsema_sema := some permits } }

/-- The value as a number. -/
def State.value (s : State ι) : Int := s.dsema.dsema_value.toInt

def State.crash (s : State ι) (message : String) : State ι := { s with crashed := some message }

def dispatch_semaphore_signal (s : State ι) (i : ι) : State ι :=
  let value := s.dsema.dsema_value + 1
  if 0 < value then (s.setValue value).goto i (.returned 0)
  else if value = Int64.minValue then
    (s.setValue value).crash "Unbalanced call to dispatch_semaphore_signal()"
  else (s.setValue value).goto i (.create .signal)

def dispatch_semaphore_wait (s : State ι) (i : ι) (timeout : UInt64) : State ι :=
  let value := s.dsema.dsema_value - 1
  if 0 ≤ value then (s.setValue value).goto i (.returned 0)
  else (s.setValue value).goto i (.create (.wait timeout))

def sema4_create (s : State ι) (i : ι) (call : Call) : State ι :=
  s.goto i (if s.dsema.dsema_sema.isSome then call.slow else .createSlow call)

/-- Of two threads that create a kernel semaphore the second destroys its own. -/
def sema4_create_slow (s : State ι) (i : ι) (call : Call) : State ι :=
  match s.dsema.dsema_sema with
  | none => (s.setSema 0).goto i call.slow
  | some _ => s.goto i call.slow

def sema4_signal (s : State ι) (i : ι) : State ι :=
  match s.dsema.dsema_sema with
  | none => s.crash "mach semaphore API failure"
  | some permits => (s.setSema (permits + 1)).goto i (.returned 1)

/-- Both `semaphore_wait` and `semaphore_timedwait` return with a permit of the kernel semaphore,
and block as long as there is none. -/
def sema4_wait (s : State ι) (i : ι) : Option (State ι) :=
  match s.dsema.dsema_sema with
  | none => some (s.crash "mach semaphore API failure")
  | some 0 => none
  | some (permits + 1) => some ((s.setSema permits).goto i (.returned 0))

def undo (s : State ι) (i : ι) (timeout : UInt64) (orig : Int64) : State ι :=
  if s.dsema.dsema_value = orig then (s.setValue (orig + 1)).goto i (.returned DSEMA4_TIMEOUT)
  else s.goto i (undoLoop timeout s.dsema.dsema_value)

def go (s : State ι) (i : ι) : Option (State ι) :=
  match s.point i with
  | .outside | .returned _ => none
  | .inc => some (dispatch_semaphore_signal s i)
  | .dec timeout => some (dispatch_semaphore_wait s i timeout)
  | .create call => some (sema4_create s i call)
  | .createSlow call => some (sema4_create_slow s i call)
  | .sema4Signal => some (sema4_signal s i)
  | .sema4Timedwait _ | .sema4Wait _ => sema4_wait s i
  | .load timeout => some (s.goto i (undoLoop timeout s.dsema.dsema_value))
  | .cmpxchg timeout orig => some (undo s i timeout orig)

def Call.entry : Call → Point
  | .signal => .inc
  | .wait timeout => .dec timeout

def step (s : State ι) (e : Event ι) : Option (State ι) :=
  if s.crashed.isSome then none else
  match e with
  | .call i call =>
    match s.point i with
    | .outside | .returned _ => some (s.goto i call.entry)
    | _ => none
  | .go i => go s i
  | .timesOut i =>
    match s.point i with
    | .sema4Timedwait timeout => some (s.goto i (.load timeout))
    | _ => none
  | .failsSpuriously i =>
    match s.point i with
    | .cmpxchg timeout _ => some (s.goto i (undoLoop timeout s.dsema.dsema_value))
    | _ => none

def semaphore (ι : Type u) [DecidableEq ι] (dsema : DispatchSemaphore) : Machine (State ι) (Event ι) where
  start := { dsema, point := fun _ => .outside, crashed := none }
  step := step

end Model

theorem toInt_add_one {v : Int64} (h : v.toInt < 2 ^ 63 - 1) : (v + 1).toInt = v.toInt + 1 := by
  have hLow := v.le_toInt
  rw [Int64.toInt_add, Int64.toInt_one, Int.bmod_eq_of_le] <;> omega

theorem toInt_sub_one {v : Int64} (h : -2 ^ 63 < v.toInt) : (v - 1).toInt = v.toInt - 1 := by
  have hHigh := v.toInt_lt
  rw [Int64.toInt_sub, Int64.toInt_one, Int.bmod_eq_of_le] <;> omega

theorem add_one_eq_minValue_iff {v : Int64} : v + 1 = Int64.minValue ↔ v.toInt = 2 ^ 63 - 1 := by
  have hLow := v.le_toInt
  have hHigh := v.toInt_lt
  rw [← Int64.toInt_inj, Int64.toInt_minValue]
  constructor
  · intro h
    by_contra hv
    rw [toInt_add_one (by omega)] at h
    omega
  · intro hv
    rw [Int64.toInt_add, Int64.toInt_one, hv]
    decide

namespace Point

def idle : Point → Bool
  | outside | returned _ => true
  | _ => false

/-- The thread has taken one off the value and has neither been let through nor put it back. -/
def waiting : Point → Nat
  | create (.wait _) | createSlow (.wait _) | sema4Timedwait _ | load _ | cmpxchg _ _ | sema4Wait _ => 1
  | _ => 0

/-- The thread has counted its signal and still owes the kernel semaphore a permit. -/
def posting : Point → Nat
  | create .signal | createSlow .signal | sema4Signal => 1
  | _ => 0

/-- What a thread knows at a point. The slow paths have a kernel semaphore, and a wait
without an end is never undone. -/
def Sound (sema : Option Nat) : Point → Prop
  | sema4Signal | sema4Wait _ => sema.isSome = true
  | sema4Timedwait timeout | load timeout => sema.isSome = true ∧ timeout ≠ DISPATCH_TIME_FOREVER
  | cmpxchg timeout orig => sema.isSome = true ∧ timeout ≠ DISPATCH_TIME_FOREVER ∧ orig < 0
  | _ => True

theorem waiting_le_one (p : Point) : p.waiting ≤ 1 := by
  unfold waiting
  split <;> decide

theorem Sound.of_isSome {sema sema' : Option Nat} {p : Point} (h : p.Sound sema) (hSome : sema'.isSome = true) :
    p.Sound sema' := by
  cases p <;> first | exact hSome | exact ⟨hSome, h.2⟩ | exact trivial

theorem slow_wait (timeout : UInt64) :
    (Call.wait timeout).slow = load timeout ∧ timeout = DISPATCH_TIME_NOW ∨
      (Call.wait timeout).slow = sema4Wait timeout ∧ timeout = DISPATCH_TIME_FOREVER ∨
      (Call.wait timeout).slow = sema4Timedwait timeout ∧ timeout ≠ DISPATCH_TIME_FOREVER := by
  simp only [Call.slow]
  split
  · exact .inl ⟨rfl, ‹_›⟩
  · split
    · exact .inr (.inl ⟨rfl, ‹_›⟩)
    · exact .inr (.inr ⟨rfl, ‹_›⟩)

@[simp] theorem waiting_slow (call : Call) : call.slow.waiting = (create call).waiting := by
  cases call with
  | signal => rfl
  | wait timeout => obtain ⟨h, _⟩ | ⟨h, _⟩ | ⟨h, _⟩ := slow_wait timeout <;> rw [h] <;> rfl

@[simp] theorem posting_slow (call : Call) : call.slow.posting = (create call).posting := by
  cases call with
  | signal => rfl
  | wait timeout => obtain ⟨h, _⟩ | ⟨h, _⟩ | ⟨h, _⟩ := slow_wait timeout <;> rw [h] <;> rfl

@[simp] theorem waiting_createSlow (call : Call) : (createSlow call).waiting = (create call).waiting := by
  cases call <;> rfl

@[simp] theorem posting_createSlow (call : Call) : (createSlow call).posting = (create call).posting := by
  cases call <;> rfl

theorem sound_slow (call : Call) {sema : Option Nat} (h : sema.isSome = true) : call.slow.Sound sema := by
  cases call with
  | signal => exact h
  | wait timeout =>
    obtain ⟨hSlow, rfl⟩ | ⟨hSlow, rfl⟩ | ⟨hSlow, hTimeout⟩ := slow_wait timeout <;> rw [hSlow]
    · exact ⟨h, by decide⟩
    · exact h
    · exact ⟨h, hTimeout⟩

@[simp] theorem waiting_undoLoop (timeout : UInt64) (orig : Int64) : (undoLoop timeout orig).waiting = 1 := by
  unfold undoLoop
  split <;> rfl

@[simp] theorem posting_undoLoop (timeout : UInt64) (orig : Int64) : (undoLoop timeout orig).posting = 0 := by
  unfold undoLoop
  split <;> rfl

theorem sound_undoLoop {timeout : UInt64} (orig : Int64) {sema : Option Nat}
    (h : (load timeout).Sound sema) : (undoLoop timeout orig).Sound sema := by
  unfold undoLoop
  split
  · exact ⟨h.1, h.2, ‹_›⟩
  · exact h.1

theorem idle_entry (call : Call) : call.entry.waiting = 0 ∧ call.entry.posting = 0 := by
  cases call <;> exact ⟨rfl, rfl⟩

theorem weights_of_idle {p : Point} (h : p.idle = true) : p.waiting = 0 ∧ p.posting = 0 := by
  cases p <;> first | exact ⟨rfl, rfl⟩ | cases h

end Point

section Moves

variable {ι : Type u} [DecidableEq ι]

/-- What a step can do. -/
inductive Moves (s : State ι) : Event ι → State ι → Prop
  | enters (i : ι) (call : Call) (hPoint : (s.point i).idle = true) : Moves s (.call i call) (s.goto i call.entry)
  | signals (i : ι) (hPoint : s.point i = .inc) (hLow : 0 ≤ s.value)
      (hHigh : s.value < 2 ^ 63 - 1) :
      Moves s (.go i) ((s.setValue (s.dsema.dsema_value + 1)).goto i (.returned 0))
  | owes (i : ι) (hPoint : s.point i = .inc) (hNeg : s.value < 0) :
      Moves s (.go i) ((s.setValue (s.dsema.dsema_value + 1)).goto i (.create .signal))
  | overflows (i : ι) (hPoint : s.point i = .inc) (hHigh : s.value = 2 ^ 63 - 1) :
      Moves s (.go i) ((s.setValue (s.dsema.dsema_value + 1)).crash
        "Unbalanced call to dispatch_semaphore_signal()")
  | takes (i : ι) (timeout : UInt64) (hPoint : s.point i = .dec timeout)
      (hPos : 0 ≤ s.dsema.dsema_value - 1) :
      Moves s (.go i) ((s.setValue (s.dsema.dsema_value - 1)).goto i (.returned 0))
  | waits (i : ι) (timeout : UInt64) (hPoint : s.point i = .dec timeout)
      (hNeg : ¬ 0 ≤ s.dsema.dsema_value - 1) :
      Moves s (.go i) ((s.setValue (s.dsema.dsema_value - 1)).goto i (.create (.wait timeout)))
  | finds (i : ι) (call : Call) (hPoint : s.point i = .create call ∨ s.point i = .createSlow call)
      (hSema : s.dsema.dsema_sema.isSome = true) : Moves s (.go i) (s.goto i call.slow)
  | misses (i : ι) (call : Call) (hPoint : s.point i = .create call) (hSema : s.dsema.dsema_sema = none) :
      Moves s (.go i) (s.goto i (.createSlow call))
  | publishes (i : ι) (call : Call) (hPoint : s.point i = .createSlow call)
      (hSema : s.dsema.dsema_sema = none) : Moves s (.go i) ((s.setSema 0).goto i call.slow)
  | posts (i : ι) (permits : Nat) (hPoint : s.point i = .sema4Signal)
      (hSema : s.dsema.dsema_sema = some permits) :
      Moves s (.go i) ((s.setSema (permits + 1)).goto i (.returned 1))
  | wakes (i : ι) (timeout : UInt64) (permits : Nat)
      (hPoint : s.point i = .sema4Timedwait timeout ∨ s.point i = .sema4Wait timeout)
      (hSema : s.dsema.dsema_sema = some (permits + 1)) :
      Moves s (.go i) ((s.setSema permits).goto i (.returned 0))
  | fails (i : ι) (hPoint : ¬ (s.point i).Sound none) (hSema : s.dsema.dsema_sema = none) :
      Moves s (.go i) (s.crash "mach semaphore API failure")
  | gaveUp (i : ι) (timeout : UInt64) (orig : Int64) (hPoint : s.point i = .cmpxchg timeout orig)
      (hValue : s.dsema.dsema_value = orig) :
      Moves s (.go i) ((s.setValue (orig + 1)).goto i (.returned DSEMA4_TIMEOUT))
  | looks (i : ι) (timeout : UInt64) (e : Event ι) (hEvent : e = .go i ∨ e = .failsSpuriously i)
      (hPoint : s.point i = .load timeout ∨ ∃ orig, s.point i = .cmpxchg timeout orig ∧
        (e = .go i → s.dsema.dsema_value ≠ orig)) :
      Moves s e (s.goto i (undoLoop timeout s.dsema.dsema_value))
  | expires (i : ι) (timeout : UInt64) (hPoint : s.point i = .sema4Timedwait timeout) :
      Moves s (.timesOut i) (s.goto i (.load timeout))

theorem moves_of_signal {s : State ι} {i : ι} (hPoint : s.point i = .inc) :
    Moves s (.go i) (dispatch_semaphore_signal s i) := by
  have hHigh : s.value < 2 ^ 63 := s.dsema.dsema_value.toInt_lt
  have hAdd : s.value < 2 ^ 63 - 1 → (s.dsema.dsema_value + 1).toInt = s.value + 1 := toInt_add_one
  have hWrap : s.dsema.dsema_value + 1 = Int64.minValue ↔ s.value = 2 ^ 63 - 1 := add_one_eq_minValue_iff
  unfold dispatch_semaphore_signal
  dsimp only
  split
  · rename_i hPos
    rw [Int64.lt_iff_toInt_lt, Int64.toInt_zero] at hPos
    have hNe : s.value ≠ 2 ^ 63 - 1 := by
      intro h
      rw [hWrap.mpr h] at hPos
      exact absurd hPos (by decide)
    have hValue := hAdd (by omega)
    exact .signals i hPoint (by omega) (by omega)
  · rename_i hPos
    rw [Int64.lt_iff_toInt_lt, Int64.toInt_zero] at hPos
    split
    · exact .overflows i hPoint (hWrap.mp ‹_›)
    · rename_i hNe
      rw [hWrap] at hNe
      have hValue := hAdd (by omega)
      exact .owes i hPoint (by omega)

theorem moves_of_sema4_wait {s s' : State ι} {i : ι} {timeout : UInt64}
    (hPoint : s.point i = .sema4Timedwait timeout ∨ s.point i = .sema4Wait timeout)
    (h : sema4_wait s i = some s') : Moves s (.go i) s' := by
  unfold sema4_wait at h
  split at h
  · cases h
    refine .fails i ?_ ‹_›
    obtain hPoint | hPoint := hPoint <;> rw [hPoint]
    · exact fun hSound => Bool.false_ne_true hSound.1
    · exact Bool.false_ne_true
  · cases h
  · cases h
    exact .wakes i timeout _ hPoint ‹_›

theorem moves_of_go {s s' : State ι} {i : ι} (h : go s i = some s') : Moves s (.go i) s' := by
  unfold go at h
  split at h
  case h_1 | h_2 => cases h
  case h_3 hPoint =>
    cases h
    exact moves_of_signal hPoint
  case h_4 timeout hPoint =>
    cases h
    unfold dispatch_semaphore_wait
    dsimp only
    split
    · exact .takes i timeout hPoint ‹_›
    · exact .waits i timeout hPoint ‹_›
  case h_5 call hPoint =>
    cases h
    unfold sema4_create
    split
    · exact .finds i call (.inl hPoint) ‹_›
    · rename_i hNone
      exact .misses i call hPoint (Option.not_isSome_iff_eq_none.mp hNone)
  case h_6 call hPoint =>
    cases h
    unfold sema4_create_slow
    split
    · exact .publishes i call hPoint ‹_›
    · rename_i hSema
      exact .finds i call (.inr hPoint) (by rw [hSema]; rfl)
  case h_7 hPoint =>
    cases h
    unfold sema4_signal
    split
    · refine .fails i ?_ ‹_›
      rw [hPoint]
      exact Bool.false_ne_true
    · exact .posts i _ hPoint ‹_›
  case h_8 timeout hPoint => exact moves_of_sema4_wait (.inl hPoint) h
  case h_9 timeout hPoint => exact moves_of_sema4_wait (.inr hPoint) h
  case h_10 timeout hPoint =>
    cases h
    exact .looks i timeout _ (.inl rfl) (.inl hPoint)
  case h_11 timeout orig hPoint =>
    cases h
    unfold undo
    split
    · exact .gaveUp i timeout orig hPoint ‹_›
    · exact .looks i timeout _ (.inl rfl) (.inr ⟨orig, hPoint, fun _ => ‹_›⟩)

theorem moves_of_step {s s' : State ι} {e : Event ι} (h : step s e = some s') :
    s.crashed = none ∧ Moves s e s' := by
  obtain ⟨hAlive, h⟩ := Option.ite_none_left_eq_some.mp h
  refine ⟨by simpa using hAlive, ?_⟩
  cases e with
  | call i call =>
    dsimp only at h
    split at h
    · cases h
      exact .enters i call (by rw [‹s.point i = _›]; rfl)
    · cases h
      exact .enters i call (by rw [‹s.point i = _›]; rfl)
    · cases h
  | go i => exact moves_of_go h
  | timesOut i =>
    dsimp only at h
    split at h
    · cases h
      exact .expires i _ ‹_›
    · cases h
  | failsSpuriously i =>
    dsimp only at h
    split at h
    · cases h
      exact .looks i _ _ (.inr rfl) (.inr ⟨_, ‹_›, (nomatch ·)⟩)
    · cases h

end Moves

end OCNote.Dispatch.Semaphore
