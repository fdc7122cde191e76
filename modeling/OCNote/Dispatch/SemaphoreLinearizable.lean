import Mathlib.Data.List.Forall2
import OCNote.Dispatch.Semaphore

/-! # The semaphore is a counting semaphore

The value counts permits as long as it is not negative. Below zero it counts threads that
wait, less the permits that signals have promised or handed to the kernel semaphore. -/

namespace OCNote.Dispatch.Semaphore
open OCNote.Support
set_option autoImplicit false

universe u

variable {ι : Type u} [Fintype ι] [DecidableEq ι]

def State.permits (s : State ι) : Nat := s.dsema.dsema_sema.getD 0

def State.available (s : State ι) : Nat :=
  s.value.toNat + s.permits + tally Point.posting s.point

/-- What the callers see of a step, which takes the thread from the first point to the second. -/
def effect (i : ι) : Point → Point → List (SemaphoreOp ι)
  | .inc, .returned _ | .inc, .create _ => [.signal i]
  | .dec _, .returned _ | .sema4Timedwait _, .returned _ | .sema4Wait _, .returned _ => [.take i]
  | .cmpxchg _ _, .returned _ => [.giveUp i]
  | _, _ => []

def note (ops : List (SemaphoreOp ι)) (s : State ι) (e : Event ι) (s' : State ι) : List (SemaphoreOp ι) :=
  match e with
  | .go i => ops ++ effect i (s.point i) (s'.point i)
  | .call _ _ | .timesOut _ | .failsSpuriously _ => ops

structure Balanced (s : State ι) : Prop where
  waiting : tally Point.waiting s.point =
    s.permits + tally Point.posting s.point + (-s.value).toNat
  sound : ∀ i, (s.point i).Sound s.dsema.dsema_sema

section Moved

variable {s s' : State ι}

omit [DecidableEq ι] in
/-- The value stays in its range, because each thread decrements at most once at a time. -/
theorem Balanced.low (h : Balanced s) (hThreads : Fintype.card ι < 2 ^ 63) :
    -2 ^ 63 < s.value := by
  have hCard := tally_le_card Point.waiting_le_one s.point
  have hWaiting := h.waiting
  omega

omit [Fintype ι] in
theorem sound_moved {i : ι} {p : Point} (h : ∀ j, (s.point j).Sound s.dsema.dsema_sema)
    (hPoint : s'.point = Function.update s.point i p)
    (hSema : s.dsema.dsema_sema = s'.dsema.dsema_sema ∨ s'.dsema.dsema_sema.isSome = true)
    (hSound : p.Sound s'.dsema.dsema_sema) (j : ι) : (s'.point j).Sound s'.dsema.dsema_sema := by
  rw [hPoint]
  obtain rfl | hji := eq_or_ne j i
  · rwa [Function.update_self]
  · rw [Function.update_of_ne hji]
    obtain hSame | hSome := hSema
    · exact hSame ▸ h j
    · exact (h j).of_isSome hSome

theorem Balanced.moved (h : Balanced s) (i : ι) (p : Point) (hPoint : s'.point = Function.update s.point i p)
    (hSema : s.dsema.dsema_sema = s'.dsema.dsema_sema ∨ s'.dsema.dsema_sema.isSome = true)
    (hSound : p.Sound s'.dsema.dsema_sema)
    (hCount : p.waiting + s.permits + (s.point i).posting + (-s.value).toNat =
      (s.point i).waiting + s'.permits + p.posting + (-s'.value).toNat) : Balanced s' := by
  refine ⟨?_, sound_moved h.sound hPoint hSema hSound⟩
  have hWaiting := tally_update Point.waiting s.point i p
  have hPosting := tally_update Point.posting s.point i p
  have hBalance := h.waiting
  rw [hPoint]
  omega

variable (s') in
theorem available_moved {i : ι} {p : Point} (hPoint : s'.point = Function.update s.point i p) :
    s'.available + s.value.toNat + s.permits + (s.point i).posting =
      s.available + s'.value.toNat + s'.permits + p.posting := by
  have hPosting := tally_update Point.posting s.point i p
  unfold State.available
  rw [hPoint]
  omega

end Moved

section Steps

variable {s s' : State ι} {e : Event ι}

omit [Fintype ι] [DecidableEq ι] in
@[simp] theorem value_setValue (s : State ι) (value : Int64) : (s.setValue value).value = value.toInt := rfl

omit [Fintype ι] [DecidableEq ι] in
@[simp] theorem value_setSema (s : State ι) (permits : Nat) : (s.setSema permits).value = s.value := rfl

omit [Fintype ι] in
@[simp] theorem value_goto (s : State ι) (i : ι) (p : Point) : (s.goto i p).value = s.value := rfl

omit [Fintype ι] [DecidableEq ι] in
@[simp] theorem permits_setValue (s : State ι) (value : Int64) : (s.setValue value).permits = s.permits := rfl

omit [Fintype ι] [DecidableEq ι] in
@[simp] theorem permits_setSema (s : State ι) (permits : Nat) : (s.setSema permits).permits = permits := rfl

omit [Fintype ι] in
@[simp] theorem permits_goto (s : State ι) (i : ι) (p : Point) : (s.goto i p).permits = s.permits := rfl

omit [Fintype ι] [DecidableEq ι] in
theorem permits_of_some {permits : Nat} (h : s.dsema.dsema_sema = some permits) : s.permits = permits := by
  rw [State.permits, h, Option.getD_some]

theorem Balanced.moves (h : Balanced s) (hThreads : Fintype.card ι < 2 ^ 63) (hMove : Moves s e s')
    (hAlive : s'.crashed = none) : Balanced s' := by
  have hLow := h.low hThreads
  cases hMove with
  | enters i call hPoint =>
    obtain ⟨hWaiting, hPosting⟩ := Point.weights_of_idle hPoint
    obtain ⟨hWaiting', hPosting'⟩ := Point.idle_entry call
    refine h.moved i call.entry rfl (.inl rfl) (by cases call <;> trivial) ?_
    simp only [hWaiting, hPosting, hWaiting', hPosting', permits_goto, value_goto]
  | signals i hPoint hLow hHigh =>
    have hValue : (s.dsema.dsema_value + 1).toInt = s.value + 1 := toInt_add_one hHigh
    refine h.moved i (.returned 0) rfl (.inl rfl) trivial ?_
    simp only [hPoint, permits_goto, permits_setValue, value_goto, value_setValue, Point.waiting, Point.posting]
    omega
  | owes i hPoint hNeg =>
    have hValue : (s.dsema.dsema_value + 1).toInt = s.value + 1 := toInt_add_one (by
      change s.value < _
      omega)
    refine h.moved i (.create .signal) rfl (.inl rfl) trivial ?_
    simp only [hPoint, permits_goto, permits_setValue, value_goto, value_setValue, Point.waiting, Point.posting]
    omega
  | overflows => cases hAlive
  | takes i timeout hPoint hPos =>
    have hValue : (s.dsema.dsema_value - 1).toInt = s.value - 1 := toInt_sub_one hLow
    rw [Int64.le_iff_toInt_le, hValue, Int64.toInt_zero] at hPos
    refine h.moved i (.returned 0) rfl (.inl rfl) trivial ?_
    simp only [hPoint, permits_goto, permits_setValue, value_goto, value_setValue, Point.waiting, Point.posting]
    omega
  | waits i timeout hPoint hNeg =>
    have hValue : (s.dsema.dsema_value - 1).toInt = s.value - 1 := toInt_sub_one hLow
    rw [Int64.le_iff_toInt_le, hValue, Int64.toInt_zero] at hNeg
    refine h.moved i (.create (.wait timeout)) rfl (.inl rfl) trivial ?_
    simp only [hPoint, permits_goto, permits_setValue, value_goto, value_setValue, Point.waiting, Point.posting]
    omega
  | finds i call hPoint hSema =>
    refine h.moved i call.slow rfl (.inl rfl) (Point.sound_slow call hSema) ?_
    obtain hPoint | hPoint := hPoint <;>
      simp only [hPoint, permits_goto, value_goto, Point.waiting_slow, Point.posting_slow,
        Point.waiting_createSlow, Point.posting_createSlow]
  | misses i call hPoint hSema =>
    refine h.moved i (.createSlow call) rfl (.inl rfl) trivial ?_
    simp only [hPoint, permits_goto, value_goto, Point.waiting_createSlow, Point.posting_createSlow]
  | publishes i call hPoint hSema =>
    have hPermits : s.permits = 0 := by rw [State.permits, hSema]; rfl
    refine h.moved i call.slow rfl (.inr rfl) (Point.sound_slow call rfl) ?_
    simp only [hPoint, hPermits, permits_goto, permits_setSema, value_goto, value_setSema,
      Point.waiting_slow, Point.posting_slow, Point.waiting_createSlow, Point.posting_createSlow]
  | posts i permits hPoint hSema =>
    have hPermits := permits_of_some hSema
    refine h.moved i (.returned 1) rfl (.inr rfl) trivial ?_
    simp only [hPoint, hPermits, permits_goto, permits_setSema, value_goto, value_setSema, Point.waiting, Point.posting]
    omega
  | wakes i timeout permits hPoint hSema =>
    have hPermits := permits_of_some hSema
    refine h.moved i (.returned 0) rfl (.inr rfl) trivial ?_
    obtain hPoint | hPoint := hPoint <;>
      simp only [hPoint, hPermits, permits_goto, permits_setSema, value_goto, value_setSema, Point.waiting,
        Point.posting] <;> omega
  | fails => cases hAlive
  | gaveUp i timeout orig hPoint hValue =>
    have hSound := h.sound i
    rw [hPoint] at hSound
    obtain ⟨_, _, hNeg⟩ := hSound
    rw [Int64.lt_iff_toInt_lt, Int64.toInt_zero] at hNeg
    have hSame : s.value = orig.toInt := congrArg Int64.toInt hValue
    have hValue' := toInt_add_one (v := orig) (by omega)
    refine h.moved i (.returned DSEMA4_TIMEOUT) rfl (.inl rfl) trivial ?_
    simp only [hPoint, hSame, permits_goto, permits_setValue, value_goto, value_setValue, Point.waiting, Point.posting]
    omega
  | looks i timeout e hEvent hPoint =>
    have hSound : (Point.load timeout).Sound s.dsema.dsema_sema := by
      have hSound := h.sound i
      obtain hPoint | ⟨orig, hPoint, _⟩ := hPoint <;> rw [hPoint] at hSound
      · exact hSound
      · exact ⟨hSound.1, hSound.2.1⟩
    refine h.moved i (undoLoop timeout s.dsema.dsema_value) rfl (.inl rfl) (Point.sound_undoLoop _ hSound) ?_
    have hOld : (s.point i).waiting = 1 ∧ (s.point i).posting = 0 := by
      obtain hPoint | ⟨orig, hPoint, _⟩ := hPoint <;> rw [hPoint] <;> exact ⟨rfl, rfl⟩
    simp only [hOld.1, hOld.2, permits_goto, value_goto, Point.waiting_undoLoop, Point.posting_undoLoop]
  | expires i timeout hPoint =>
    have hSound := h.sound i
    rw [hPoint] at hSound
    refine h.moved i (.load timeout) rfl (.inl rfl) hSound ?_
    simp only [hPoint, permits_goto, value_goto, Point.waiting, Point.posting]

end Steps

section Answers

/-- What a call may turn out to be. A wait without an end never gives up. -/
def Call.Allows : Call → SemaphoreOp ι → Prop
  | .signal, op => op.isSignal = true
  | .wait _, .take _ => True
  | .wait timeout, .giveUp _ => timeout ≠ DISPATCH_TIME_FOREVER
  | .wait _, .signal _ => False

/-- What the call returns. A signal returns one if it has posted a permit for a thread that waits. -/
def Returns : SemaphoreOp ι → Int64 → Prop
  | .signal _, result => result = 0 ∨ result = 1
  | .take _, result => result = 0
  | .giveUp _, result => result = DSEMA4_TIMEOUT

/-- The call of a thread that has not taken effect yet. -/
def Point.pending : Point → List Call
  | inc => [.signal]
  | dec timeout | create (.wait timeout) | createSlow (.wait timeout) | sema4Timedwait timeout | load timeout
  | cmpxchg timeout _ | sema4Wait timeout => [.wait timeout]
  | outside | returned _ | create .signal | createSlow .signal | sema4Signal => []

/-- The last operation of the thread explains where it is. -/
def Point.Reports (ops : List (SemaphoreOp ι)) : Point → Prop
  | returned result => ∃ op, ops.getLast? = some op ∧ Returns op result
  | create .signal | createSlow .signal | sema4Signal => ∃ op, ops.getLast? = some op ∧ op.isSignal = true
  | _ => True

/-- Each call of a thread, but for the pending one, has taken effect once, in order, and as
the call allows it. -/
def Answers (calls : List Call) (ops : List (SemaphoreOp ι)) (p : Point) : Prop :=
  (∃ done, calls = done ++ p.pending ∧ List.Forall₂ Call.Allows done ops) ∧ p.Reports ops

def callsOf (i : ι) (es : List (Event ι)) : List Call :=
  es.filterMap fun
    | .call j call => if j = i then some call else none
    | .go _ | .timesOut _ | .failsSpuriously _ => none

def opsOf (i : ι) (ops : List (SemaphoreOp ι)) : List (SemaphoreOp ι) := ops.filter fun op => op.caller = i

/-- What a step of one thread tells its callers. -/
inductive Tells (i : ι) (p p' : Point) : Option Call → List (SemaphoreOp ι) → Prop
  | enters (call : Call) (hIdle : p.idle = true) (hPoint : p' = call.entry) : Tells i p p' (some call) []
  | silent (hPending : p'.pending = p.pending)
      (hReports : ∀ ops : List (SemaphoreOp ι), p.Reports ops → p'.Reports ops) : Tells i p p' none []
  | acts (call : Call) (op : SemaphoreOp ι) (hPending : p.pending = [call]) (hDone : p'.pending = [])
      (hAllows : call.Allows op) (hCaller : op.caller = i)
      (hReports : ∀ ops : List (SemaphoreOp ι), p'.Reports (ops ++ [op])) : Tells i p p' none [op]

omit [Fintype ι] [DecidableEq ι] in
theorem Answers.tells {i : ι} {p p' : Point} {call : Option Call} {new : List (SemaphoreOp ι)}
    (hTells : Tells i p p' call new) {calls : List Call} {ops : List (SemaphoreOp ι)} (h : Answers calls ops p) :
    Answers (calls ++ call.toList) (ops ++ new) p' := by
  obtain ⟨⟨done, rfl, hAllows⟩, hReports⟩ := h
  cases hTells with
  | enters call hIdle hPoint =>
    have hPending : p.pending = [] := by cases p <;> first | rfl | cases hIdle
    rw [hPending, List.append_nil, List.append_nil, hPoint]
    refine ⟨⟨done, ?_, hAllows⟩, ?_⟩
    · cases call <;> rfl
    · cases call <;> trivial
  | silent hPending hReports' =>
    rw [Option.toList_none, List.append_nil, List.append_nil]
    exact ⟨⟨done, by rw [hPending], hAllows⟩, hReports' ops hReports⟩
  | acts call op hPending hDone hAllows' _ hReports' =>
    rw [Option.toList_none, List.append_nil, hPending]
    refine ⟨⟨done ++ [call], by rw [hDone, List.append_nil], ?_⟩, hReports' ops⟩
    exact List.rel_append hAllows (.cons hAllows' .nil)

end Answers

section Seen

variable {s s' : State ι} {e : Event ι}

/-- What the callers see of a step: one thread moves, and its new operations are steps of the
counting semaphore. -/
structure Seen (s : State ι) (e : Event ι) (s' : State ι) (i : ι) (call : Option Call)
    (new : List (SemaphoreOp ι)) : Prop where
  others : ∀ j, j ≠ i → s'.point j = s.point j ∧ callsOf j [e] = []
  called : callsOf i [e] = call.toList
  noted : ∀ ops, note ops s e s' = ops ++ new
  tells : Tells i (s.point i) (s'.point i) call new
  counts : ∀ n, (countingSemaphore ι n).runFrom s.available new = some s'.available

omit [Fintype ι] in
theorem goto_point (s : State ι) (i : ι) (p : Point) : (s.goto i p).point i = p := Function.update_self ..

omit [Fintype ι] in
theorem others_of_point {i : ι} {p : Point} (hPoint : s'.point = Function.update s.point i p) (j : ι)
    (hj : j ≠ i) : s'.point j = s.point j := by rw [hPoint, Function.update_of_ne hj]

theorem Seen.silent {i : ι} {p : Point} (hPoint : s'.point = Function.update s.point i p)
    (hEvent : e = .go i ∨ e = .timesOut i ∨ e = .failsSpuriously i) (hEffect : effect i (s.point i) p = [])
    (hPending : p.pending = (s.point i).pending)
    (hReports : ∀ ops : List (SemaphoreOp ι), (s.point i).Reports ops → p.Reports ops)
    (hAvailable : s'.available = s.available) : Seen s e s' i none [] := by
  have hNew : s'.point i = p := by rw [hPoint, Function.update_self]
  refine ⟨fun j hj => ⟨others_of_point hPoint j hj, ?_⟩, ?_, fun ops => ?_, ?_, fun n => ?_⟩
  · obtain rfl | rfl | rfl := hEvent <;> rfl
  · obtain rfl | rfl | rfl := hEvent <;> rfl
  · obtain rfl | rfl | rfl := hEvent
    · rw [note, hNew, hEffect]
    · exact (List.append_nil ops).symm
    · exact (List.append_nil ops).symm
  · rw [hNew]
    exact .silent hPending hReports
  · rw [hAvailable]
    rfl

theorem Seen.acts {i : ι} {p : Point} (hPoint : s'.point = Function.update s.point i p) (call : Call)
    (op : SemaphoreOp ι) (hEffect : effect i (s.point i) p = [op]) (hPending : (s.point i).pending = [call])
    (hDone : p.pending = []) (hAllows : call.Allows op) (hCaller : op.caller = i)
    (hReports : ∀ ops : List (SemaphoreOp ι), p.Reports (ops ++ [op]))
    (hAvailable : op.apply s.available = some s'.available) : Seen s (.go i) s' i none [op] := by
  have hNew : s'.point i = p := by rw [hPoint, Function.update_self]
  refine ⟨fun j hj => ⟨others_of_point hPoint j hj, rfl⟩, rfl, fun ops => ?_, ?_, fun n => ?_⟩
  · rw [note, hNew, hEffect]
  · rw [hNew]
    exact .acts call op hPending hDone hAllows hCaller hReports
  · rw [Machine.runFrom]
    exact (congrArg (Option.bind · _) hAvailable).trans rfl

omit [Fintype ι] [DecidableEq ι] in
theorem reports_returned {op : SemaphoreOp ι} {result : Int64} (h : Returns op result)
    (ops : List (SemaphoreOp ι)) : (Point.returned result).Reports (ops ++ [op]) :=
  ⟨op, List.getLast?_concat .., h⟩

omit [Fintype ι] [DecidableEq ι] in
theorem reports_owed (i : ι) (ops : List (SemaphoreOp ι)) :
    (Point.create .signal).Reports (ops ++ [.signal i]) := ⟨_, List.getLast?_concat .., rfl⟩

omit [Fintype ι] [DecidableEq ι] in
theorem creates {call : Call} {p p' : Point} (hPoint : p = .create call ∨ p = .createSlow call)
    (hNext : p' = .createSlow call ∨ p' = call.slow) (i : ι) :
    effect i p p' = [] ∧ p'.pending = p.pending ∧ p'.posting = p.posting ∧
      ∀ ops : List (SemaphoreOp ι), p.Reports ops → p'.Reports ops := by
  cases call with
  | signal =>
    obtain rfl | rfl := hPoint <;> obtain rfl | rfl := hNext <;> exact ⟨rfl, rfl, rfl, fun _ h => h⟩
  | wait timeout =>
    obtain rfl | rfl := hPoint <;> obtain rfl | rfl := hNext
    · exact ⟨rfl, rfl, rfl, fun _ h => h⟩
    · obtain ⟨h, _⟩ | ⟨h, _⟩ | ⟨h, _⟩ := Point.slow_wait timeout <;> rw [h] <;> exact ⟨rfl, rfl, rfl, fun _ h => h⟩
    · exact ⟨rfl, rfl, rfl, fun _ h => h⟩
    · obtain ⟨h, _⟩ | ⟨h, _⟩ | ⟨h, _⟩ := Point.slow_wait timeout <;> rw [h] <;> exact ⟨rfl, rfl, rfl, fun _ h => h⟩

omit [Fintype ι] [DecidableEq ι] in
theorem looks_again {p : Point} {timeout : UInt64} (hPoint : p = .load timeout ∨ ∃ orig, p = .cmpxchg timeout orig)
    (value : Int64) (i : ι) :
    effect i p (undoLoop timeout value) = [] ∧ (undoLoop timeout value).pending = p.pending ∧ p.posting = 0 ∧
      ∀ ops : List (SemaphoreOp ι), (undoLoop timeout value).Reports ops := by
  unfold undoLoop
  obtain rfl | ⟨orig, rfl⟩ := hPoint <;> split <;> exact ⟨rfl, rfl, rfl, fun _ => trivial⟩

omit [Fintype ι] [DecidableEq ι] in
theorem apply_take {i : ι} {before after : Nat} (h : before = after + 1) :
    (SemaphoreOp.take i).apply before = some after := by
  rw [h]
  rfl

theorem seen_of_moves (h : Balanced s) (hThreads : Fintype.card ι < 2 ^ 63) (hMove : Moves s e s')
    (hAlive : s'.crashed = none) : ∃ i call new, Seen s e s' i call new := by
  have hLow := h.low hThreads
  cases hMove with
  | enters i call hPoint =>
    obtain ⟨_, hPosting⟩ := Point.weights_of_idle hPoint
    obtain ⟨_, hPosting'⟩ := Point.idle_entry call
    refine ⟨i, some call, [], fun j hj => ⟨others_of_point rfl j hj, ?_⟩, ?_, fun ops => ?_, ?_, fun n => ?_⟩
    · simp [callsOf, hj.symm]
    · simp [callsOf]
    · exact (List.append_nil ops).symm
    · rw [goto_point]
      exact .enters call hPoint rfl
    · have hAvailable := available_moved (s := s) (s.goto i call.entry) rfl
      simp only [hPosting, hPosting', permits_goto, value_goto] at hAvailable
      change some s.available = _
      congr 1
      omega
  | signals i hPoint hLow hHigh =>
    have hValue : (s.dsema.dsema_value + 1).toInt = s.value + 1 := toInt_add_one hHigh
    have hAvailable := available_moved (s := s) ((s.setValue (s.dsema.dsema_value + 1)).goto i (.returned 0)) rfl
    simp only [hPoint, hValue, permits_goto, permits_setValue, value_goto, value_setValue, Point.posting] at hAvailable
    refine ⟨i, none, _, .acts rfl .signal (.signal i) (by rw [hPoint]; rfl) (by rw [hPoint]; rfl) rfl rfl rfl
      (reports_returned (.inl rfl)) ?_⟩
    refine congrArg some ?_
    omega
  | owes i hPoint hNeg =>
    have hValue : (s.dsema.dsema_value + 1).toInt = s.value + 1 := toInt_add_one (by
      change s.value < _
      omega)
    have hAvailable := available_moved (s := s) ((s.setValue (s.dsema.dsema_value + 1)).goto i (.create .signal)) rfl
    simp only [hPoint, hValue, permits_goto, permits_setValue, value_goto, value_setValue, Point.posting] at hAvailable
    refine ⟨i, none, _, .acts rfl .signal (.signal i) (by rw [hPoint]; rfl) (by rw [hPoint]; rfl) rfl rfl rfl
      (reports_owed i) ?_⟩
    refine congrArg some ?_
    omega
  | overflows => cases hAlive
  | takes i timeout hPoint hPos =>
    have hValue : (s.dsema.dsema_value - 1).toInt = s.value - 1 := toInt_sub_one hLow
    rw [Int64.le_iff_toInt_le, hValue, Int64.toInt_zero] at hPos
    have hAvailable := available_moved (s := s) ((s.setValue (s.dsema.dsema_value - 1)).goto i (.returned 0)) rfl
    simp only [hPoint, hValue, permits_goto, permits_setValue, value_goto, value_setValue, Point.posting] at hAvailable
    refine ⟨i, none, _, .acts rfl (.wait timeout) (.take i) (by rw [hPoint]; rfl) (by rw [hPoint]; rfl) rfl trivial
      rfl (reports_returned rfl) (apply_take ?_)⟩
    omega
  | waits i timeout hPoint hNeg =>
    have hValue : (s.dsema.dsema_value - 1).toInt = s.value - 1 := toInt_sub_one hLow
    rw [Int64.le_iff_toInt_le, hValue, Int64.toInt_zero] at hNeg
    have hAvailable := available_moved (s := s) ((s.setValue (s.dsema.dsema_value - 1)).goto i (.create (.wait timeout))) rfl
    simp only [hPoint, hValue, permits_goto, permits_setValue, value_goto, value_setValue, Point.posting] at hAvailable
    refine ⟨i, none, _, .silent rfl (.inl rfl) (by rw [hPoint]; rfl) (by rw [hPoint]; rfl) ?_ (by omega)⟩
    exact fun _ _ => trivial
  | finds i call hPoint hSema =>
    obtain ⟨hEffect, hPending, hPosting, hReports⟩ := creates hPoint (.inr rfl) i
    have hAvailable := available_moved (s := s) (s.goto i call.slow) rfl
    rw [hPosting, permits_goto, value_goto] at hAvailable
    exact ⟨i, none, _, .silent rfl (.inl rfl) hEffect hPending hReports (by omega)⟩
  | misses i call hPoint hSema =>
    obtain ⟨hEffect, hPending, hPosting, hReports⟩ := creates (.inl hPoint) (.inl rfl) i
    have hAvailable := available_moved (s := s) (s.goto i (.createSlow call)) rfl
    rw [hPosting, permits_goto, value_goto] at hAvailable
    exact ⟨i, none, _, .silent rfl (.inl rfl) hEffect hPending hReports (by omega)⟩
  | publishes i call hPoint hSema =>
    obtain ⟨hEffect, hPending, hPosting, hReports⟩ := creates (.inr hPoint) (.inr rfl) i
    have hPermits : s.permits = 0 := by rw [State.permits, hSema]; rfl
    have hAvailable := available_moved (s := s) ((s.setSema 0).goto i call.slow) rfl
    rw [hPosting, hPermits, permits_goto, permits_setSema, value_goto, value_setSema] at hAvailable
    exact ⟨i, none, _, .silent rfl (.inl rfl) hEffect hPending hReports (by omega)⟩
  | posts i permits hPoint hSema =>
    have hPermits := permits_of_some hSema
    have hAvailable := available_moved (s := s) ((s.setSema (permits + 1)).goto i (.returned 1)) rfl
    simp only [hPoint, hPermits, permits_goto, permits_setSema, value_goto, value_setSema, Point.posting] at hAvailable
    refine ⟨i, none, _, .silent rfl (.inl rfl) (by rw [hPoint]; rfl) (by rw [hPoint]; rfl) ?_ (by omega)⟩
    rw [hPoint]
    rintro ops ⟨op, hLast, hSignal⟩
    refine ⟨op, hLast, ?_⟩
    cases op with
    | signal => exact .inr rfl
    | take | giveUp => cases hSignal
  | wakes i timeout permits hPoint hSema =>
    have hPermits := permits_of_some hSema
    have hAvailable := available_moved (s := s) ((s.setSema permits).goto i (.returned 0)) rfl
    have hOld : (s.point i).posting = 0 ∧ (s.point i).pending = [.wait timeout] ∧
        effect i (s.point i) (.returned 0) = [.take i] := by
      obtain hPoint | hPoint := hPoint <;> rw [hPoint] <;> exact ⟨rfl, rfl, rfl⟩
    rw [hOld.1, hPermits, permits_goto, permits_setSema, value_goto, value_setSema] at hAvailable
    have hNew : (Point.returned 0).posting = 0 := rfl
    refine ⟨i, none, _, .acts rfl (.wait timeout) (.take i) hOld.2.2 hOld.2.1 rfl trivial rfl
      (reports_returned rfl) (apply_take ?_)⟩
    omega
  | fails => cases hAlive
  | gaveUp i timeout orig hPoint hValue =>
    have hSound := h.sound i
    rw [hPoint] at hSound
    obtain ⟨_, hForever, hNeg⟩ := hSound
    rw [Int64.lt_iff_toInt_lt, Int64.toInt_zero] at hNeg
    have hSame : s.value = orig.toInt := congrArg Int64.toInt hValue
    have hValue' := toInt_add_one (v := orig) (by omega)
    have hAvailable := available_moved (s := s) ((s.setValue (orig + 1)).goto i (.returned DSEMA4_TIMEOUT)) rfl
    simp only [hPoint, hSame, hValue', permits_goto, permits_setValue, value_goto, value_setValue,
      Point.posting] at hAvailable
    refine ⟨i, none, _, .acts rfl (.wait timeout) (.giveUp i) (by rw [hPoint]; rfl) (by rw [hPoint]; rfl) rfl
      hForever rfl (reports_returned rfl) ?_⟩
    refine congrArg some ?_
    omega
  | looks i timeout e hEvent hPoint =>
    obtain ⟨hEffect, hPending, hPosting, hReports⟩ := looks_again
      (hPoint.imp_right fun ⟨orig, hPoint, _⟩ => ⟨orig, hPoint⟩) s.dsema.dsema_value i
    have hAvailable := available_moved (s := s) (s.goto i (undoLoop timeout s.dsema.dsema_value)) rfl
    rw [hPosting, permits_goto, value_goto, Point.posting_undoLoop] at hAvailable
    refine ⟨i, none, _, .silent rfl ?_ hEffect hPending (fun ops _ => hReports ops) (by omega)⟩
    obtain rfl | rfl := hEvent
    · exact .inl rfl
    · exact .inr (.inr rfl)
  | expires i timeout hPoint =>
    have hAvailable := available_moved (s := s) (s.goto i (.load timeout)) rfl
    simp only [hPoint, permits_goto, value_goto, Point.posting] at hAvailable
    refine ⟨i, none, _, .silent rfl (.inr (.inl rfl)) (by rw [hPoint]; rfl) (by rw [hPoint]; rfl) ?_ (by omega)⟩
    exact fun _ _ => trivial

end Seen

section Run

omit [Fintype ι] in
theorem callsOf_append (i : ι) (es fs : List (Event ι)) : callsOf i (es ++ fs) = callsOf i es ++ callsOf i fs :=
  List.filterMap_append ..

theorem Seen.answers {s s' : State ι} {e : Event ι} {i : ι} {call : Option Call} {new : List (SemaphoreOp ι)}
    (h : Seen s e s' i call new) {es : List (Event ι)} {ops : List (SemaphoreOp ι)}
    (hAnswers : ∀ j, Answers (callsOf j es) (opsOf j ops) (s.point j)) (j : ι) :
    Answers (callsOf j (es ++ [e])) (opsOf j (ops ++ new)) (s'.point j) := by
  rw [callsOf_append, opsOf, List.filter_append]
  obtain rfl | hji := eq_or_ne j i
  · have hNew : new.filter (fun op => decide (op.caller = j)) = new := by
      apply List.filter_eq_self.mpr
      intro op hop
      cases h.tells with
      | acts _ _ _ _ _ hCaller _ => simpa [List.mem_singleton.mp hop] using hCaller
      | _ => cases hop
    rw [h.called, hNew]
    exact (hAnswers j).tells h.tells
  · have hNew : new.filter (fun op => decide (op.caller = j)) = [] := by
      apply List.filter_eq_nil_iff.mpr
      intro op hop
      cases h.tells with
      | acts _ _ _ _ _ hCaller _ => simpa [List.mem_singleton.mp hop, hCaller] using hji.symm
      | _ => cases hop
    obtain ⟨hPoint, hCalls⟩ := h.others j hji
    rw [hCalls, hNew, hPoint, List.append_nil, List.append_nil]
    exact hAnswers j

/-- What the run so far amounts to, when the operations are `ops`. -/
structure Linear (permits : Nat) (es : List (Event ι)) (s : State ι) (ops : List (SemaphoreOp ι)) : Prop where
  answers : ∀ i, Answers (callsOf i es) (opsOf i ops) (s.point i)
  alive : s.crashed = none → Balanced s ∧ (countingSemaphore ι permits).run ops = some s.available
  crashed : ∀ message, s.crashed = some message → message = "Unbalanced call to dispatch_semaphore_signal()" ∧
    ∃ left, (countingSemaphore ι permits).run ops = some left ∧ 2 ^ 63 - 1 ≤ left

theorem Linear.step {permits : Nat} {es : List (Event ι)} {s s' : State ι} {ops : List (SemaphoreOp ι)}
    {e : Event ι} (h : Linear permits es s ops) (hThreads : Fintype.card ι < 2 ^ 63) (hStep : step s e = some s') :
    Linear permits (es ++ [e]) s' (note ops s e s') := by
  obtain ⟨hBefore, hMove⟩ := moves_of_step hStep
  obtain ⟨hBalanced, hRun⟩ := h.alive hBefore
  by_cases hAlive : s'.crashed = none
  · obtain ⟨i, call, new, hSeen⟩ := seen_of_moves hBalanced hThreads hMove hAlive
    rw [hSeen.noted]
    refine ⟨hSeen.answers h.answers, fun _ => ⟨hBalanced.moves hThreads hMove hAlive, ?_⟩, fun message hCrash => ?_⟩
    · rw [Machine.run, Machine.runFrom_append]
      exact (congrArg (Option.bind · _) hRun).trans (hSeen.counts permits)
    · rw [hAlive] at hCrash
      cases hCrash
  · -- the thread that crashes stays where it is, inside its call
    cases hMove with
    | overflows i hPoint hHigh =>
      have hNote : note ops s (.go i) ((s.setValue (s.dsema.dsema_value + 1)).crash
          "Unbalanced call to dispatch_semaphore_signal()") = ops := by
        change ops ++ effect i (s.point i) (s.point i) = ops
        rw [hPoint]
        exact List.append_nil ops
      rw [hNote]
      refine ⟨fun j => ?_, fun h => absurd h hAlive, fun message hCrash => ?_⟩
      · rw [callsOf_append]
        change Answers (callsOf j es ++ []) _ (s.point j)
        rw [List.append_nil]
        exact h.answers j
      · cases hCrash
        refine ⟨rfl, _, hRun, ?_⟩
        unfold State.available
        omega
    | fails i hPoint hSema => exact absurd (hSema ▸ hBalanced.sound i) hPoint
    | _ => exact absurd hBefore hAlive

theorem linear_of_run {value : Int64} {dsema : DispatchSemaphore}
    (hCreate : dispatch_semaphore_create value = some dsema) (hThreads : Fintype.card ι < 2 ^ 63)
    (es : List (Event ι)) : ∀ p, ((semaphore ι dsema).withHistory [] note).run es = some p →
      Linear value.toInt.toNat es p.1 p.2 := by
  obtain ⟨hValue, hCreate⟩ := Option.ite_none_left_eq_some.mp hCreate
  rw [Int64.lt_iff_toInt_lt, Int64.toInt_zero] at hValue
  apply Machine.run_induction (P := fun es (p : State ι × List (SemaphoreOp ι)) => Linear value.toInt.toNat es p.1 p.2)
  · have hNone : ∀ weight : Point → Nat, weight .outside = 0 →
        tally weight (fun _ : ι => Point.outside) = 0 := fun weight h => tally_eq_zero_iff.mpr fun _ => h
    cases hCreate
    refine ⟨fun i => ⟨⟨[], rfl, .nil⟩, trivial⟩, fun _ => ⟨⟨?_, fun _ => trivial⟩, ?_⟩, fun _ h => nomatch h⟩
    · change tally _ (fun _ => Point.outside) = 0 + tally _ (fun _ => Point.outside) + (-value.toInt).toNat
      rw [hNone _ rfl, hNone _ rfl]
      omega
    · change some value.toInt.toNat = some (value.toInt.toNat + 0 + tally _ (fun _ => Point.outside))
      rw [hNone _ rfl]
      rfl
  · intro es p e p' _ h hStep
    obtain ⟨hStep, hNote⟩ := Machine.withHistory_step.mp hStep
    rw [hNote]
    exact h.step hThreads hStep

/-- In every run the calls take effect one at a time on a counting semaphore, each between its
start and its return and as its result says. The only crash is a signal to a semaphore that already
holds `LONG_MAX` permits. -/
theorem semaphore_linearizable {value : Int64} {dsema : DispatchSemaphore}
    (hCreate : dispatch_semaphore_create value = some dsema) (hThreads : Fintype.card ι < 2 ^ 63)
    {es : List (Event ι)} {p : State ι × List (SemaphoreOp ι)}
    (hRun : ((semaphore ι dsema).withHistory [] note).run es = some p) :
    (∀ i, Answers (callsOf i es) (opsOf i p.2) (p.1.point i)) ∧
    ∃ left, (countingSemaphore ι value.toInt.toNat).run p.2 = some left ∧
      (p.1.crashed = none → left = p.1.available) ∧
      ∀ message, p.1.crashed = some message →
        message = "Unbalanced call to dispatch_semaphore_signal()" ∧ 2 ^ 63 - 1 ≤ left := by
  have h := linear_of_run hCreate hThreads es p hRun
  refine ⟨h.answers, ?_⟩
  cases hCrashed : p.1.crashed with
  | none => exact ⟨_, (h.alive hCrashed).2, fun _ => rfl, fun _ hCrash => nomatch hCrash⟩
  | some message =>
    obtain ⟨hMessage, left, hLeft, hHigh⟩ := h.crashed message hCrashed
    refine ⟨left, hLeft, (nomatch ·), fun message' hCrash => ?_⟩
    cases hCrash
    exact ⟨hMessage, hHigh⟩

/-- A thread that has to wait, and the signal that lets it through. -/
def handOver : List (Event Bool) :=
  [.call false (.wait DISPATCH_TIME_FOREVER), .go false, .call true (.wait DISPATCH_TIME_FOREVER), .go true, .go true,
    .call false .signal, .go false, .go false, .go true, .go false, .go false, .go true]

theorem semaphore_linearizable_hand_over : ∃ p : State Bool × List (SemaphoreOp Bool),
    ((semaphore Bool ⟨1, 1, none⟩).withHistory [] note).run handOver = some p ∧
    p.2 = [.take false, .signal false, .take true] ∧ p.1.point false = .returned 1 ∧ p.1.point true = .returned 0 ∧
    Answers (callsOf true handOver) (opsOf true p.2) (p.1.point true) ∧
    (countingSemaphore Bool 1).run p.2 = some p.1.available := by
  obtain ⟨p, hRun⟩ := Option.isSome_iff_exists.mp
    (show (((semaphore Bool ⟨1, 1, none⟩).withHistory [] note).run handOver).isSome = true by decide +kernel)
  obtain ⟨hAnswers, left, hLeft, hAvailable, _⟩ :=
    semaphore_linearizable (show dispatch_semaphore_create 1 = some ⟨1, 1, none⟩ from rfl) (by decide) hRun
  have hAlive := Machine.read_of_run hRun (f := fun p => p.1.crashed) (x := none) (by decide +kernel)
  refine ⟨p, hRun, ?_, ?_, ?_, hAnswers true, hAvailable hAlive ▸ hLeft⟩
  · exact Machine.read_of_run hRun (f := fun p => p.2) (by decide +kernel)
  · exact Machine.read_of_run hRun (f := fun p => p.1.point false) (by decide +kernel)
  · exact Machine.read_of_run hRun (f := fun p => p.1.point true) (by decide +kernel)

end Run

end OCNote.Dispatch.Semaphore
