import Mathlib.Data.List.Chain
import OCNote.Monitor.Workers

/-! # The CPU timers over a sequence of calls

`beginMonitor` schedules a timer before it tests whether monitoring is on, and the one
property holds the last of them. -/

namespace OCNote.Monitor
open OCNote.Support
set_option autoImplicit false

inductive Call where
  | beginMonitor
  | endMonitor
  deriving DecidableEq, Repr

def Action.call? : Action → Option Call
  | .beginMonitor => some .beginMonitor
  | .endMonitor => some .endMonitor
  | _ => none

def callsOf (actions : List Action) : List Call := actions.filterMap Action.call?

/-- In every run with these calls at most one timer is valid, and none after an
`endMonitor` that has returned. -/
structure TimersReleased (calls : List Call) : Prop where
  atMostOne : ∀ actions s, monitor.run actions = some s → callsOf actions <+: calls →
    s.validTimers.length ≤ 1
  released : ∀ actions s, monitor.run actions = some s → callsOf actions <+: calls →
    (callsOf actions).getLast? = some .endMonitor → s.main = .idle → s.validTimers = []

/-- No `beginMonitor` directly follows another. -/
def NoRepeatedBegin (calls : List Call) : Prop :=
  calls.IsChain fun c c' => ¬ (c = .beginMonitor ∧ c' = .beginMonitor)

/-- The main thread is about to schedule or to invalidate a timer. -/
def MainPoint.Timing (p : MainPoint) : Prop := p = .scheduleTimer ∨ p = .invalidateTimer

instance : DecidablePred MainPoint.Timing := fun _ => inferInstanceAs (Decidable (_ ∨ _))

section Effects

/-- What a step does to the timers. -/
inductive TimerEffect (s : State) (a : Action) (s' : State) : Prop
  | keep (hCall : a.call? = none) (hMain : s'.main = s.main ∨ (¬ s.main.Timing ∧ ¬ s'.main.Timing))
      (hTimer : s'.cpuMonitorTimer = s.cpuMonitorTimer) (hValid : s'.validTimers = s.validTimers)
  | schedule (hCall : a.call? = none) (hMain : s.main = .scheduleTimer) (hMain' : s'.main = .testRunning)
      (hTimer : s'.cpuMonitorTimer = some s.timers) (hValid : s'.validTimers = s.validTimers ++ [s.timers])
  | invalidate (hCall : a.call? = none) (hMain : s.main = .invalidateTimer) (hMain' : s'.main = .testStopped)
      (hValid : s'.validTimers = s.validTimers.filter fun timer => s.cpuMonitorTimer ≠ some timer)
  | beginMonitor (hCall : a.call? = some .beginMonitor) (hMain : s.main = .idle)
      (hMain' : s'.main = .scheduleTimer) (hTimer : s'.cpuMonitorTimer = s.cpuMonitorTimer)
      (hValid : s'.validTimers = s.validTimers)
  | endMonitor (hCall : a.call? = some .endMonitor) (hMain : s.main = .idle)
      (hMain' : s'.main = .invalidateTimer) (hTimer : s'.cpuMonitorTimer = s.cpuMonitorTimer)
      (hValid : s'.validTimers = s.validTimers)

theorem mainStep_timers {s s' : State} (h : mainStep s = some s') : TimerEffect s .main s' := by
  cases mainStep_cases h with
  | scheduleTimer hMain => exact .schedule rfl hMain rfl rfl rfl
  | invalidateTimer hMain => exact .invalidate rfl hMain rfl rfl
  | testRunning hMain | testStopped hMain =>
    refine .keep rfl (.inr ⟨by rw [hMain]; decide, ?_⟩) rfl rfl
    cases s.runLoopObserver <;> simp [State.goto, MainPoint.Timing]
  | crash => exact .keep rfl (.inl rfl) rfl rfl
  | createSemaphore hMain | createObserver hMain | addObserver hMain | startWorker hMain
  | removeObserver hMain | releaseObserver hMain | clearObserver hMain | storeActivity hMain
  | readSemaphore hMain | signal hMain =>
    exact .keep rfl (.inr ⟨by simp [hMain, MainPoint.Timing], by simp [State.goto, MainPoint.Timing]⟩) rfl rfl

theorem step_timers {s s' : State} {a : Action} (h : step s a = some s') : TimerEffect s a s' := by
  unfold step at h
  split at h
  · cases h
  · cases a with
    | beginMonitor =>
      obtain ⟨hIdle, rfl⟩ := call_cases h
      exact .beginMonitor rfl hIdle rfl rfl rfl
    | endMonitor =>
      obtain ⟨hIdle, rfl⟩ := call_cases h
      exact .endMonitor rfl hIdle rfl rfl rfl
    | callBack activity =>
      simp only at h
      split at h
      · cases h
      · obtain ⟨hIdle, rfl⟩ := call_cases h
        exact .keep rfl (.inr ⟨by rw [hIdle]; decide, by simp [State.goto, MainPoint.Timing]⟩) rfl rfl
    | main => exact mainStep_timers h
    | worker i => cases workerStep_cases h <;> exact .keep rfl (.inl rfl) rfl rfl
    | timeout i =>
      obtain ⟨_, _, rfl⟩ := timeoutStep_cases h
      exact .keep rfl (.inl rfl) rfl rfl

end Effects

section Balance

theorem callsOf_append (actions more : List Action) :
    callsOf (actions ++ more) = callsOf actions ++ callsOf more := List.filterMap_append

theorem callsOf_concat (actions : List Action) (a : Action) :
    callsOf (actions ++ [a]) = callsOf actions ++ a.call?.toList := by
  rw [callsOf_append]
  cases hCall : a.call? <;> simp [callsOf, hCall]

theorem NoRepeatedBegin.last {calls : List Call} (h : NoRepeatedBegin (calls ++ [.beginMonitor])) :
    calls.getLast? ≠ some .beginMonitor := by
  intro hLast
  obtain ⟨front, rfl⟩ := List.getLast?_eq_some_iff.mp hLast
  rw [NoRepeatedBegin, List.append_assoc] at h
  exact (List.isChain_append_cons_cons.mp h).2.1 ⟨rfl, rfl⟩

theorem NoRepeatedBegin.of_start {front calls : List Call} (h : NoRepeatedBegin calls)
    (hFront : front <+: calls) : NoRepeatedBegin front := by
  obtain ⟨back, rfl⟩ := hFront
  exact h.left_of_append

/-- Calls and timers as long as no `beginMonitor` has directly followed another. -/
structure Timed (last : Option Call) (s : State) : Prop where
  one : s.validTimers = [] ∨ ∃ timer, s.cpuMonitorTimer = some timer ∧ s.validTimers = [timer]
  nil : last ≠ some .beginMonitor → s.main ≠ .invalidateTimer → s.validTimers = []
  scheduling : s.main = .scheduleTimer → s.validTimers = []

theorem Timed.of_not_timing {last : Option Call} {s s' : State} (h : Timed last s) (hTiming : ¬ s.main.Timing)
    (hTiming' : ¬ s'.main.Timing) (hTimer : s'.cpuMonitorTimer = s.cpuMonitorTimer)
    (hValid : s'.validTimers = s.validTimers) : Timed last s' where
  one := by rw [hTimer, hValid]; exact h.one
  nil hLast _ := by
    rw [hValid]
    exact h.nil hLast fun hMain => hTiming (.inr hMain)
  scheduling hMain := absurd (.inl hMain) hTiming'

theorem Timed.step {calls : List Call} {s s' : State} {a : Action} (h : Timed calls.getLast? s)
    (hEffect : TimerEffect s a s') (hScheduling : s.main = .scheduleTimer → calls.getLast? = some .beginMonitor)
    (hCalls : NoRepeatedBegin (calls ++ a.call?.toList)) : Timed (calls ++ a.call?.toList).getLast? s' := by
  cases hEffect with
  | keep hCall hMain hTimer hValid =>
    rw [hCall, Option.toList_none, List.append_nil]
    obtain hMain | ⟨hTiming, hTiming'⟩ := hMain
    · constructor <;> rw [hValid]
      · rw [hTimer]
        exact h.one
      · rw [hMain]
        exact h.nil
      · rw [hMain]
        exact h.scheduling
    · exact h.of_not_timing hTiming hTiming' hTimer hValid
  | schedule hCall hMain hMain' hTimer hValid =>
    rw [hCall, Option.toList_none, List.append_nil]
    refine ⟨.inr ⟨s.timers, hTimer, ?_⟩, fun hLast => absurd (hScheduling hMain) hLast, fun hAt => ?_⟩
    · rw [hValid, h.scheduling hMain]
      rfl
    · rw [hMain'] at hAt
      cases hAt
  | invalidate hCall hMain hMain' hValid =>
    rw [hCall, Option.toList_none, List.append_nil]
    have hNone : s'.validTimers = [] := by
      obtain hNil | ⟨timer, hTimer, hOne⟩ := h.one
      · rw [hValid, hNil]
        rfl
      · simp [hValid, hOne, hTimer]
    exact ⟨.inl hNone, fun _ _ => hNone, fun _ => hNone⟩
  | beginMonitor hCall hMain hMain' hTimer hValid =>
    rw [hCall] at hCalls ⊢
    have hNone := h.nil hCalls.last (by rw [hMain]; decide)
    rw [← hValid] at hNone
    refine ⟨.inl hNone, fun hLast => ?_, fun _ => hNone⟩
    exact absurd (by simp) hLast
  | endMonitor hCall hMain hMain' hTimer hValid =>
    refine ⟨by rw [hTimer, hValid]; exact h.one, fun _ hNot => absurd hMain' hNot, fun hAt => ?_⟩
    rw [hMain'] at hAt
    cases hAt

/-- Whatever the calls, the main thread schedules a timer only in `beginMonitor`, and from
then on one is valid until the next `endMonitor`. -/
structure Scheduled (last : Option Call) (s : State) : Prop where
  scheduling : s.main = .scheduleTimer → last = some .beginMonitor
  invalidating : s.main = .invalidateTimer → last = some .endMonitor
  valid : last = some .beginMonitor → s.main ≠ .scheduleTimer → s.validTimers ≠ []

theorem Scheduled.step {calls : List Call} {s s' : State} {a : Action} (h : Scheduled calls.getLast? s)
    (hEffect : TimerEffect s a s') : Scheduled (calls ++ a.call?.toList).getLast? s' := by
  cases hEffect with
  | keep hCall hMain hTimer hValid =>
    rw [hCall, Option.toList_none, List.append_nil]
    obtain hMain | ⟨hTiming, hTiming'⟩ := hMain
    · constructor <;> rw [hMain]
      · exact h.scheduling
      · exact h.invalidating
      · rw [hValid]
        exact h.valid
    · refine ⟨fun hAt => absurd (.inl hAt) hTiming', fun hAt => absurd (.inr hAt) hTiming', fun hLast _ => ?_⟩
      rw [hValid]
      exact h.valid hLast fun hAt => hTiming (.inl hAt)
  | schedule hCall hMain hMain' hTimer hValid =>
    rw [hCall, Option.toList_none, List.append_nil]
    constructor <;> rw [hMain']
    · exact fun hAt => by cases hAt
    · exact fun hAt => by cases hAt
    · rw [hValid]
      exact fun _ _ => by simp
  | invalidate hCall hMain hMain' hValid =>
    rw [hCall, Option.toList_none, List.append_nil]
    constructor <;> rw [hMain']
    · exact fun hAt => by cases hAt
    · exact fun hAt => by cases hAt
    · intro hLast
      rw [h.invalidating hMain] at hLast
      cases hLast
  | beginMonitor hCall hMain hMain' hTimer hValid =>
    rw [hCall]
    constructor <;> rw [hMain'] <;> simp
  | endMonitor hCall hMain hMain' hTimer hValid =>
    rw [hCall]
    constructor <;> rw [hMain'] <;> simp

theorem scheduled {actions : List Action} {s : State} (hRun : monitor.run actions = some s) :
    Scheduled (callsOf actions).getLast? s := by
  refine Machine.run_induction (P := fun actions s => Scheduled (callsOf actions).getLast? s) ?_ ?_
    actions s hRun
  · exact ⟨fun h => (by cases h), fun h => (by cases h), fun h => (by cases h)⟩
  · intro actions s a s' _ ih hStep
    rw [callsOf_concat]
    exact ih.step (step_timers hStep)

theorem timed {actions : List Action} {s : State} (hRun : monitor.run actions = some s)
    (hCalls : NoRepeatedBegin (callsOf actions)) : Timed (callsOf actions).getLast? s := by
  revert hCalls
  refine Machine.run_induction (P := fun actions s => NoRepeatedBegin (callsOf actions) →
    Timed (callsOf actions).getLast? s) ?_ ?_ actions s hRun
  · exact fun _ => ⟨.inl rfl, fun _ _ => rfl, fun _ => rfl⟩
  · intro actions s a s' hRun ih hStep hCalls
    rw [callsOf_concat] at hCalls ⊢
    have hBefore := hCalls.of_start (List.prefix_append _ _)
    exact (ih hBefore).step (step_timers hStep) (scheduled hRun).scheduling hCalls

end Balance

section Runs

def Call.action : Call → Action
  | .beginMonitor => .beginMonitor
  | .endMonitor => .endMonitor

/-- How many steps a call in progress can still take. -/
def MainPoint.stepsLeft : MainPoint → Nat
  | .scheduleTimer => 6
  | .testRunning | .invalidateTimer => 5
  | .createSemaphore | .testStopped => 4
  | .createObserver | .removeObserver => 3
  | .addObserver | .releaseObserver => 2
  | .startWorker | .clearObserver => 1
  | .idle | .storeActivity _ | .readSemaphore | .signal _ => 0

theorem mainStep_stepsLeft {s : State} (h : 0 < s.main.stepsLeft) : ∃ s', mainStep s = some s' ∧
    s'.crashed = s.crashed ∧ s'.main.stepsLeft < s.main.stepsLeft ∧
    (s'.main.stepsLeft = 0 → s'.main = .idle) := by
  cases hMain : s.main with
  | idle | storeActivity | readSemaphore | signal => simp [hMain, MainPoint.stepsLeft] at h
  | testRunning | testStopped =>
    simp only [mainStep, hMain, Option.some.injEq, exists_eq_left']
    refine ⟨rfl, ?_, ?_⟩ <;> cases s.runLoopObserver <;> simp [State.goto, MainPoint.stepsLeft]
  | scheduleTimer | createSemaphore | createObserver | addObserver | startWorker | invalidateTimer
  | removeObserver | releaseObserver | clearObserver =>
    simp only [mainStep, hMain, Option.some.injEq, exists_eq_left']
    refine ⟨rfl, ?_, ?_⟩ <;> simp [State.goto, MainPoint.stepsLeft]

/-- Left alone, a call returns. -/
theorem exists_return {s : State} (hCrashed : s.crashed = false)
    (hMain : s.main.stepsLeft = 0 → s.main = .idle) : ∃ n t,
    monitor.runFrom s (List.replicate n .main) = some t ∧ t.main = .idle ∧ t.crashed = false := by
  induction hn : s.main.stepsLeft using Nat.strongRecOn generalizing s with
  | ind n ih =>
    obtain hZero | hPos := Nat.eq_zero_or_pos n
    · exact ⟨0, s, rfl, hMain (hn.trans hZero), hCrashed⟩
    · obtain ⟨s', hStep, hSame, hLess, hMain'⟩ := mainStep_stepsLeft (hn ▸ hPos)
      obtain ⟨k, t, hRun, hIdle, hSafe⟩ := ih _ (hn ▸ hLess) (hSame.trans hCrashed) hMain' rfl
      refine ⟨k + 1, t, ?_, hIdle, hSafe⟩
      have hStep' : monitor.step s .main = some s' := by simp [monitor, step, hCrashed, hStep]
      rw [List.replicate_succ, Machine.runFrom, hStep']
      exact hRun

theorem callsOf_replicate (n : Nat) : callsOf (List.replicate n .main) = [] := by
  induction n with
  | zero => rfl
  | succ n ih => exact ih

theorem exists_run (calls : List Call) : ∃ actions s, monitor.run actions = some s ∧
    callsOf actions = calls ∧ s.main = .idle ∧ s.crashed = false := by
  induction calls using List.reverseRecOn with
  | nil => exact ⟨[], initial, rfl, rfl, rfl, rfl⟩
  | append_singleton calls c ih =>
    obtain ⟨actions, s, hRun, hCalls, hIdle, hCrashed⟩ := ih
    obtain ⟨p, hCall, hPoint⟩ : ∃ p, step s c.action = some (s.goto p) ∧ 0 < p.stepsLeft := by
      cases c with
      | beginMonitor => exact ⟨.scheduleTimer, by simp [step, Call.action, hCrashed, call, hIdle], by decide⟩
      | endMonitor => exact ⟨.invalidateTimer, by simp [step, Call.action, hCrashed, call, hIdle], by decide⟩
    obtain ⟨n, t, hReturn, hIdle', hCrashed'⟩ := exists_return (s := s.goto p) hCrashed
      fun hZero => absurd hZero (Nat.ne_of_gt hPoint)
    refine ⟨actions ++ c.action :: List.replicate n .main, t, ?_, ?_, hIdle', hCrashed'⟩
    · rw [Machine.run, Machine.runFrom_append]
      change (monitor.run actions).bind _ = _
      rw [hRun, Option.bind_some, Machine.runFrom]
      change (step s c.action).bind _ = _
      rw [hCall]
      exact hReturn
    · have hHead : callsOf (c.action :: List.replicate n .main) = c :: callsOf (List.replicate n .main) := by
        cases c <;> rfl
      rw [callsOf_append, hCalls, hHead, callsOf_replicate]

/-- The second of two successive `beginMonitor` leaves two timers. -/
theorem noRepeatedBegin_of_released {calls : List Call} (h : TimersReleased calls) :
    NoRepeatedBegin calls := by
  refine List.isChain_iff_forall_rel_of_append_cons_cons.mpr ?_
  rintro _ _ front back hSplit ⟨rfl, rfl⟩
  obtain ⟨actions, s, hRun, hCalls, hIdle, hCrashed⟩ := exists_run (front ++ [.beginMonitor])
  have hValid : s.validTimers ≠ [] :=
    (scheduled hRun).valid (by rw [hCalls]; simp) (by rw [hIdle]; decide)
  have hCall : monitor.step s .beginMonitor = some (s.goto .scheduleTimer) := by
    simp [monitor, step, hCrashed, call, hIdle]
  have hSchedule : monitor.step (s.goto .scheduleTimer) .main =
      some ({ s with
        cpuMonitorTimer := some s.timers
        validTimers := s.validTimers ++ [s.timers]
        timers := s.timers + 1 }.goto .testRunning) := by
    simp [monitor, step, hCrashed, mainStep, State.goto]
  have hTwo := h.atMostOne (actions ++ [.beginMonitor] ++ [.main]) _
    (by rw [Machine.run_concat, Machine.run_concat, hRun, Option.bind_some, hCall]; exact hSchedule)
    ⟨back, by rw [callsOf_concat, callsOf_concat, hCalls, hSplit]; simp [Action.call?]⟩
  have hPos := List.length_pos_iff.mpr hValid
  simp only [State.goto, List.length_append, List.length_singleton] at hTwo
  omega

/-- Every timer is released exactly for the sequences in which no `beginMonitor` directly
follows another. -/
theorem timersReleased_iff (calls : List Call) : TimersReleased calls ↔ NoRepeatedBegin calls := by
  refine ⟨noRepeatedBegin_of_released, fun h => ⟨?_, ?_⟩⟩
  · intro actions s hRun hPrefix
    obtain hNil | ⟨timer, _, hOne⟩ := (timed hRun (h.of_start hPrefix)).one
    · rw [hNil]
      exact Nat.zero_le 1
    · rw [hOne]
      exact le_rfl
  · intro actions s hRun hPrefix hLast hIdle
    exact (timed hRun (h.of_start hPrefix)).nil (by rw [hLast]; decide) (by rw [hIdle]; decide)

/-- The property forgets the first of two timers, so `endMonitor` cannot invalidate it. -/
theorem repeated_begin_leaks_timer : ¬ ∀ calls, TimersReleased calls := by
  intro hClaim
  let actions : List Action := [[.beginMonitor], List.replicate 6 .main, [.beginMonitor],
    List.replicate 2 .main, [.endMonitor], List.replicate 5 .main].flatten
  have hNone := (hClaim [.beginMonitor, .beginMonitor, .endMonitor]).released actions
    (monitor.after actions rfl) rfl (List.prefix_refl _) rfl rfl
  have hLeft : (monitor.after actions rfl).validTimers = [0] := rfl
  rw [hLeft] at hNone
  cases hNone

end Runs

end OCNote.Monitor
