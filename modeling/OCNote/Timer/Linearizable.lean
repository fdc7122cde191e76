import OCNote.Timer.Acquisition

/-! # MBTimer is linearizable

In every state that any number of threads reach by any interleaving of the statements, the
names returned, the sources cancelled and the entries are those of the accepted calls one
at a time. Only the holder of the semaphore touches the entries, the holder runs no task,
and the semaphore never stops everybody. -/

namespace OCNote.Timer.Interleaved
open OCNote.Support
set_option autoImplicit false

universe u v

section Runs

variable {ι : Type v} {τ : Type u}

theorem point_of_isIdle {s : State ι τ} {i : ι} (h : s.isIdle i = true) : s.point i = .idle := by
  cases hp : s.point i with
  | idle => rfl
  | _ => simp [State.isIdle, hp] at h

variable [DecidableEq ι]

theorem call_cases {s s' : State ι τ} {i : ι} {p : Point τ} (h : call s i p = some s') :
    s.point i = .idle ∧ s' = s.goto i p := by
  unfold call at h
  split at h
  · exact ⟨point_of_isIdle ‹_›, (Option.some.inj h).symm⟩
  · cases h

theorem fire_cases {serves : ι → Bool → Bool} {s s' : State ι τ} {i : ι} {timer : Nat}
    (h : fire serves s i timer = some s') :
    ∃ context running, s' = { s with context := context, running := running } := by
  unfold fire at h
  split at h
  · cases h
  · split at h
    · exact ⟨_, _, (Option.some.inj h).symm⟩
    · cases h

theorem taskReturns_cases {s s' : State ι τ} {i : ι} (h : taskReturns s i = some s') :
    s.point i = .idle ∧ ((∃ context running, s' = { s with context := context, running := running }) ∨
      ∃ name context, s' = { s.goto i (.testName (some name)) with context := context }) := by
  unfold taskReturns at h
  split at h
  · refine ⟨point_of_isIdle ‹_›, ?_⟩
    obtain ⟨handler, _, rfl⟩ := Option.map_eq_some_iff.mp h
    split
    · exact .inl ⟨_, _, rfl⟩
    · exact .inr ⟨handler.name, _, rfl⟩
  · cases h

theorem Inv.step {serves : ι → Bool → Bool} {s s' : State ι τ} (h : Inv s) {a : Action ι τ}
    (hStep : Interleaved.step serves s a = some s') : Inv s' := by
  cases a with
  | execTask | cancelTask =>
    obtain ⟨hIdle, rfl⟩ := call_cases hStep
    exact h.goto hIdle id id trivial nofun id
  | fire =>
    obtain ⟨context, running, rfl⟩ := fire_cases hStep
    exact h.elsewhere context running
  | taskReturns =>
    obtain ⟨hIdle, ⟨context, running, rfl⟩ | ⟨name, context, rfl⟩⟩ := taskReturns_cases hStep
    · exact h.elsewhere context running
    · exact (h.goto (p := .testName (some name)) hIdle id id trivial nofun id).elsewhere context s.running
  | statement =>
    obtain hExec | ⟨_, hCancel⟩ := Option.or_eq_some_iff.mp hStep
    · exact h.execStatement hExec
    · exact h.cancelStatement hCancel

theorem threads_invariant {serves : ι → Bool → Bool} {s : State ι τ} (h : (threads serves).Reachable s) :
    Inv s :=
  Machine.invariant Inv.start (fun _ _ _ hInv hStep => hInv.step hStep) h

/-- While nobody holds the semaphore, the state is one of the registry in which each call
is one step. -/
theorem threads_refine_timers {serves : ι → Bool → Bool} {s : State ι τ} (h : (threads serves).Reachable s)
    (hFree : 0 < s.semaphore_) : ∃ events t, (timers τ).run events = some t ∧
      s.timers_.keys = t.timers_.keys ∧ ∀ name k, t.timers_.lookup name = some k →
        s.timers_.lookup name = (registered s.acquired)[k]? := by
  obtain ⟨hTimers, _⟩ := (threads_invariant h).free hFree
  refine ⟨_, _, timers_run_serial s.acquired, hTimers.keys, fun name k hEntry => ?_⟩
  rw [hTimers.lookup, hEntry, Option.bind_some]

end Runs

section Linearized

variable {ι : Type v} {τ : Type u}

/-- The entries and the cancelled sources are, each for itself, those before or after the
last call. -/
def LastInProgress (s : State ι τ) : Prop :=
  ∃ before call, s.acquired = before ++ [call] ∧
    (TimersMatch s.timers_ before ∨ TimersMatch s.timers_ s.acquired) ∧
    (CancelledMatch s.sources before ∨ CancelledMatch s.sources s.acquired)

/-- The state is that of the accepted calls one at a time, in the order in which they
acquired the semaphore. -/
structure Linearized (s : State ι τ) : Prop where
  accepted : ∀ call ∈ s.acquired, call.Guarded
  /-- Each accepted `execTask` has brought a source of its own. -/
  sources : (registered s.acquired).Nodup
  names : ∀ r result, (r, result) ∈ s.returned → Answered s.acquired r result
  /-- No two results belong to one call. -/
  once : (turns s.returned).Nodup
  free : s.holder = none → TimersMatch s.timers_ s.acquired ∧ CancelledMatch s.sources s.acquired
  held : ∀ i, s.holder = some i → LastInProgress s

theorem Inv.free_of_holder {s : State ι τ} (h : Inv s) (hHolder : s.holder = none) : 0 < s.semaphore_ := by
  obtain ⟨hOne, _⟩ | ⟨_, i, hi, _⟩ := h.lock
  · exact hOne ▸ Nat.one_pos
  · rw [(h.holder i).mpr hi] at hHolder
    cases hHolder

theorem Begun.lastInProgress {s : State ι τ} {call : Accepted τ}
    (h : Begun s.timers_ s.sources s.acquired call) : LastInProgress s := by
  obtain ⟨before, hAcquired, hTimers, hCancelled⟩ := h
  exact ⟨before, call, hAcquired, .inl hTimers, .inl hCancelled⟩

theorem Settled.lastInProgress {s : State ι τ} (h : Settled s.timers_ s.sources s.acquired)
    (hAcquired : s.acquired ≠ []) : LastInProgress s :=
  ⟨_, _, (List.dropLast_append_getLast hAcquired).symm, .inr h.1, .inr h.2⟩

theorem Inv.lastInProgress {s : State ι τ} (h : Inv s) {i : ι} (hHolder : s.holder = some i) :
    LastInProgress s := by
  have hInside := (h.holder i).mp hHolder
  have hAcquired : s.acquired ≠ [] := by
    intro hNil
    have hTurn := h.turn i hInside
    rw [hNil] at hTurn
    cases hTurn
  have hHeld := h.held i
  cases hp : s.point i with
  | readCount | lookup =>
    rw [hp] at hHeld
    exact Begun.lastInProgress hHeld
  | store | cancelSource =>
    rw [hp] at hHeld
    exact Begun.lastInProgress hHeld.1
  | remove name =>
    rw [hp] at hHeld
    obtain ⟨before, hAcquired, hTimers, hCancelled, _⟩ := hHeld
    exact ⟨before, _, hAcquired, .inl hTimers, .inr hCancelled⟩
  | signalExec | signalCancel =>
    rw [hp] at hHeld
    exact Settled.lastInProgress hHeld hAcquired
  | _ =>
    rw [hp] at hInside
    exact hInside.elim

theorem Inv.linearized {s : State ι τ} (h : Inv s) : Linearized s where
  accepted := h.guarded
  sources := h.pending.distinct
  names := h.answered
  once := h.differ.once
  free hHolder := h.free (h.free_of_holder hHolder)
  held _ hHolder := h.lastInProgress hHolder

@[simp] theorem isIdle_timers (s : State ι τ) (i : ι) (timers_ : AList fun _ : String => Nat) :
    ({ s with timers_ := timers_ } : State ι τ).isIdle i = s.isIdle i := rfl

variable [DecidableEq ι]

/-- The action neither reads nor writes the entries. -/
def Untouched (serves : ι → Bool → Bool) (s : State ι τ) (a : Action ι τ) : Prop :=
  ∀ timers_, step serves { s with timers_ := timers_ } a =
    (step serves s a).map fun s' => { s' with timers_ := timers_ }

theorem untouched_finish (s : State ι τ) (i : ι) (timers_ : AList fun _ : String => Nat) :
    ({ s with timers_ := timers_ } : State ι τ).finish i = { s.finish i with timers_ := timers_ } := by
  unfold State.finish
  simp only
  split <;> rfl

theorem untouched_wait (s : State ι τ) (i : ι) (call : Accepted τ) (p : Point τ)
    (timers_ : AList fun _ : String => Nat) :
    ({ s with timers_ := timers_ } : State ι τ).wait i call p =
      (s.wait i call p).map fun s' => { s' with timers_ := timers_ } := by
  unfold State.wait
  simp only
  split <;> rfl

theorem untouched_call (s : State ι τ) (i : ι) (p : Point τ) (timers_ : AList fun _ : String => Nat) :
    call { s with timers_ := timers_ } i p = (call s i p).map fun s' => { s' with timers_ := timers_ } := by
  cases hIdle : s.isIdle i <;> simp [call, hIdle, State.goto]

theorem untouched_fire (serves : ι → Bool → Bool) (s : State ι τ) (i : ι) (timer : Nat) :
    Untouched serves s (.fire i timer) := by
  intro timers_
  cases hSource : s.sources[timer]? <;> simp [step, fire, hSource, Option.map_if]

theorem untouched_taskReturns (serves : ι → Bool → Bool) (s : State ι τ) (i : ι) :
    Untouched serves s (.taskReturns i) := by
  intro timers_
  cases hIdle : s.isIdle i with
  | false => simp [step, taskReturns, hIdle]
  | true =>
    cases hContext : s.context i with
    | task timer =>
      cases hHandler : s.sources[timer]?.bind Source.handler with
      | none => simp [step, taskReturns, hIdle, hContext, hHandler]
      | some handler =>
        simp only [step, taskReturns, isIdle_timers, hIdle, hContext, hHandler, Option.map_some]
        split <;> rfl
    | plain | selfCancel => simp [step, taskReturns, hIdle, hContext]

theorem untouched_of_outside (serves : ι → Bool → Bool) {s : State ι τ} {i : ι}
    (hi : ¬ (s.point i).Inside) : Untouched serves s (.statement i) := by
  intro timers_
  cases hp : s.point i with
  | readCount | store | signalExec | lookup | cancelSource | remove | signalCancel =>
    exact absurd (hp ▸ trivial) hi
  | waitExec | waitCancel => simp [step, execStatement, cancelStatement, hp, untouched_wait]
  | returnName | returnCancel => simp [step, execStatement, cancelStatement, hp, ← untouched_finish]
  | testName name => cases name <;> simp [step, execStatement, cancelStatement, hp, State.goto]
  | _ => simp [step, execStatement, cancelStatement, hp, State.goto, State.setSource]

theorem Inv.untouched_or_holder (serves : ι → Bool → Bool) {s : State ι τ} (h : Inv s) (a : Action ι τ) :
    Untouched serves s a ∨ ∃ i, a = .statement i ∧ s.holder = some i := by
  cases a with
  | execTask i r => exact .inl (untouched_call s i _)
  | cancelTask i name => exact .inl (untouched_call s i _)
  | fire i timer => exact .inl (untouched_fire serves s i timer)
  | taskReturns i => exact .inl (untouched_taskReturns serves s i)
  | statement i =>
    by_cases hi : (s.point i).Inside
    · exact .inr ⟨i, rfl, (h.holder i).mpr hi⟩
    · exact .inl (untouched_of_outside serves hi)

theorem statement_enabled (serves : ι → Bool → Bool) {s : State ι τ} {i : ι}
    (hCall : s.isIdle i = false) (hFree : (s.point i).Inside ∨ 0 < s.semaphore_) :
    ∃ s', step serves s (.statement i) = some s' := by
  rw [← Option.isSome_iff_exists]
  cases hp : s.point i with
  | idle => simp [State.isIdle, hp] at hCall
  | waitExec | waitCancel =>
    rw [hp] at hFree
    have hFree := Nat.ne_of_gt (hFree.resolve_left id)
    simp [step, execStatement, cancelStatement, hp, State.wait, hFree]
  | testName name => cases name <;> simp [step, execStatement, cancelStatement, hp]
  | _ => simp [step, execStatement, cancelStatement, hp]

/-- The holder can always go on, and a free semaphore stops nobody. -/
theorem Inv.exists_unblocked (serves : ι → Bool → Bool) {s : State ι τ} (h : Inv s) {i : ι}
    (hCall : s.isIdle i = false) :
    ∃ j, s.isIdle j = false ∧ ∃ s', Interleaved.step serves s (.statement j) = some s' := by
  obtain ⟨hOne, _⟩ | ⟨_, j, hj, _⟩ := h.lock
  · exact ⟨i, hCall, statement_enabled serves hCall (.inr (hOne ▸ Nat.one_pos))⟩
  · have hBusy : s.isIdle j = false := by
      cases hIdle : s.isIdle j with
      | false => rfl
      | true =>
        rw [point_of_isIdle hIdle] at hj
        exact hj.elim
    exact ⟨j, hBusy, statement_enabled serves hBusy (.inl hj)⟩

structure Correct (serves : ι → Bool → Bool) (s : State ι τ) : Prop where
  linearized : Linearized s
  touched : ∀ a, Untouched serves s a ∨ ∃ i, a = .statement i ∧ s.holder = some i
  /-- A thread whose task block is not in a call of its own runs the block. -/
  tasks : ∀ i timer, s.context i = .task timer → s.isIdle i = true → s.holder ≠ some i
  unblocked : ∀ i, s.isIdle i = false →
    ∃ j, s.isIdle j = false ∧ ∃ s', step serves s (.statement j) = some s'

/-- The threads may be any number, and `serves` any assignment of queues to them. -/
theorem threads_correct (serves : ι → Bool → Bool) {s : State ι τ} (h : (threads serves).Reachable s) :
    Correct serves s := by
  have hInv := threads_invariant h
  refine ⟨hInv.linearized, hInv.untouched_or_holder serves, ?_, fun _ => hInv.exists_unblocked serves⟩
  intro i timer _ hIdle hHolder
  have hInside := (hInv.holder i).mp hHolder
  rw [point_of_isIdle hIdle] at hInside
  exact hInside

end Linearized

/-- Two calls overlap, a timer of the first thread fires on the second, and its task
cancels the other timer. -/
def overlapping : List (Action Bool Unit) :=
  [.execTask true everySecond, .execTask false everySecond, .statement true, .statement false,
    .statement false, .statement true, .statement true, .statement true, .statement true,
    .statement false, .statement true, .statement true, .statement false, .statement false,
    .statement true, .statement true, .statement true, .statement false, .statement false,
    .statement false, .statement false, .statement false, .fire false 1, .cancelTask false (some "1"),
    .statement false, .statement false, .statement false, .statement false]

theorem threads_correct_overlapping :
    Correct (fun _ _ => true) ((threads fun _ _ => true).after overlapping rfl) :=
  threads_correct _ (Machine.reachable_after _ overlapping rfl)

end OCNote.Timer.Interleaved
