import OCNote.PermanentThread.Delivery

/-! # Concurrent clients at shutdown

The nil check of `innerThread` and the post are not atomic, so a message can reach the
mailbox behind the `__stop` that ends the loop. Such messages are the only ones lost. -/

namespace OCNote.PermanentThread
open OCNote.Support
set_option autoImplicit false

universe u v

variable {ι : Type v} {τ : Type u}

/-- The message that the call in progress posts, once the nil check has let it through. -/
def State.pending (s : State ι τ) (i : ι) : Option (Message ι τ) :=
  if s.point i = .checked ∨ s.point i = .target true then
    match s.todo i with
    | .call (.excuteTaskBlock (some task)) :: _ => some (.excuteTaskBlock task i)
    | .call .stop :: _ => some (.stop i)
    | _ => none
  else none

theorem State.pending_eq_none {s : State ι τ} {i : ι} (hChecked : s.point i ≠ .checked)
    (hTarget : s.point i ≠ .target true) : s.pending i = none := by
  simp [State.pending, hChecked, hTarget]

variable [DecidableEq ι]

def startedThread (program : ι → List (Call τ)) : Machine (State ι τ) (Action ι) where
  start := { initial fun i => (program i).map .call with loop := .test }
  step := step

/-- Once the loop is left no message is unperformed and no caller of `stop` waits. -/
def NothingLost (program : ι → List (Call τ)) : Prop :=
  ∀ s, (startedThread program).Reachable s → s.loop = .left →
    s.mailbox = [] ∧ ∀ i, s.point i ≠ .waiting

def taskAndStop : Bool → List (Call Char) :=
  fun i => if i then [.stop] else [.excuteTaskBlock (some 'a')]

/-- The first client checks `innerThread`, the second stops the thread, the first posts. -/
def overlappingRun : List (Action Bool) :=
  [.client false, .client false, .client true, .client true, .client true, .test, .perform,
    .endPass, .test, .client false]

theorem overlapping_task_is_lost : ¬ NothingLost taskAndStop := by
  intro hClaim
  let s := (startedThread taskAndStop).after overlappingRun rfl
  have hLost : s.mailbox = [.excuteTaskBlock 'a' false] := rfl
  have hEmpty := (hClaim s (Machine.reachable_after _ _ _) rfl).1
  rw [hLost] at hEmpty
  cases hEmpty

/-- Nobody gives up a reference, so only `stopped` ends the loop. -/
structure Held (s : State ι τ) : Prop where
  calls : ∀ i stmt, stmt ∈ s.todo i → ∃ c, stmt = .call c
  references : 0 < s.references
  left : s.loop = .left → s.stopped = true

omit [DecidableEq ι] in
theorem Held.weakSelf {s : State ι τ} (h : Held s) : s.weakSelf = true := by
  simp [State.weakSelf, h.references]

theorem Held.finish {s : State ι τ} (h : Held s) (i : ι) : Held (s.finish i) where
  calls j stmt hMem := by
    obtain rfl | hji := eq_or_ne j i
    · simp only [State.finish, Function.update_self] at hMem
      exact h.calls j stmt (List.mem_of_mem_tail hMem)
    · simp only [State.finish, Function.update_of_ne hji] at hMem
      exact h.calls j stmt hMem
  references := h.references
  left := h.left

omit [DecidableEq ι] in
theorem Held.of_todo {s s' : State ι τ} (h : Held s) (hTodo : s'.todo = s.todo)
    (hReferences : s'.references = s.references)
    (hLeft : s'.loop = .left → s'.stopped = true) : Held s' :=
  ⟨by rw [hTodo]; exact h.calls, by rw [hReferences]; exact h.references, hLeft⟩

theorem Held.client {s s' : State ι τ} {i : ι} (h : Held s) (hMove : ClientMove s i s') :
    Held s' := by
  cases hMove with
  | release hTodo _ =>
    obtain ⟨c, hc⟩ := h.calls i .release (by rw [hTodo]; exact List.mem_cons_self)
    cases hc
  | refuse | startNil | resume => exact h.finish i
  | check | read | raise => exact h.of_todo rfl rfl h.left
  | start =>
    have hStarted : Held { s with loop := .test } := h.of_todo rfl rfl fun hLoop => by cases hLoop
    exact hStarted.finish i
  | @postTask task =>
    have hPosted : Held (s.post (.excuteTaskBlock task i)) := h.of_todo rfl rfl h.left
    exact hPosted.finish i
  | postStop => exact h.of_todo rfl rfl h.left

theorem Held.step {s s' : State ι τ} {a : Action ι} (h : Held s) (hStep : step s a = some s') :
    Held s' := by
  cases a with
  | client i => exact h.client (client_cases hStep)
  | test =>
    obtain ⟨_, rfl⟩ := test_cases hStep
    refine h.of_todo rfl rfl fun hLoop => ?_
    simp only [h.weakSelf, Bool.true_and] at hLoop
    by_contra hGoing
    simp [hGoing] at hLoop
  | perform =>
    obtain ⟨_, m, rest, _, _, rfl⟩ := perform_cases hStep
    cases m with
    | excuteTaskBlock => exact h.of_todo rfl rfl fun hLoop => by cases hLoop
    | stop => exact h.of_todo rfl rfl fun _ => rfl
  | endPass =>
    obtain ⟨_, rfl⟩ := endPass_cases hStep
    exact h.of_todo rfl rfl fun hLoop => by cases hLoop

/-- The step from `t₀` to `t` performs the first `__stop`, sent by `stopper`. -/
structure FirstStop (t₀ t : State ι τ) (stopper : ι) : Prop where
  running : t₀.stopped = false
  head : t₀.mailbox = .stop stopper :: t.mailbox
  performed : t.performed = t₀.performed ++ [.stop stopper]
  stopped : t.stopped = true
  released : t.point stopper = .performed

/-- What the clients can have added between the first `__stop`, performed on the way to
`t`, and the state `s`. -/
structure After (t s : State ι τ) : Prop where
  performed : t.performed <+: s.performed
  mailbox : ∀ m ∈ s.mailbox, m ∈ t.mailbox ∨ t.pending m.sender = some m
  pending : ∀ i m, s.pending i = some m → t.pending i = some m

omit [DecidableEq ι] in
theorem After.refl (t : State ι τ) : After t t :=
  ⟨List.prefix_refl _, fun _ hm => .inl hm, fun _ _ h => h⟩

theorem After.of_client {t s s' : State ι τ} (h : After t s) (i : ι)
    (hPerformed : s'.performed = s.performed)
    (hMailbox : ∀ m ∈ s'.mailbox, m ∈ s.mailbox ∨ s.pending m.sender = some m)
    (hChecked : s'.point i ≠ .checked) (hTarget : s'.point i ≠ .target true)
    (hPoint : ∀ j, j ≠ i → s'.point j = s.point j) (hTodo : ∀ j, j ≠ i → s'.todo j = s.todo j) :
    After t s' where
  performed := hPerformed ▸ h.performed
  mailbox m hm := by
    obtain hOld | hPending := hMailbox m hm
    · exact h.mailbox m hOld
    · exact .inr (h.pending _ m hPending)
  pending j m hm := by
    by_cases hji : j = i
    · rw [hji, State.pending_eq_none hChecked hTarget] at hm
      cases hm
    · refine h.pending j m ?_
      rw [← hm, State.pending, State.pending, hPoint j hji, hTodo j hji]

/-- With `innerThread` nil no client gets past the check any more. -/
theorem After.client {t s s' : State ι τ} {i : ι} (h : After t s) (hInner : s.innerThread = false)
    (hMove : ClientMove s i s') : After t s' := by
  cases hMove with
  | release | refuse | startNil | resume | start =>
    exact h.of_client i rfl (fun _ hm => .inl hm) (by simp) (by simp)
      (fun j hj => goto_point_of_ne _ _ hj) fun j hj => finish_todo_of_ne _ hj
  | check _ _ hSet _ =>
    rw [hInner] at hSet
    cases hSet
  | read =>
    exact h.of_client i rfl (fun _ hm => .inl hm) (by simp) (by simp [hInner])
      (fun j hj => goto_point_of_ne _ _ hj) fun _ _ => rfl
  | raise =>
    exact h.of_client i rfl (fun _ hm => .inl hm) (by simp) (by simp)
      (fun j hj => goto_point_of_ne _ _ hj) fun _ _ => rfl
  | @postTask task _ hTodo hPoint =>
    have hPending : s.pending i = some (.excuteTaskBlock task i) := by
      simp [State.pending, hPoint, hTodo]
    refine h.of_client i rfl (fun m hm => ?_) (by simp) (by simp)
      (fun j hj => goto_point_of_ne _ _ hj) fun j hj => finish_todo_of_ne _ hj
    obtain hOld | hNew := List.mem_append.mp hm
    · exact .inl hOld
    · rw [List.mem_singleton.mp hNew]
      exact .inr hPending
  | postStop hTodo hPoint =>
    have hPending : s.pending i = some (.stop i) := by simp [State.pending, hPoint, hTodo]
    refine h.of_client i rfl (fun m hm => ?_) (by simp) (by simp)
      (fun j hj => goto_point_of_ne _ _ hj) fun _ _ => rfl
    obtain hOld | hNew := List.mem_append.mp hm
    · exact .inl hOld
    · rw [List.mem_singleton.mp hNew]
      exact .inr hPending

theorem After.perform {t s : State ι τ} (h : After t s) {m : Message ι τ}
    {rest : List (Message ι τ)} (hMailbox : s.mailbox = m :: rest) : After t (taken s m rest) where
  performed := by
    have hPerformed : (taken s m rest).performed = s.performed ++ [m] := by cases m <;> rfl
    rw [hPerformed]
    exact h.performed.trans (List.prefix_append _ _)
  mailbox k hk := by
    have hRest : (taken s m rest).mailbox = rest := by cases m <;> rfl
    rw [hRest] at hk
    exact h.mailbox k (by rw [hMailbox]; exact List.mem_cons_of_mem m hk)
  pending i k hk := by
    refine h.pending i k ?_
    cases m with
    | excuteTaskBlock => exact hk
    | stop sender =>
      obtain rfl | hi := eq_or_ne i sender
      · have hNone : (taken s (.stop i) rest).pending i = none :=
          State.pending_eq_none (by simp [taken, deliver]) (by simp [taken, deliver])
        rw [hNone] at hk
        cases hk
      · rw [← hk, State.pending, State.pending, taken_todo]
        simp only [taken, deliver, goto_point_of_ne _ _ hi]
        rfl

theorem After.step {t s s' : State ι τ} {a : Action ι} (h : After t s)
    (hInner : s.innerThread = false) (hStep : step s a = some s') : After t s' := by
  cases a with
  | client i => exact h.client hInner (client_cases hStep)
  | test =>
    obtain ⟨_, rfl⟩ := test_cases hStep
    exact ⟨h.performed, h.mailbox, h.pending⟩
  | perform =>
    obtain ⟨_, m, rest, _, hMailbox, rfl⟩ := perform_cases hStep
    exact h.perform hMailbox
  | endPass =>
    obtain ⟨_, rfl⟩ := endPass_cases hStep
    exact ⟨h.performed, h.mailbox, h.pending⟩

omit [DecidableEq ι] in
theorem After.mailbox_eq_nil {t s : State ι τ} (h : After t s) (hEmpty : t.mailbox = [])
    (hNone : ∀ i, t.pending i = none) : s.mailbox = [] := by
  refine List.eq_nil_iff_forall_not_mem.mpr fun m hm => ?_
  obtain hMem | hPending := h.mailbox m hm
  · rw [hEmpty] at hMem
    cases hMem
  · rw [hNone] at hPending
    cases hPending

omit [DecidableEq ι] in
/-- The sender of the first `__stop` is on its way back; it posts nothing more. -/
theorem FirstStop.stop_not_mem {t₀ t s : State ι τ} {stopper : ι} (hFirst : FirstStop t₀ t stopper)
    (hDelivers : Delivers t) (h : After t s) : .stop stopper ∉ s.mailbox := by
  intro hStop
  obtain hMem | hPending := h.mailbox _ hStop
  · have hStill := (hDelivers.waits stopper).mp (mem_stoppers.mpr hMem)
    rw [hFirst.released] at hStill
    cases hStill
  · have hDone : t.pending stopper = none :=
      State.pending_eq_none (by simp [hFirst.released]) (by simp [hFirst.released])
    change t.pending stopper = _ at hPending
    rw [hDone] at hPending
    cases hPending

theorem step_stops {s s' : State ι τ} {a : Action ι} (hBefore : s.stopped = false)
    (hAfter : s'.stopped = true) (hStep : step s a = some s') :
    a = .perform ∧ ∃ stopper, FirstStop s s' stopper := by
  cases a with
  | client i =>
    have hSame : s'.stopped = s.stopped := by cases client_cases hStep <;> rfl
    rw [hSame, hBefore] at hAfter
    cases hAfter
  | test =>
    obtain ⟨_, rfl⟩ := test_cases hStep
    exact absurd hAfter (by simp [hBefore])
  | perform =>
    obtain ⟨_, m, rest, _, hMailbox, rfl⟩ := perform_cases hStep
    cases m with
    | excuteTaskBlock => exact absurd hAfter (by simp [taken, deliver, __excuteTaskBlock, hBefore])
    | stop sender => exact ⟨rfl, sender, hBefore, hMailbox, rfl, rfl, by simp [taken, deliver]⟩
  | endPass =>
    obtain ⟨_, rfl⟩ := endPass_cases hStep
    exact absurd hAfter (by simp [hBefore])

section Run

variable (program : ι → List (Call τ))

theorem started_delivers {s : State ι τ} (h : (startedThread program).Reachable s) : Delivers s :=
  Machine.invariant (P := Delivers) ((Delivers.start _).of_loop .test)
    (fun _ _ _ hs hStep => hs.step hStep) h

theorem started_held {s : State ι τ} (h : (startedThread program).Reachable s) : Held s := by
  refine Machine.invariant (P := Held) ⟨fun i stmt hMem => ?_, Nat.one_pos, fun h => by cases h⟩
    (fun _ _ _ hs hStep => hs.step hStep) h
  obtain ⟨c, _, hc⟩ := List.mem_map.mp hMem
  exact ⟨c, hc.symm⟩

theorem exists_firstStop {actions : List (Action ι)} {s : State ι τ}
    (hRun : (startedThread program).run actions = some s) (hStopped : s.stopped = true) :
    ∃ t₀ t stopper, (startedThread program).Takes actions t₀ .perform t ∧ FirstStop t₀ t stopper ∧
      After t s := by
  revert hStopped
  refine Machine.run_induction
    (P := fun actions s => s.stopped = true → ∃ t₀ t stopper,
      (startedThread program).Takes actions t₀ .perform t ∧ FirstStop t₀ t stopper ∧ After t s)
    (fun h => by cases h) ?_ actions s hRun
  intro actions s a s' hRun ih hStep hStopped
  cases hs : s.stopped with
  | true =>
    obtain ⟨t₀, t, stopper, hTakes, hFirst, hAfter⟩ := ih hs
    have hInner := (started_delivers program ⟨actions, hRun⟩).inner
    rw [hs] at hInner
    exact ⟨t₀, t, stopper, hTakes.append, hFirst, hAfter.step hInner hStep⟩
  | false =>
    obtain ⟨rfl, stopper, hFirst⟩ := step_stops hs hStopped hStep
    exact ⟨s, s', stopper, ⟨actions, [], rfl, hRun, hStep⟩, hFirst, After.refl s'⟩

/-- When the loop is left, a first `__stop` has been performed, and with it everything
posted before it. What is unperformed was posted behind it by calls that were past their
nil check at that moment, and the callers of `stop` that still wait are among these. -/
theorem shutdown_loses_only_overlapping {actions : List (Action ι)} {s : State ι τ}
    (hRun : (startedThread program).run actions = some s) (hLeft : s.loop = .left) :
    s.posted = s.performed ++ s.mailbox ∧ s.executed = runBy s.performed ∧
    ∃ t₀ t stopper, (startedThread program).Takes actions t₀ .perform t ∧ FirstStop t₀ t stopper ∧
      stoppers t₀.performed = [] ∧ t.performed <+: s.performed ∧ s.point stopper ≠ .waiting ∧
      (∀ m ∈ s.mailbox, m ∈ t.mailbox ∨ t.pending m.sender = some m) ∧
      (∀ i, s.point i = .waiting → .stop i ∈ s.mailbox) ∧
      (t.mailbox = [] → (∀ i, t.pending i = none) → s.mailbox = [] ∧ ∀ i, s.point i ≠ .waiting) := by
  have hReach : (startedThread program).Reachable s := ⟨actions, hRun⟩
  have hDelivers := started_delivers program hReach
  have hStopped := (started_held program hReach).left hLeft
  obtain ⟨t₀, t, stopper, hTakes, hFirst, hAfter⟩ := exists_firstStop program hRun hStopped
  have hStart := started_delivers program hTakes.visits.reachable
  have hEnd := started_delivers program hTakes.visits_after.reachable
  have hWaits : ∀ i, s.point i = .waiting → .stop i ∈ s.mailbox :=
    fun i hi => mem_stoppers.mp ((hDelivers.waits i).mpr hi)
  refine ⟨hDelivers.fifo, hDelivers.executed, t₀, t, stopper, hTakes, hFirst, ?_, hAfter.performed,
    fun hWaiting => hFirst.stop_not_mem hEnd hAfter (hWaits stopper hWaiting), hAfter.mailbox, hWaits,
    fun hEmpty hNone => ?_⟩
  · by_contra hSome
    have hRunning := hFirst.running
    rw [hStart.stopped.mpr hSome] at hRunning
    cases hRunning
  · have hNil := hAfter.mailbox_eq_nil hEmpty hNone
    refine ⟨hNil, fun i hi => ?_⟩
    have hMem := hWaits i hi
    rw [hNil] at hMem
    cases hMem

end Run

theorem shutdown_loses_only_overlapping_task :
    let s := (startedThread taskAndStop).after overlappingRun rfl
    s.mailbox = [.excuteTaskBlock 'a' false] ∧
    s.posted = s.performed ++ s.mailbox ∧ s.executed = runBy s.performed ∧
    ∃ t₀ t stopper, (startedThread taskAndStop).Takes overlappingRun t₀ .perform t ∧
      FirstStop t₀ t stopper ∧ stoppers t₀.performed = [] ∧ t.performed <+: s.performed ∧
      s.point stopper ≠ .waiting ∧
      (∀ m ∈ s.mailbox, m ∈ t.mailbox ∨ t.pending m.sender = some m) ∧
      (∀ i, s.point i = .waiting → .stop i ∈ s.mailbox) ∧
      (t.mailbox = [] → (∀ i, t.pending i = none) → s.mailbox = [] ∧ ∀ i, s.point i ≠ .waiting) :=
  ⟨rfl, shutdown_loses_only_overlapping taskAndStop
    (show (startedThread taskAndStop).run overlappingRun = some _ from rfl) rfl⟩

end OCNote.PermanentThread
