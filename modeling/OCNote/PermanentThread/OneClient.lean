import OCNote.PermanentThread.Delivery

/-! # One client from the first task to the calls after stop

A single client submits tasks, runs the thread once, submits more, stops it, and then
calls whatever it likes. The stop message is the last one ever posted, so when it has
been performed the mailbox is empty. -/

namespace OCNote.PermanentThread
open OCNote.Support
set_option autoImplicit false

universe u

variable {τ : Type u}

def front (before between : List (Option τ)) : List (Call τ) :=
  before.map .excuteTaskBlock ++ .run :: between.map .excuteTaskBlock

def oneClient (before between : List (Option τ)) (after : List (Call τ)) :
    Machine (State Unit τ) (Action Unit) :=
  permanentThread fun _ => (front before between ++ .stop :: after).map .call

/-- The messages that a list of calls posts when none is refused for a nil thread. -/
def messages (calls : List (Call τ)) : List (Message Unit τ) :=
  calls.filterMap fun
    | .excuteTaskBlock (some task) => some (.excuteTaskBlock task ())
    | _ => none

theorem messages_append (cs ds : List (Call τ)) : messages (cs ++ ds) = messages cs ++ messages ds :=
  List.filterMap_append

theorem stoppers_messages (calls : List (Call τ)) : stoppers (messages calls) = [] := by
  induction calls with
  | nil => rfl
  | cons c calls ih =>
    match c with
    | .run | .stop | .excuteTaskBlock none => exact ih
    | .excuteTaskBlock (some _) => exact ih

theorem runBy_messages_tasks (tasks : List (Option τ)) :
    runBy (messages (tasks.map .excuteTaskBlock)) = (tasks.filterMap id).map fun task => (.inner, task) := by
  induction tasks with
  | nil => rfl
  | cons task tasks ih =>
    cases task with
    | none => exact ih
    | some task => exact congrArg (_ :: ·) ih

theorem runBy_messages_front (before between : List (Option τ)) :
    runBy (messages (front before between)) =
      ((before ++ between).filterMap id).map fun task => (.inner, task) := by
  have hRun : messages (.run :: between.map .excuteTaskBlock) = messages (between.map .excuteTaskBlock) :=
    rfl
  rw [front, messages_append, hRun, runBy_append, runBy_messages_tasks, runBy_messages_tasks,
    List.filterMap_append, List.map_append]

def Call.isRun : Call τ → Bool
  | .run => true
  | _ => false

theorem runs_front (before between : List (Option τ)) :
    (front before between).countP Call.isRun = 1 := by
  have hTasks : ∀ tasks : List (Option τ), (tasks.map Call.excuteTaskBlock).countP Call.isRun = 0 :=
    fun tasks => by simp [List.countP_eq_zero, Call.isRun]
  simp [front, hTasks, List.countP_cons, Call.isRun]

theorem stop_not_mem_front (before between : List (Option τ)) : .stop ∉ front before between := by
  simp [front]

section Phases

variable (before between : List (Option τ)) (after : List (Call τ))

/-- The calls `rest` and then `stop` are still to be made. -/
structure Submitting (s : State Unit τ) (rest : List (Call τ)) : Prop where
  todo : s.todo () = (rest ++ .stop :: after).map .call
  posted : s.posted ++ messages rest = messages (front before between)
  point : s.point () = .ready ∨ s.point () = .checked ∨ s.point () = .target true
  noStop : .stop ∉ rest
  runs : rest.countP Call.isRun = if s.loop = .unstarted then 1 else 0

structure Stopping (s : State Unit τ) : Prop where
  todo : s.todo () = (.stop :: after).map .call
  posted : s.posted = messages (front before between) ++ [.stop ()]
  point : s.point () = .waiting

structure Stopped (s : State Unit τ) : Prop where
  mailbox : s.mailbox = []
  posted : s.posted = messages (front before between) ++ [.stop ()]
  client : (s.todo () = (.stop :: after).map .call ∧ s.point () = .performed) ∨
    ∃ calls, calls <:+ after ∧ s.todo () = calls.map .call ∧ s.point () = .ready

def InPhase (s : State Unit τ) : Prop :=
  (∃ rest, Submitting before between after s rest) ∨ Stopping before between after s ∨
    Stopped before between after s

variable {before between after}

theorem Submitting.stoppers_posted {s : State Unit τ} {rest : List (Call τ)}
    (h : Submitting before between after s rest) : stoppers s.posted = [] := by
  have hAll := congrArg stoppers h.posted
  rw [stoppers_append, stoppers_messages, stoppers_messages] at hAll
  exact (List.append_eq_nil_iff.mp hAll).1

theorem Submitting.innerThread {s : State Unit τ} {rest : List (Call τ)}
    (h : Submitting before between after s rest) (hDelivers : Delivers s) : s.innerThread = true :=
  hDelivers.innerThread_of_none h.stoppers_posted

theorem Stopped.innerThread {s : State Unit τ} (h : Stopped before between after s)
    (hDelivers : Delivers s) : s.stopped = true ∧ s.innerThread = false := by
  have hStopped : s.stopped = true := by
    have hFifo := hDelivers.fifo
    rw [h.mailbox, List.append_nil, h.posted] at hFifo
    rw [hDelivers.stopped, ← hFifo]
    simp
  exact ⟨hStopped, by rw [hDelivers.inner, hStopped]; rfl⟩

theorem Submitting.goto {s : State Unit τ} {rest : List (Call τ)}
    (h : Submitting before between after s rest) {p : Point}
    (hp : p = .ready ∨ p = .checked ∨ p = .target true) :
    Submitting before between after (s.goto () p) rest :=
  ⟨h.todo, h.posted, by simpa using hp, h.noStop, h.runs⟩

theorem Submitting.finish {s s' : State Unit τ} {c : Call τ} {rest : List (Call τ)}
    (h : Submitting before between after s (c :: rest))
    (hTodo : s'.todo = s.todo) (hPosted : s'.posted = s.posted ++ messages [c])
    (hRuns : rest.countP Call.isRun = if s'.loop = .unstarted then 1 else 0) :
    Submitting before between after (s'.finish ()) rest where
  todo := by simp [State.finish, hTodo, h.todo]
  posted := by
    change s'.posted ++ _ = _
    rw [hPosted, List.append_assoc, ← messages_append]
    exact h.posted
  point := .inl (finish_point_self ..)
  noStop hMem := h.noStop (List.mem_cons_of_mem c hMem)
  runs := hRuns

/-- The next statement is the first call of `rest`, or the `stop` behind it. -/
theorem Submitting.head {s : State Unit τ} {rest : List (Call τ)} {stmt : Statement τ}
    {tail : List (Statement τ)} (h : Submitting before between after s rest)
    (hTodo : s.todo () = stmt :: tail) :
    (rest = [] ∧ stmt = .call .stop) ∨ ∃ c cs, rest = c :: cs ∧ stmt = .call c := by
  rw [h.todo] at hTodo
  cases rest with
  | nil => exact .inl ⟨rfl, (List.cons.inj hTodo).1.symm⟩
  | cons c cs => exact .inr ⟨c, cs, rfl, (List.cons.inj hTodo).1.symm⟩

theorem Submitting.rest_eq_cons {s : State Unit τ} {rest : List (Call τ)} {c : Call τ}
    {tail : List (Statement τ)} (h : Submitting before between after s rest)
    (hTodo : s.todo () = .call c :: tail) (hc : c ≠ .stop) : ∃ cs, rest = c :: cs := by
  obtain ⟨_, hStop⟩ | ⟨d, cs, hRest, hCall⟩ := h.head hTodo
  · cases hStop
    exact absurd rfl hc
  · cases hCall
    exact ⟨cs, hRest⟩

theorem Submitting.rest_eq_nil {s : State Unit τ} {rest : List (Call τ)}
    {tail : List (Statement τ)} (h : Submitting before between after s rest)
    (hTodo : s.todo () = .call .stop :: tail) : rest = [] := by
  obtain ⟨hRest, _⟩ | ⟨c, cs, rfl, hCall⟩ := h.head hTodo
  · exact hRest
  · cases hCall
    exact absurd List.mem_cons_self h.noStop

theorem Submitting.client {s s' : State Unit τ} {rest : List (Call τ)}
    (h : Submitting before between after s rest) (hDelivers : Delivers s)
    (hMove : ClientMove s () s') : InPhase before between after s' := by
  have hInner := h.innerThread hDelivers
  have hRuns := h.runs
  cases hMove with
  | release hTodo _ => obtain ⟨_, h⟩ | ⟨_, _, _, h⟩ := h.head hTodo <;> cases h
  | refuse hTodo _ hRefused =>
    obtain hNil | rfl := hRefused
    · rw [hInner] at hNil
      cases hNil
    · obtain ⟨cs, rfl⟩ := h.rest_eq_cons hTodo (by simp)
      exact .inl ⟨cs, h.finish rfl (by simp [messages]) (by simpa [Call.isRun] using hRuns)⟩
  | check => exact .inl ⟨rest, h.goto (by simp)⟩
  | read => exact .inl ⟨rest, h.goto (by simp [hInner])⟩
  | start hTodo _ hLoop =>
    obtain ⟨cs, rfl⟩ := h.rest_eq_cons hTodo (by simp)
    simp only [List.countP_cons, Call.isRun, hLoop, if_true] at hRuns
    refine .inl ⟨cs, h.finish rfl (by simp [messages]) ?_⟩
    rw [if_neg (by simp)]
    omega
  | raise hTodo _ hLoop =>
    obtain ⟨cs, rfl⟩ := h.rest_eq_cons hTodo (by simp)
    simp [hLoop, Call.isRun] at hRuns
  | startNil _ hPoint | resume _ hPoint =>
    have hReady := h.point
    simp [hPoint] at hReady
  | postTask hTodo _ =>
    obtain ⟨cs, rfl⟩ := h.rest_eq_cons hTodo (by simp)
    have hRest : cs.countP Call.isRun = if s.loop = .unstarted then 1 else 0 := by
      simpa [Call.isRun] using hRuns
    exact .inl ⟨cs, h.finish rfl rfl hRest⟩
  | postStop hTodo _ =>
    obtain rfl := h.rest_eq_nil hTodo
    have hPosted := h.posted
    simp only [messages, List.filterMap_nil, List.append_nil] at hPosted
    refine .inr (.inl ⟨h.todo, ?_, goto_point_self ..⟩)
    simp [State.post, State.goto, hPosted, messages]

theorem Stopping.client {s s' : State Unit τ} (h : Stopping before between after s)
    (hMove : ClientMove s () s') : InPhase before between after s' := by
  have hWaiting := h.point
  cases hMove with
  | release _ hPoint | refuse _ hPoint _ | check _ hPoint _ _ | read _ hPoint | start _ hPoint _
  | raise _ hPoint _ | startNil _ hPoint | postTask _ hPoint | postStop _ hPoint | resume _ hPoint =>
    rw [hPoint] at hWaiting
    cases hWaiting

theorem Stopped.finish {s : State Unit τ} (h : Stopped before between after s) :
    Stopped before between after (s.finish ()) where
  mailbox := h.mailbox
  posted := h.posted
  client := by
    obtain ⟨hTodo, _⟩ | ⟨calls, hSuffix, hTodo, _⟩ := h.client
    · exact .inr ⟨after, List.suffix_refl _, by simp [State.finish, hTodo], finish_point_self ..⟩
    · exact .inr ⟨calls.tail, (List.tail_suffix calls).trans hSuffix,
        by simp [State.finish, hTodo, List.map_tail], finish_point_self ..⟩

theorem Stopped.client_step {s s' : State Unit τ} (h : Stopped before between after s)
    (hDelivers : Delivers s) (hMove : ClientMove s () s') : InPhase before between after s' := by
  have hInner := (h.innerThread hDelivers).2
  have hAt : s.point () = .performed ∨ s.point () = .ready := by
    obtain ⟨_, hPoint⟩ | ⟨_, _, _, hPoint⟩ := h.client
    · exact .inl hPoint
    · exact .inr hPoint
  cases hMove with
  | release hTodo _ =>
    obtain ⟨hCalls, _⟩ | ⟨calls, _, hCalls, _⟩ := h.client
    · rw [hCalls] at hTodo
      cases hTodo
    · rw [hCalls] at hTodo
      cases calls <;> cases hTodo
  | refuse | resume => exact .inr (.inr h.finish)
  | check _ _ hSet _ =>
    rw [hInner] at hSet
    cases hSet
  | read _ hPoint | start _ hPoint _ | raise _ hPoint _ | startNil _ hPoint | postTask _ hPoint
  | postStop _ hPoint => simp [hPoint] at hAt

theorem InPhase.of_loop {s : State Unit τ} (h : InPhase before between after s) {loop : Loop}
    (hStarted : s.loop ≠ .unstarted) (hLoop : loop ≠ .unstarted) :
    InPhase before between after { s with loop := loop } := by
  obtain ⟨rest, h⟩ | h | h := h
  · have hRuns := h.runs
    rw [if_neg hStarted] at hRuns
    exact .inl ⟨rest, h.todo, h.posted, h.point, h.noStop, by rw [hRuns, if_neg hLoop]⟩
  · exact .inr (.inl ⟨h.todo, h.posted, h.point⟩)
  · exact .inr (.inr ⟨h.mailbox, h.posted, h.client⟩)

theorem InPhase.perform {s : State Unit τ} (h : InPhase before between after s)
    (hDelivers : Delivers s) {handled : Bool} (hLoop : s.loop = .pass handled)
    {m : Message Unit τ} {rest : List (Message Unit τ)} (hMailbox : s.mailbox = m :: rest) :
    InPhase before between after (taken s m rest) := by
  obtain ⟨calls, h⟩ | h | h := h
  · have hRuns := h.runs
    have hNone := h.stoppers_posted
    rw [hDelivers.fifo, hMailbox] at hNone
    cases m with
    | excuteTaskBlock =>
      exact .inl ⟨calls, h.todo, h.posted, h.point, h.noStop, by rw [hRuns, hLoop]; rfl⟩
    | stop => simp at hNone
  · cases m with
    | excuteTaskBlock => exact .inr (.inl ⟨h.todo, h.posted, h.point⟩)
    | stop =>
      have hFifo := hDelivers.fifo
      rw [hMailbox, h.posted] at hFifo
      have hRest := eq_nil_of_append_stop (stoppers_messages _) hFifo.symm
      exact .inr (.inr ⟨hRest, h.posted, .inl ⟨h.todo, goto_point_self ..⟩⟩)
  · rw [h.mailbox] at hMailbox
    cases hMailbox

theorem InPhase.step {s s' : State Unit τ} {a : Action Unit} (h : InPhase before between after s)
    (hDelivers : Delivers s) (hStep : step s a = some s') : InPhase before between after s' := by
  cases a with
  | client i =>
    obtain ⟨_, h⟩ | h | h := h
    · exact h.client hDelivers (client_cases hStep)
    · exact h.client (client_cases hStep)
    · exact h.client_step hDelivers (client_cases hStep)
  | test =>
    obtain ⟨hLoop, rfl⟩ := test_cases hStep
    exact h.of_loop (by simp [hLoop]) (by split <;> simp)
  | perform =>
    obtain ⟨_, m, rest, hLoop, hMailbox, rfl⟩ := perform_cases hStep
    exact h.perform hDelivers hLoop hMailbox
  | endPass =>
    obtain ⟨hLoop, rfl⟩ := endPass_cases hStep
    exact h.of_loop (by simp [hLoop]) (by simp)

theorem oneClient_inPhase {s : State Unit τ} (h : (oneClient before between after).Reachable s) :
    Delivers s ∧ InPhase before between after s := by
  refine Machine.invariant (P := fun s => Delivers s ∧ InPhase before between after s)
    ⟨Delivers.start _, .inl ⟨front before between, rfl, rfl, .inl rfl, stop_not_mem_front _ _, ?_⟩⟩
    (fun s a s' hs hStep => ⟨hs.1.step hStep, hs.2.step hs.1 hStep⟩) h
  exact runs_front before between

theorem InPhase.stopped {s : State Unit τ} (h : InPhase before between after s)
    (hReturned : (s.todo ()).length ≤ after.length) :
    Stopped before between after s ∧ s.point () = .ready := by
  obtain ⟨rest, h⟩ | h | h := h
  · simp only [h.todo, List.length_map, List.length_append, List.length_cons] at hReturned
    omega
  · simp only [h.todo, List.length_map, List.length_cons] at hReturned
    omega
  · obtain ⟨hTodo, _⟩ | ⟨_, _, _, hPoint⟩ := h.client
    · simp only [hTodo, List.length_map, List.length_cons] at hReturned
      omega
    · exact ⟨h, hPoint⟩

theorem Stopped.executed {s : State Unit τ} (h : Stopped before between after s)
    (hDelivers : Delivers s) :
    s.executed = ((before ++ between).filterMap id).map fun task => (.inner, task) := by
  have hFifo := hDelivers.fifo
  rw [h.mailbox, List.append_nil, h.posted] at hFifo
  rw [hDelivers.executed, ← hFifo, runBy_append, runBy_messages_front]
  exact List.append_nil _

theorem Stopped.next_call_returns {s : State Unit τ} (h : Stopped before between after s)
    (hDelivers : Delivers s) (hPoint : s.point () = .ready) (hTodo : s.todo () ≠ []) :
    step s (.client ()) = some (s.finish ()) := by
  have hInner := (h.innerThread hDelivers).2
  obtain ⟨_, hPerformed⟩ | ⟨calls, _, hCalls, _⟩ := h.client
  · rw [hPoint] at hPerformed
    cases hPerformed
  · cases calls with
    | nil => exact absurd hCalls hTodo
    | cons c calls =>
      cases c <;>
        simp [OCNote.PermanentThread.step, OCNote.PermanentThread.client, hCalls, run, excuteTaskBlock,
          stop, guarded, hPoint, hInner]

end Phases

theorem step_todo_length {s s' : State Unit τ} {a : Action Unit} (hStep : step s a = some s') :
    (s'.todo ()).length ≤ (s.todo ()).length := by
  cases a with
  | client i =>
    cases client_cases hStep with
    | check | read | raise | postStop => exact Nat.le_refl _
    | release | refuse | start | startNil | postTask | resume => simp [State.finish, State.goto, State.post]
  | test =>
    obtain ⟨_, rfl⟩ := test_cases hStep
    exact Nat.le_refl _
  | perform =>
    obtain ⟨_, m, rest, _, _, rfl⟩ := perform_cases hStep
    exact Nat.le_of_eq (by rw [taken_todo])
  | endPass =>
    obtain ⟨_, rfl⟩ := endPass_cases hStep
    exact Nat.le_refl _

theorem runFrom_todo_length {M : Machine (State Unit τ) (Action Unit)} (hM : M.step = step)
    {actions : List (Action Unit)} {s s' : State Unit τ} (hRun : M.runFrom s actions = some s') :
    (s'.todo ()).length ≤ (s.todo ()).length := by
  induction actions generalizing s with
  | nil =>
    cases hRun
    exact Nat.le_refl _
  | cons a actions ih =>
    obtain ⟨t, hStep, hRun⟩ := Option.bind_eq_some_iff.mp hRun
    exact Nat.le_trans (ih hRun) (step_todo_length (hM ▸ hStep))

/-- When `stop` has returned, the tasks submitted before it have been executed, each once, in
order and by the inner thread. From then on nothing is executed, the loop starts no further
pass, and every further call returns in one step. -/
theorem stop_returns_after_every_task (before between : List (Option τ)) (after : List (Call τ))
    {s : State Unit τ} (hReach : (oneClient before between after).Reachable s)
    (hReturned : (s.todo ()).length ≤ after.length) :
    s.executed = ((before ++ between).filterMap id).map (fun task => (.inner, task)) ∧
    s.mailbox = [] ∧
    ∀ actions s', (oneClient before between after).runFrom s actions = some s' →
      s'.executed = s.executed ∧ (∀ t, test s' = some t → t.loop = .left) ∧
      (s'.todo () ≠ [] → ∃ t, step s' (.client ()) = some t ∧ t.todo () = (s'.todo ()).tail ∧
        t.executed = s.executed) := by
  obtain ⟨hDelivers, hPhase⟩ := oneClient_inPhase hReach
  have hExecuted := (hPhase.stopped hReturned).1.executed hDelivers
  refine ⟨hExecuted, (hPhase.stopped hReturned).1.mailbox, fun actions s' hRun => ?_⟩
  obtain ⟨hDelivers', hPhase'⟩ := oneClient_inPhase (hReach.runFrom hRun)
  obtain ⟨hStopped, hPoint⟩ := hPhase'.stopped (Nat.le_trans (runFrom_todo_length rfl hRun) hReturned)
  have hSame : s'.executed = s.executed := (hStopped.executed hDelivers').trans hExecuted.symm
  refine ⟨hSame, fun t hTest => ?_, fun hTodo => ?_⟩
  · obtain ⟨_, rfl⟩ := test_cases hTest
    simp [(hStopped.innerThread hDelivers').1]
  · exact ⟨_, hStopped.next_call_returns hDelivers' hPoint hTodo, by simp [State.finish], hSame⟩

/-- One task before `run`, one after it, then `stop`, with both tasks handled in one pass. -/
def twoTasksRun : List (Action Unit) :=
  [.client (), .client (), .client (), .client (), .client (), .client (), .client (), .client (),
    .client (), .client (), .client (), .client (), .test, .perform, .perform, .endPass, .test,
    .perform, .client ()]

theorem stop_returns_after_two_tasks :
    let M := oneClient [some 'a'] [some 'b'] [.excuteTaskBlock (some 'c'), .stop]
    let s := M.after twoTasksRun rfl
    s.executed = [(.inner, 'a'), (.inner, 'b')] ∧ s.mailbox = [] ∧
    ∀ actions s', M.runFrom s actions = some s' →
      s'.executed = s.executed ∧ (∀ t, test s' = some t → t.loop = .left) ∧
      (s'.todo () ≠ [] → ∃ t, step s' (.client ()) = some t ∧ t.todo () = (s'.todo ()).tail ∧
        t.executed = s.executed) :=
  stop_returns_after_every_task [some 'a'] [some 'b'] [.excuteTaskBlock (some 'c'), .stop]
    (Machine.reachable_after _ twoTasksRun rfl) (by decide)

end OCNote.PermanentThread
