import OCNote.PermanentThread.Shutdown

/-! # One caller and any order of calls

The methods are guarded by `innerThread`, which tells a stopped object from the others
but a started one not from a fresh one. What a caller has to know is the stage that the
object is in. -/

namespace OCNote.PermanentThread
open OCNote.Support
set_option autoImplicit false

universe u

variable {τ : Type u}

def anyOrder (calls : List (Call τ)) : Machine (State Unit τ) (Action Unit) :=
  permanentThread fun _ => calls.map .call

/-- No call raises, and every call in progress returns whatever steps are taken. -/
structure Harmless (calls : List (Call τ)) : Prop where
  noRaise : ∀ s, (anyOrder calls).Reachable s → s.point () ≠ .raised
  returns : ∀ s, (anyOrder calls).Reachable s → s.todo () ≠ [] →
    (anyOrder calls).Inevitably (fun s' => (s'.todo ()).length < (s.todo ()).length) s

def Call.isControl : Call τ → Bool
  | .excuteTaskBlock _ => false
  | .run | .stop => true

/-- Of the `run` and `stop` calls the first is `run` and the second is `stop`. -/
structure RunThenStop (calls : List (Call τ)) : Prop where
  first : ∀ c, (calls.filter Call.isControl)[0]? = some c → c = .run
  second : ∀ c, (calls.filter Call.isControl)[1]? = some c → c = .stop

inductive Stage where
  | fresh
  | started
  | stopped
  deriving DecidableEq, Repr

/-- The stage in which a call leaves the object; none if it raises or never returns. -/
def Stage.next : Stage → Call τ → Option Stage
  | .fresh, .run => some .started
  | .fresh, .stop => none
  | .started, .run => none
  | .started, .stop => some .stopped
  | .stopped, _ => some .stopped
  | stage, .excuteTaskBlock _ => some stage

def Stage.runs (stage : Stage) (calls : List (Call τ)) : Option Stage := calls.foldlM Stage.next stage

section Stages

theorem Stage.runs_cons (stage : Stage) (c : Call τ) (calls : List (Call τ)) :
    stage.runs (c :: calls) = (stage.next c).bind fun stage' => stage'.runs calls := List.foldlM_cons

theorem Stage.runs_concat {stage stage' : Stage} {calls : List (Call τ)} {c : Call τ}
    (h : stage.runs calls = some stage') : stage.runs (calls ++ [c]) = stage'.next c := by
  rw [runs, List.foldlM_append]
  change (stage.runs calls).bind _ = _
  rw [h]
  cases hNext : stage'.next c <;> simp [hNext]

theorem Stage.next_task (stage : Stage) (task : Option τ) :
    stage.next (.excuteTaskBlock task) = some stage := by cases stage <;> rfl

theorem Stage.next_of_append {calls done cs : List (Call τ)} {c : Call τ} {stage : Stage}
    (hCalls : calls = done ++ c :: cs) (hDone : Stage.fresh.runs done = some stage)
    (hAll : (Stage.fresh.runs calls).isSome = true) : (stage.next c).isSome = true := by
  rw [hCalls, runs, List.foldlM_append] at hAll
  change ((Stage.fresh.runs done).bind fun stage => stage.runs (c :: cs)).isSome = true at hAll
  rw [hDone, Option.bind_some, runs_cons] at hAll
  cases hNext : stage.next c with
  | none => rw [hNext] at hAll; cases hAll
  | some stage' => rfl

theorem Stage.stopped_runs (calls : List (Call τ)) : (Stage.stopped.runs calls).isSome = true := by
  induction calls with
  | nil => rfl
  | cons c calls ih => exact ih

theorem Stage.started_runs (calls : List (Call τ)) : (Stage.started.runs calls).isSome = true ↔
    ∀ c, (calls.filter Call.isControl)[0]? = some c → c = .stop := by
  induction calls with
  | nil => simp [Stage.runs]
  | cons c calls ih =>
    rw [Stage.runs_cons]
    cases c with
    | excuteTaskBlock task => exact ih
    | run => simp [Stage.next, List.filter_cons, Call.isControl]
    | stop => simpa [Stage.next, List.filter_cons, Call.isControl] using Stage.stopped_runs calls

/-- The calls that every stage allows are those of which the first two are in order. -/
theorem Stage.fresh_runs (calls : List (Call τ)) :
    (Stage.fresh.runs calls).isSome = true ↔ RunThenStop calls := by
  induction calls with
  | nil => exact iff_of_true rfl ⟨by simp, by simp⟩
  | cons c calls ih =>
    rw [Stage.runs_cons]
    cases c with
    | excuteTaskBlock task => exact ih.trans ⟨fun h => ⟨h.first, h.second⟩, fun h => ⟨h.first, h.second⟩⟩
    | run =>
      refine (Stage.started_runs calls).trans ⟨fun h => ⟨?_, h⟩, fun h => h.second⟩
      rintro c hc
      exact (Option.some.inj hc).symm
    | stop =>
      refine iff_of_false (by simp [Stage.next]) fun h => ?_
      have hRun := h.first .stop rfl
      cases hRun

end Stages

section Phases

/-- Where the only caller is in a call made in `stage`; `rest` begins with this call. -/
inductive Phase (s : State Unit τ) : Stage → List (Call τ) → Prop
  | calling {stage : Stage} {rest : List (Call τ)} (hStage : stage ≠ .stopped)
      (hPoint : s.point () = .ready ∨ s.point () = .checked ∨ s.point () = .target true)
      (hTask : s.point () = .ready ∨ ∃ c cs, rest = c :: cs ∧ c ≠ .excuteTaskBlock none)
      (hNone : stoppers s.posted = []) (hLoop : s.loop = .unstarted ↔ stage = .fresh) : Phase s stage rest
  | raised {rest : List (Call τ)} (hPoint : s.point () = .raised) : Phase s .started (.run :: rest)
  | waiting {stage : Stage} {rest : List (Call τ)} (hStage : stage ≠ .stopped)
      (hPoint : s.point () = .waiting) {ms : List (Message Unit τ)} (hPosted : s.posted = ms ++ [.stop ()])
      (hNone : stoppers ms = []) (hLoop : s.loop = .unstarted ↔ stage = .fresh) :
      Phase s stage (.stop :: rest)
  | performed {rest : List (Call τ)} (hPoint : s.point () = .performed) (hMailbox : s.mailbox = [])
      (hStopped : s.stopped = true) : Phase s .started (.stop :: rest)
  | stopped {rest : List (Call τ)} (hPoint : s.point () = .ready) (hMailbox : s.mailbox = [])
      (hStopped : s.stopped = true) : Phase s .stopped rest

structure Progress (calls : List (Call τ)) (s : State Unit τ) (stage : Stage) (rest : List (Call τ)) : Prop where
  todo : s.todo () = rest.map .call
  made : ∃ done, calls = done ++ rest ∧ Stage.fresh.runs done = some stage

structure Calls (calls : List (Call τ)) (s : State Unit τ) : Prop where
  delivers : Delivers s
  held : Held s
  phase : ∃ stage rest, Progress calls s stage rest ∧ Phase s stage rest

variable {calls : List (Call τ)}

theorem Progress.of_todo {s s' : State Unit τ} {stage : Stage} {rest : List (Call τ)}
    (h : Progress calls s stage rest) (hTodo : s'.todo = s.todo) : Progress calls s' stage rest :=
  ⟨by rw [hTodo, h.todo], h.made⟩

theorem Progress.finish {s s' : State Unit τ} {stage stage' : Stage} {c : Call τ} {rest : List (Call τ)}
    (h : Progress calls s stage (c :: rest)) (hTodo : s'.todo = s.todo) (hNext : stage.next c = some stage') :
    Progress calls (s'.finish ()) stage' rest where
  todo := by simp [State.finish, hTodo, h.todo]
  made := by
    obtain ⟨done, hCalls, hDone⟩ := h.made
    exact ⟨done ++ [c], by simp [hCalls], (Stage.runs_concat hDone).trans hNext⟩

theorem Progress.head {s : State Unit τ} {stage : Stage} {rest : List (Call τ)} {stmt : Statement τ}
    {tail : List (Statement τ)} (h : Progress calls s stage rest) (hTodo : s.todo () = stmt :: tail) :
    ∃ c cs, rest = c :: cs ∧ stmt = .call c := by
  rw [h.todo] at hTodo
  cases rest with
  | nil => cases hTodo
  | cons c cs => exact ⟨c, cs, rfl, (List.cons.inj hTodo).1.symm⟩

theorem Progress.rest_eq_cons {s : State Unit τ} {stage : Stage} {rest : List (Call τ)} {c : Call τ}
    {tail : List (Statement τ)} (h : Progress calls s stage rest) (hTodo : s.todo () = .call c :: tail) :
    ∃ cs, rest = c :: cs := by
  obtain ⟨_, cs, hRest, hCall⟩ := h.head hTodo
  cases hCall
  exact ⟨cs, hRest⟩

theorem Phase.calling_client {s s' : State Unit τ} {stage : Stage} {rest : List (Call τ)}
    (hProgress : Progress calls s stage rest) (hDelivers : Delivers s) (hStage : stage ≠ .stopped)
    (hPoint : s.point () = .ready ∨ s.point () = .checked ∨ s.point () = .target true)
    (hTask : s.point () = .ready ∨ ∃ c cs, rest = c :: cs ∧ c ≠ .excuteTaskBlock none)
    (hNone : stoppers s.posted = []) (hLoop : s.loop = .unstarted ↔ stage = .fresh)
    (hMove : ClientMove s () s') : ∃ stage rest, Progress calls s' stage rest ∧ Phase s' stage rest := by
  have hInner := hDelivers.innerThread_of_none hNone
  cases hMove with
  | release hTodo _ =>
    obtain ⟨_, _, _, hCall⟩ := hProgress.head hTodo
    cases hCall
  | refuse hTodo _ hRefused =>
    obtain ⟨cs, rfl⟩ := hProgress.rest_eq_cons hTodo
    obtain hNil | rfl := hRefused
    · rw [hInner] at hNil
      cases hNil
    · exact ⟨stage, cs, hProgress.finish rfl (stage.next_task _),
        .calling hStage (.inl (finish_point_self ..)) (.inl (finish_point_self ..)) hNone hLoop⟩
  | check hTodo _ _ hNotNone =>
    obtain ⟨cs, rfl⟩ := hProgress.rest_eq_cons hTodo
    exact ⟨stage, _, hProgress.of_todo rfl,
      .calling hStage (by simp) (.inr ⟨_, cs, rfl, hNotNone⟩) hNone hLoop⟩
  | read hTodo hChecked =>
    have hNotNone := hTask.resolve_left (by simp [hChecked])
    exact ⟨stage, rest, hProgress.of_todo rfl, .calling hStage (by simp [hInner]) (.inr hNotNone) hNone hLoop⟩
  | start hTodo _ hUnstarted =>
    obtain ⟨cs, rfl⟩ := hProgress.rest_eq_cons hTodo
    have hFresh := hLoop.mp hUnstarted
    subst hFresh
    refine ⟨.started, cs, hProgress.finish rfl rfl, .calling (by decide) (.inl (finish_point_self ..))
      (.inl (finish_point_self ..)) hNone ?_⟩
    exact iff_of_false (fun h => by cases h) (by decide)
  | raise hTodo _ hStarted =>
    obtain ⟨cs, rfl⟩ := hProgress.rest_eq_cons hTodo
    have hStartedStage : stage = .started := by
      cases stage with
      | fresh => exact absurd (hLoop.mpr rfl) hStarted
      | started => rfl
      | stopped => exact absurd rfl hStage
    subst hStartedStage
    exact ⟨.started, _, hProgress.of_todo rfl, .raised (goto_point_self ..)⟩
  | startNil _ hAt | resume _ hAt => simp [hAt] at hPoint
  | postTask hTodo _ =>
    obtain ⟨cs, rfl⟩ := hProgress.rest_eq_cons hTodo
    refine ⟨stage, cs, hProgress.finish rfl (stage.next_task _),
      .calling hStage (.inl (finish_point_self ..)) (.inl (finish_point_self ..)) ?_ hLoop⟩
    simpa [State.finish, State.goto, State.post] using hNone
  | postStop hTodo _ =>
    obtain ⟨cs, rfl⟩ := hProgress.rest_eq_cons hTodo
    exact ⟨stage, _, hProgress.of_todo rfl, .waiting hStage (goto_point_self ..) rfl hNone hLoop⟩

theorem Phase.client {s s' : State Unit τ} {stage : Stage} {rest : List (Call τ)} (h : Phase s stage rest)
    (hProgress : Progress calls s stage rest) (hDelivers : Delivers s) (hMove : ClientMove s () s') :
    ∃ stage rest, Progress calls s' stage rest ∧ Phase s' stage rest := by
  cases h with
  | calling hStage hPoint hTask hNone hLoop =>
    exact Phase.calling_client hProgress hDelivers hStage hPoint hTask hNone hLoop hMove
  | raised hAt | waiting _ hAt _ _ _ =>
    cases hMove with
    | release _ hPoint | refuse _ hPoint _ | check _ hPoint _ _ | read _ hPoint | start _ hPoint _
    | raise _ hPoint _ | startNil _ hPoint | postTask _ hPoint | postStop _ hPoint | resume _ hPoint =>
      rw [hPoint] at hAt
      cases hAt
  | performed hAt hMailbox hStopped =>
    cases hMove with
    | resume hTodo _ =>
      exact ⟨.stopped, _, hProgress.finish rfl rfl, .stopped (finish_point_self ..) hMailbox hStopped⟩
    | release _ hPoint | refuse _ hPoint _ | check _ hPoint _ _ | read _ hPoint | start _ hPoint _
    | raise _ hPoint _ | startNil _ hPoint | postTask _ hPoint | postStop _ hPoint =>
      rw [hPoint] at hAt
      cases hAt
  | stopped hAt hMailbox hStopped =>
    cases hMove with
    | release hTodo _ =>
      obtain ⟨_, _, _, hCall⟩ := hProgress.head hTodo
      cases hCall
    | refuse hTodo _ _ =>
      obtain ⟨cs, rfl⟩ := hProgress.rest_eq_cons hTodo
      exact ⟨.stopped, cs, hProgress.finish rfl rfl, .stopped (finish_point_self ..) hMailbox hStopped⟩
    | check _ _ hInner _ =>
      rw [hDelivers.inner, hStopped] at hInner
      cases hInner
    | read _ hPoint | start _ hPoint _ | raise _ hPoint _ | startNil _ hPoint | postTask _ hPoint
    | postStop _ hPoint | resume _ hPoint =>
      rw [hPoint] at hAt
      cases hAt

theorem Phase.of_loop {s : State Unit τ} {stage : Stage} {rest : List (Call τ)} (h : Phase s stage rest)
    {loop : Loop} (hStarted : s.loop ≠ .unstarted) (hLoop : loop ≠ .unstarted) :
    Phase { s with loop := loop } stage rest := by
  cases h with
  | calling hStage hPoint hTask hNone hIff =>
    exact .calling hStage hPoint hTask hNone (iff_of_false hLoop fun h => hStarted (hIff.mpr h))
  | raised hPoint => exact .raised hPoint
  | waiting hStage hPoint hPosted hNone hIff =>
    exact .waiting hStage hPoint hPosted hNone (iff_of_false hLoop fun h => hStarted (hIff.mpr h))
  | performed hPoint hMailbox hStopped => exact .performed hPoint hMailbox hStopped
  | stopped hPoint hMailbox hStopped => exact .stopped hPoint hMailbox hStopped

theorem Phase.perform {s : State Unit τ} {stage : Stage} {rest : List (Call τ)} (h : Phase s stage rest)
    (hDelivers : Delivers s) {handled : Bool} (hPass : s.loop = .pass handled) {m : Message Unit τ}
    {ms : List (Message Unit τ)} (hMailbox : s.mailbox = m :: ms) : Phase (taken s m ms) stage rest := by
  have hUnstarted : ¬ s.loop = .unstarted := by simp [hPass]
  cases h with
  | calling hStage hPoint hTask hNone hIff =>
    have hLoop : Loop.pass true = .unstarted ↔ stage = .fresh :=
      iff_of_false (by decide) fun h => hUnstarted (hIff.mpr h)
    cases m with
    | excuteTaskBlock => exact .calling hStage hPoint hTask hNone hLoop
    | stop =>
      rw [hDelivers.fifo, hMailbox] at hNone
      simp at hNone
  | raised hPoint =>
    have hNotWaiting := hDelivers.waits ()
    rw [hPoint, hMailbox] at hNotWaiting
    cases m with
    | excuteTaskBlock => exact .raised hPoint
    | stop => simp at hNotWaiting
  | @waiting _ _ hStage hPoint before hPosted hNone hIff =>
    cases m with
    | excuteTaskBlock =>
      exact .waiting hStage hPoint hPosted hNone
        (iff_of_false (by simp [taken, deliver, __excuteTaskBlock]) fun h => hUnstarted (hIff.mpr h))
    | stop =>
      have hFifo := hDelivers.fifo
      rw [hMailbox, hPosted] at hFifo
      have hStarted : stage = .started := by
        cases stage with
        | fresh => exact absurd (hIff.mpr rfl) hUnstarted
        | started => rfl
        | stopped => exact absurd rfl hStage
      subst hStarted
      exact .performed (goto_point_self ..) (eq_nil_of_append_stop hNone hFifo.symm) rfl
  | performed _ hNil _ | stopped _ hNil _ =>
    rw [hNil] at hMailbox
    cases hMailbox

theorem Calls.start (calls : List (Call τ)) : Calls calls (anyOrder calls).start where
  delivers := Delivers.start _
  held := by
    refine ⟨fun i stmt hMem => ?_, Nat.one_pos, fun h => by cases h⟩
    obtain ⟨c, _, hc⟩ := List.mem_map.mp hMem
    exact ⟨c, hc.symm⟩
  phase := ⟨.fresh, calls, ⟨rfl, [], rfl, rfl⟩,
    .calling (by decide) (.inl rfl) (.inl rfl) rfl (iff_of_true rfl rfl)⟩

theorem Calls.step {s s' : State Unit τ} {a : Action Unit} (h : Calls calls s)
    (hStep : step s a = some s') : Calls calls s' where
  delivers := h.delivers.step hStep
  held := h.held.step hStep
  phase := by
    obtain ⟨stage, rest, hProgress, hPhase⟩ := h.phase
    cases a with
    | client i => exact hPhase.client hProgress h.delivers (client_cases hStep)
    | test =>
      obtain ⟨hLoop, rfl⟩ := test_cases hStep
      exact ⟨stage, rest, hProgress.of_todo rfl,
        hPhase.of_loop (by simp [hLoop]) (by split <;> simp)⟩
    | perform =>
      obtain ⟨_, m, ms, hLoop, hMailbox, rfl⟩ := perform_cases hStep
      exact ⟨stage, rest, hProgress.of_todo (taken_todo s m ms), hPhase.perform h.delivers hLoop hMailbox⟩
    | endPass =>
      obtain ⟨hLoop, rfl⟩ := endPass_cases hStep
      exact ⟨stage, rest, hProgress.of_todo rfl, hPhase.of_loop (by simp [hLoop]) (by simp)⟩

theorem anyOrder_calls {s : State Unit τ} (h : (anyOrder calls).Reachable s) : Calls calls s :=
  Machine.invariant (P := Calls calls) (Calls.start calls) (fun _ _ _ hs hStep => hs.step hStep) h

end Phases

section Returning

variable {calls : List (Call τ)}

def Point.rank : Point → Nat
  | .ready => 4
  | .checked => 3
  | .target _ => 2
  | .waiting => 1
  | .performed | .raised => 0

def Loop.rank : Loop → Nat
  | .unstarted | .left => 0
  | .pass false => 1
  | .test => 2
  | .pass true => 3

/-- What the call in progress and the messages in the mailbox can still take. -/
def variant (s : State Unit τ) : Nat :=
  10 * (s.point ()).rank + 3 * s.mailbox.length + s.loop.rank

/-- A client step either completes the call or gets it nearer to its completion. -/
theorem client_variant {s s' : State Unit τ} (hMove : ClientMove s () s') :
    (s'.todo ()).length < (s.todo ()).length ∨ (s'.todo = s.todo ∧ variant s' < variant s) := by
  cases hMove with
  | release hTodo _ | refuse hTodo _ _ | start hTodo _ _ | startNil hTodo _ | postTask hTodo _
  | resume hTodo _ => exact .inl (by simp [State.finish, State.goto, State.post, hTodo])
  | check _ hPoint _ _ | read _ hPoint | raise _ hPoint _ =>
    refine .inr ⟨rfl, ?_⟩
    simp [variant, State.goto, hPoint, Point.rank]
  | postStop _ hPoint =>
    refine .inr ⟨rfl, ?_⟩
    simp only [variant, hPoint, Point.rank, State.goto, State.post, Function.update_self,
      List.length_append, List.length_singleton]
    omega

theorem perform_variant {s : State Unit τ} (hDelivers : Delivers s) {handled : Bool}
    (hLoop : s.loop = .pass handled) {m : Message Unit τ} {ms : List (Message Unit τ)}
    (hMailbox : s.mailbox = m :: ms) : variant (taken s m ms) < variant s := by
  have hRank : 1 ≤ s.loop.rank := by rw [hLoop]; cases handled <;> decide
  cases m with
  | excuteTaskBlock =>
    change 10 * (s.point ()).rank + 3 * ms.length + 3 < variant s
    rw [variant, hMailbox, List.length_cons]
    omega
  | stop sender =>
    have hWaiting : s.point () = .waiting := (hDelivers.waits ()).mp (by rw [hMailbox]; simp)
    have hDone : (taken s (.stop sender) ms).point () = .performed := goto_point_self ..
    change 10 * ((taken s (.stop sender) ms).point ()).rank + 3 * ms.length + 3 < variant s
    rw [variant, hDone, hWaiting, hMailbox, List.length_cons]
    simp only [Point.rank]
    omega

theorem step_variant {s s' : State Unit τ} {a : Action Unit} (hDelivers : Delivers s)
    (hStep : step s a = some s') :
    (s'.todo ()).length < (s.todo ()).length ∨ (s'.todo = s.todo ∧ variant s' < variant s) := by
  cases a with
  | client i => exact client_variant (client_cases hStep)
  | test =>
    obtain ⟨hLoop, rfl⟩ := test_cases hStep
    refine .inr ⟨rfl, ?_⟩
    have hRank : (if s.weakSelf && !s.stopped then Loop.pass false else .left).rank < s.loop.rank := by
      rw [hLoop]
      split <;> decide
    simp only [variant]
    omega
  | perform =>
    obtain ⟨_, m, ms, hLoop, hMailbox, rfl⟩ := perform_cases hStep
    exact .inr ⟨taken_todo s m ms, perform_variant hDelivers hLoop hMailbox⟩
  | endPass =>
    obtain ⟨hLoop, rfl⟩ := endPass_cases hStep
    refine .inr ⟨rfl, ?_⟩
    simp [variant, hLoop, Loop.rank]

theorem calling_enabled {s : State Unit τ} {c : Call τ} {cs : List (Call τ)}
    (hTodo : s.todo () = (c :: cs).map .call)
    (hPoint : s.point () = .ready ∨ s.point () = .checked ∨ s.point () = .target true)
    (hTask : s.point () = .ready ∨ c ≠ .excuteTaskBlock none) :
    ∃ a s', step s a = some s' := by
  refine ⟨.client (), ?_⟩
  simp only [step, client, hTodo, List.map_cons]
  obtain hReady | hChecked | hTarget := hPoint
  · cases c <;> simp only [run, excuteTaskBlock, stop, guarded, hReady] <;> exact ⟨_, rfl⟩
  · cases c <;> simp only [run, excuteTaskBlock, stop, guarded, hChecked] <;> exact ⟨_, rfl⟩
  · have hNotNone := hTask.resolve_left (by simp [hTarget])
    cases c with
    | run =>
      simp only [run, guarded, hTarget, Bool.not_true, Bool.false_eq_true, if_false]
      split <;> exact ⟨_, rfl⟩
    | excuteTaskBlock task =>
      cases task with
      | none => exact absurd rfl hNotNone
      | some task =>
        simp only [excuteTaskBlock, guarded, hTarget]
        exact ⟨_, rfl⟩
    | stop =>
      simp only [stop, guarded, hTarget]
      exact ⟨_, rfl⟩

/-- The inner thread is on its way to a stop message for which its caller waits. -/
theorem waiting_enabled {s : State Unit τ} (hDelivers : Delivers s) (hHeld : Held s)
    (hPoint : s.point () = .waiting) {ms : List (Message Unit τ)} (hPosted : s.posted = ms ++ [.stop ()])
    (hNone : stoppers ms = []) (hStarted : s.loop ≠ .unstarted) : ∃ a s', step s a = some s' := by
  have hMem : () ∈ stoppers s.mailbox := (hDelivers.waits ()).mpr hPoint
  cases hLoop : s.loop with
  | unstarted => exact absurd hLoop hStarted
  | test =>
    refine ⟨.test, ?_⟩
    simp only [OCNote.PermanentThread.step, test, hLoop, if_true]
    exact ⟨_, rfl⟩
  | pass handled =>
    cases hMailbox : s.mailbox with
    | nil => simp [hMailbox] at hMem
    | cons m rest =>
      refine ⟨.perform, ?_⟩
      simp only [OCNote.PermanentThread.step, perform, hLoop, hMailbox]
      exact ⟨_, rfl⟩
  | left =>
    have hStops := congrArg List.length (congrArg stoppers (hDelivers.fifo.symm.trans hPosted))
    have hBoth := hDelivers.stopped.mp (hHeld.left hLoop)
    have hPerformed := List.length_pos_iff.mpr hBoth
    have hMailbox := List.length_pos_iff.mpr (List.ne_nil_of_mem hMem)
    simp [hNone] at hStops
    omega

theorem Calls.enabled {s : State Unit τ} (h : Calls calls s)
    (hAllowed : (Stage.fresh.runs calls).isSome = true) (hTodo : s.todo () ≠ []) :
    ∃ a s', OCNote.PermanentThread.step s a = some s' := by
  obtain ⟨stage, rest, hProgress, hPhase⟩ := h.phase
  obtain ⟨done, hCalls, hDone⟩ := hProgress.made
  have hRest := hProgress.todo
  cases rest with
  | nil => exact absurd hRest hTodo
  | cons c cs =>
    have hNext := Stage.next_of_append hCalls hDone hAllowed
    cases hPhase with
    | calling _ hPoint hTask _ _ =>
      refine calling_enabled hRest hPoint (hTask.imp_right ?_)
      rintro ⟨c, cs, hEq, hNotNone⟩
      cases hEq
      exact hNotNone
    | raised => cases hNext
    | waiting hStage hPoint hPosted hNone hLoop =>
      refine waiting_enabled h.delivers h.held hPoint hPosted hNone fun hUnstarted => ?_
      rw [hLoop.mp hUnstarted] at hNext
      cases hNext
    | performed hPoint _ _ =>
      refine ⟨.client (), ?_⟩
      simp only [OCNote.PermanentThread.step, client, hRest, List.map_cons, OCNote.PermanentThread.stop,
        guarded, hPoint]
      exact ⟨_, rfl⟩
    | stopped hPoint _ _ => exact calling_enabled hRest (.inl hPoint) (.inl hPoint)

theorem Calls.returns {s : State Unit τ} (h : Calls calls s)
    (hAllowed : (Stage.fresh.runs calls).isSome = true) (hTodo : s.todo () ≠ []) :
    (anyOrder calls).Inevitably (fun s' => (s'.todo ()).length < (s.todo ()).length) s := by
  refine Machine.inevitably_of_variant (fun t => Calls calls t ∧ t.todo = s.todo) variant ?_ ?_ ⟨h, rfl⟩
  · rintro t ⟨ht, hSame⟩ _
    exact ht.enabled hAllowed (by rw [hSame]; exact hTodo)
  · rintro t a t' ⟨ht, hSame⟩ _ hStep
    obtain hLess | ⟨hTodo', hLess⟩ := step_variant ht.delivers hStep
    · exact .inl (by rwa [hSame] at hLess)
    · exact .inr ⟨⟨ht.step hStep, hTodo'.trans hSame⟩, hLess⟩

theorem exists_all_returned (hReturns : ∀ s, (anyOrder calls).Reachable s → s.todo () ≠ [] →
    (anyOrder calls).Inevitably (fun s' => (s'.todo ()).length < (s.todo ()).length) s) :
    ∃ s, (anyOrder calls).Reachable s ∧ s.todo () = [] := by
  have hEnd : ∀ n s, (s.todo ()).length = n → (anyOrder calls).Reachable s →
      ∃ s', (anyOrder calls).Reachable s' ∧ s'.todo () = [] := by
    intro n
    induction n using Nat.strongRecOn with
    | ind n ih =>
      intro s hLength hReach
      cases hTodo : s.todo () with
      | nil => exact ⟨s, hReach, hTodo⟩
      | cons stmt rest =>
        obtain ⟨s', hReach', hLess⟩ :=
          (hReturns s hReach (by rw [hTodo]; exact List.cons_ne_nil _ _)).reaches hReach
        exact ih _ (hLength ▸ hLess) s' rfl hReach'
  exact hEnd _ _ rfl (Machine.reachable_start _)

theorem Calls.all_made {s : State Unit τ} (h : Calls calls s) (hTodo : s.todo () = []) :
    ∃ stage, Stage.fresh.runs calls = some stage ∧ Phase s stage [] := by
  obtain ⟨stage, rest, hProgress, hPhase⟩ := h.phase
  obtain ⟨done, hCalls, hDone⟩ := hProgress.made
  have hRest : rest = [] := by simpa [hTodo] using hProgress.todo
  subst hRest
  rw [List.append_nil] at hCalls
  exact ⟨stage, hCalls ▸ hDone, hPhase⟩

/-- When every call returns, all of them have been made in stages that allow them. -/
theorem Harmless.allowed (h : Harmless calls) : (Stage.fresh.runs calls).isSome = true := by
  obtain ⟨s, hReach, hTodo⟩ := exists_all_returned h.returns
  obtain ⟨stage, hStage, _⟩ := (anyOrder_calls hReach).all_made hTodo
  rw [hStage]
  rfl

/-- Calls made by one thread on a fresh object are harmless exactly if the first of the
`run` and `stop` calls is `run` and the second is `stop`. -/
theorem harmless_iff_runThenStop (calls : List (Call τ)) : Harmless calls ↔ RunThenStop calls := by
  rw [← Stage.fresh_runs]
  constructor
  · exact Harmless.allowed
  · intro hAllowed
    refine ⟨fun s hReach hRaised => ?_, fun s hReach hTodo => (anyOrder_calls hReach).returns hAllowed hTodo⟩
    obtain ⟨stage, rest, hProgress, hPhase⟩ := (anyOrder_calls hReach).phase
    obtain ⟨done, hCalls, hDone⟩ := hProgress.made
    cases hPhase with
    | raised => cases Stage.next_of_append hCalls hDone hAllowed
    | calling _ hPoint _ _ _ => simp [hRaised] at hPoint
    | waiting _ hPoint _ _ _ | performed hPoint _ _ | stopped hPoint _ _ =>
      rw [hRaised] at hPoint
      cases hPoint

/-- The second `run` starts a thread that has been started. -/
theorem second_run_raises : ¬ ∀ calls : List (Call Char), Harmless calls := by
  intro hClaim
  let actions : List (Action Unit) := List.replicate 6 (.client ())
  have hRaised : ((anyOrder [.run, .run]).after actions rfl : State Unit Char).point () = .raised := rfl
  exact (hClaim [.run, .run]).noRaise _ (Machine.reachable_after _ actions rfl) hRaised

end Returning

end OCNote.PermanentThread
