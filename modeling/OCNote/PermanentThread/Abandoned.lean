import OCNote.PermanentThread.CallOrder

/-! # An owner that drops its last reference

The loop condition tests `weakSelf`, but only between two passes, and a deallocation is no
message that would end a pass. Up to the moment at which the owner drops the object, a run
is one of calls in any order. -/

namespace OCNote.PermanentThread
open OCNote.Support
set_option autoImplicit false

universe u

variable {τ : Type u}

def abandoned (calls : List (Call τ)) : Machine (State Unit τ) (Action Unit) :=
  permanentThread fun _ => calls.map .call ++ [.release]

/-- The inner thread waits inside `runMode:beforeDate:` for a message. -/
def Blocked (s : State Unit τ) : Prop := s.loop = .pass false ∧ s.mailbox = []

/-- The object is deallocated and its thread will never test the loop condition again. -/
def Stranded (s : State Unit τ) : Prop := s.weakSelf = false ∧ Blocked s

def State.thenRelease (s : State Unit τ) : State Unit τ :=
  { s with todo := fun i => s.todo i ++ [.release] }

section Owned

variable {calls : List (Call τ)}

theorem thenRelease_goto (s : State Unit τ) (p : Point) :
    s.thenRelease.goto () p = (s.goto () p).thenRelease := rfl

theorem thenRelease_finish (s : State Unit τ) (hTodo : s.todo () ≠ []) :
    s.thenRelease.finish () = (s.finish ()).thenRelease := by
  have hTail : Function.update s.thenRelease.todo () (s.thenRelease.todo ()).tail =
      (s.finish ()).thenRelease.todo := by
    funext i
    simp [State.thenRelease, State.finish, List.tail_append_of_ne_nil hTodo]
  simp only [State.finish, hTail]
  rfl

theorem guarded_thenRelease (s : State Unit τ) (hTodo : s.todo () ≠ []) (refused : Bool)
    {use use' : Bool → Option (State Unit τ)}
    (hUse : ∀ flag, use' flag = (use flag).map State.thenRelease) :
    guarded s.thenRelease () refused use' = (guarded s () refused use).map State.thenRelease := by
  have hPoint : s.thenRelease.point () = s.point () := rfl
  unfold guarded
  rw [hPoint]
  cases s.point () with
  | ready => cases refused <;> simp [thenRelease_finish s hTodo, thenRelease_goto]
  | checked => rfl
  | target flag => exact hUse flag
  | performed => exact congrArg some (thenRelease_finish s hTodo)
  | waiting | raised => rfl

/-- Until its calls are made, the owner does not notice that a release follows. -/
theorem client_thenRelease (s : State Unit τ) (hTodo : s.todo () ≠ []) :
    client s.thenRelease () = (client s ()).map State.thenRelease := by
  have hFinish := thenRelease_finish s hTodo
  unfold client
  cases hStmt : s.todo () with
  | nil => exact absurd hStmt hTodo
  | cons stmt rest =>
    have hHead : s.thenRelease.todo () = stmt :: (rest ++ [.release]) := by
      simp [State.thenRelease, hStmt]
    rw [hHead]
    cases stmt with
    | release =>
      have hPoint : s.thenRelease.point () = s.point () := rfl
      simp only [hPoint]
      split
      · exact congrArg some (thenRelease_finish { s with references := s.references - 1 } hTodo)
      · rfl
    | call c =>
      cases c with
      | run =>
        refine guarded_thenRelease s hTodo _ fun flag => ?_
        cases flag with
        | false => exact congrArg some hFinish
        | true =>
          simp only [Bool.not_true, Bool.false_eq_true, if_false]
          change (if s.loop = .unstarted then _ else _) = Option.map _ (if s.loop = .unstarted then _ else _)
          split
          · exact congrArg some (thenRelease_finish { s with loop := .test } hTodo)
          · rfl
      | excuteTaskBlock task =>
        refine guarded_thenRelease s hTodo _ fun flag => ?_
        cases flag with
        | false => rfl
        | true =>
          cases task with
          | none => rfl
          | some task => exact congrArg some (thenRelease_finish (s.post (.excuteTaskBlock task ())) hTodo)
      | stop =>
        refine guarded_thenRelease s hTodo _ fun flag => ?_
        cases flag <;> rfl

theorem step_thenRelease (s : State Unit τ) (a : Action Unit) (h : a ≠ .client () ∨ s.todo () ≠ []) :
    step s.thenRelease a = (step s a).map State.thenRelease := by
  cases a with
  | client => exact client_thenRelease s (h.resolve_left fun hNot => hNot rfl)
  | test =>
    change (if s.loop = .test then _ else _) = Option.map _ (if s.loop = .test then _ else _)
    split <;> rfl
  | endPass =>
    change (if s.loop = .pass true then _ else _) = Option.map _ (if s.loop = .pass true then _ else _)
    split <;> rfl
  | perform =>
    change perform s.thenRelease = (perform s).map _
    unfold perform
    have hLoop : s.thenRelease.loop = s.loop := rfl
    have hMailbox : s.thenRelease.mailbox = s.mailbox := rfl
    rw [hLoop, hMailbox]
    split
    · rename_i m rest _ _
      cases m <;> rfl
    · rfl

theorem client_eq_none {s : State Unit τ} (hTodo : s.todo () = []) : client s () = none := by
  simp [client, hTodo]

theorem abandoned_of_anyOrder {actions : List (Action Unit)} {s : State Unit τ}
    (hRun : (anyOrder calls).run actions = some s) :
    (abandoned calls).run actions = some s.thenRelease := by
  refine Machine.run_induction (P := fun actions s => (abandoned calls).run actions = some s.thenRelease)
    rfl ?_ actions s hRun
  intro actions s a s' _ ih hStep
  rw [Machine.run_concat, ih, Option.bind_some]
  change step s a = some s' at hStep
  change step s.thenRelease a = _
  have hEnabled : a ≠ .client () ∨ s.todo () ≠ [] := by
    by_contra hNot
    rw [not_or, not_not, not_not] at hNot
    rw [hNot.1] at hStep
    exact absurd hStep (by simp [step, client_eq_none hNot.2])
  rw [step_thenRelease s a hEnabled, hStep]
  rfl

theorem anyOrder_references {s : State Unit τ} (h : (anyOrder calls).Reachable s) : s.references = 1 := by
  refine (Machine.invariant (P := fun s => Calls calls s ∧ s.references = 1) ⟨Calls.start calls, rfl⟩ ?_ h).2
  rintro s a s' ⟨hCalls, hOne⟩ hStep
  refine ⟨hCalls.step hStep, ?_⟩
  cases a with
  | client i =>
    cases client_cases hStep with
    | release hTodo _ =>
      obtain ⟨c, hc⟩ := hCalls.held.calls i .release (by rw [hTodo]; exact List.mem_cons_self)
      cases hc
    | refuse | check | read | start | raise | startNil | postTask | postStop | resume => exact hOne
  | test =>
    obtain ⟨_, rfl⟩ := test_cases hStep
    exact hOne
  | perform =>
    obtain ⟨_, m, _, _, _, rfl⟩ := perform_cases hStep
    cases m <;> exact hOne
  | endPass =>
    obtain ⟨_, rfl⟩ := endPass_cases hStep
    exact hOne

end Owned

section Dropping

variable {calls : List (Call τ)}

/-- The owner still holds the object, or has dropped it and makes no step any more. -/
inductive Owner (calls : List (Call τ)) (actions : List (Action Unit)) : State Unit τ → Prop
  | holding {s : State Unit τ} (hRun : (anyOrder calls).run actions = some s) :
      Owner calls actions s.thenRelease
  | gone {s : State Unit τ} (hTodo : s.todo () = []) (hReferences : s.references = 0)
      (hStranded : Stranded s → ∃ t t', (abandoned calls).Takes actions t (.client ()) t' ∧
        t.todo () = [.release] ∧ Blocked t) : Owner calls actions s

theorem drops {s s' : State Unit τ} (hTodo : s.todo () = []) (hOne : s.references = 1)
    (hStep : step s.thenRelease (.client ()) = some s') :
    s'.todo () = [] ∧ s'.references = 0 ∧ s'.mailbox = s.mailbox ∧ s'.loop = s.loop := by
  have hRelease : s.thenRelease.todo () = [.release] := by simp [State.thenRelease, hTodo]
  cases client_cases hStep with
  | release =>
    refine ⟨by simp [State.finish, hRelease], ?_, rfl, rfl⟩
    change s.references - 1 = 0
    rw [hOne]
  | refuse hHead | check hHead | read hHead | start hHead | raise hHead | startNil hHead | postTask hHead
  | postStop hHead | resume hHead =>
    rw [hRelease] at hHead
    cases hHead

theorem Owner.step {actions : List (Action Unit)} {s s' : State Unit τ} {a : Action Unit}
    (hRun : (abandoned calls).run actions = some s) (h : Owner calls actions s)
    (hStep : step s a = some s') : Owner calls (actions ++ [a]) s' := by
  cases h with
  | @holding t hOwned =>
    by_cases hDrop : a = .client () ∧ t.todo () = []
    · obtain ⟨rfl, hTodo⟩ := hDrop
      obtain ⟨hTodo', hNone, hMailbox, hLoop⟩ := drops hTodo (anyOrder_references ⟨_, hOwned⟩) hStep
      refine .gone hTodo' hNone fun hStranded => ⟨_, s', ⟨actions, [], rfl, hRun, hStep⟩, ?_, ?_⟩
      · simp [State.thenRelease, hTodo]
      · exact ⟨hLoop.symm.trans hStranded.2.1, hMailbox.symm.trans hStranded.2.2⟩
    · rw [step_thenRelease t a (by rwa [not_and_or] at hDrop), Option.map_eq_some_iff] at hStep
      obtain ⟨t', hStep, rfl⟩ := hStep
      exact .holding (by rw [Machine.run_concat, hOwned]; exact hStep)
  | gone hTodo hReferences hBefore =>
    cases a with
    | client => exact absurd hStep (by simp [OCNote.PermanentThread.step, client_eq_none hTodo])
    | test =>
      obtain ⟨_, rfl⟩ := test_cases hStep
      refine .gone hTodo hReferences fun hStranded => ?_
      obtain ⟨hDead, hLoop, _⟩ := hStranded
      change s.weakSelf = false at hDead
      simp [hDead] at hLoop
    | perform =>
      obtain ⟨_, m, ms, _, _, rfl⟩ := perform_cases hStep
      cases m <;> exact .gone hTodo hReferences fun hStranded => by cases hStranded.2.1
    | endPass =>
      obtain ⟨_, rfl⟩ := endPass_cases hStep
      exact .gone hTodo hReferences fun hStranded => by cases hStranded.2.1

theorem owner {actions : List (Action Unit)} {s : State Unit τ}
    (hRun : (abandoned calls).run actions = some s) : Owner calls actions s :=
  Machine.run_induction (P := Owner calls) (.holding (s := (anyOrder calls).start) rfl)
    (fun _ _ _ _ hRun h hStep => h.step hRun hStep) actions s hRun

theorem holding_of_todo {actions : List (Action Unit)} {s : State Unit τ}
    (hRun : (abandoned calls).run actions = some s) (hTodo : s.todo () = [.release]) :
    ∃ t, (anyOrder calls).Reachable t ∧ t.todo () = [] ∧ s = t.thenRelease := by
  cases owner hRun with
  | @holding t hOwned => exact ⟨t, ⟨_, hOwned⟩, by simpa [State.thenRelease] using hTodo, rfl⟩
  | gone hNil =>
    rw [hNil] at hTodo
    cases hTodo

theorem holding_not_stranded {s : State Unit τ} (h : (anyOrder calls).Reachable s) :
    ¬ Stranded s.thenRelease := by
  rintro ⟨hDead, _⟩
  have hAlive : s.weakSelf = true := (anyOrder_calls h).held.weakSelf
  change s.weakSelf = false at hDead
  rw [hAlive] at hDead
  cases hDead

theorem drop_strands {s s' : State Unit τ} (h : (anyOrder calls).Reachable s) (hTodo : s.todo () = [])
    (hBlocked : Blocked s) (hStep : step s.thenRelease (.client ()) = some s') : Stranded s' := by
  obtain ⟨_, hNone, hMailbox, hLoop⟩ := drops hTodo (anyOrder_references h) hStep
  refine ⟨?_, hLoop.trans hBlocked.1, hMailbox.trans hBlocked.2⟩
  simp [State.weakSelf, hNone, hMailbox, hBlocked.2]

/-- A run strands the thread only in the step that drops the last reference. -/
theorem strands_iff_drops (actions : List (Action Unit)) :
    (∃ s, (abandoned calls).Visits actions s ∧ Stranded s) ↔
      ∃ s s', (abandoned calls).Takes actions s (.client ()) s' ∧ s.todo () = [.release] ∧ Blocked s := by
  constructor
  · rintro ⟨s, ⟨pre, post, rfl, hRun⟩, hStranded⟩
    cases owner hRun with
    | holding hOwned => exact absurd hStranded (holding_not_stranded ⟨_, hOwned⟩)
    | gone _ _ hBefore =>
      obtain ⟨t, t', hTakes, hTodo, hBlocked⟩ := hBefore hStranded
      exact ⟨t, t', hTakes.append, hTodo, hBlocked⟩
  · rintro ⟨s, s', hTakes, hTodo, hBlocked⟩
    refine ⟨s', hTakes.visits_after, ?_⟩
    obtain ⟨pre, _, _, hRun, hStep⟩ := hTakes
    obtain ⟨t, hReach, hNil, rfl⟩ := holding_of_todo hRun hTodo
    exact drop_strands hReach hNil hBlocked hStep

end Dropping

section Blocking

variable {calls : List (Call τ)}

theorem Stage.stopped_runs_ne (calls : List (Call τ)) : Stage.stopped.runs calls ≠ some .started := by
  induction calls with
  | nil => simp [Stage.runs]
  | cons c calls ih => exact ih

theorem Stage.started_runs_eq (calls : List (Call τ)) :
    Stage.started.runs calls = some .started ↔ calls.filter Call.isControl = [] := by
  induction calls with
  | nil => simp [Stage.runs]
  | cons c calls ih =>
    rw [Stage.runs_cons]
    cases c with
    | excuteTaskBlock => exact ih
    | run => exact iff_of_false (by simp [Stage.next]) (List.cons_ne_nil _ _)
    | stop => exact iff_of_false (Stage.stopped_runs_ne calls) (List.cons_ne_nil _ _)

/-- The calls leave the thread started if there is one `run` and no `stop`. -/
theorem Stage.fresh_runs_eq (calls : List (Call τ)) :
    Stage.fresh.runs calls = some .started ↔ calls.filter Call.isControl = [.run] := by
  induction calls with
  | nil => simp [Stage.runs]
  | cons c calls ih =>
    rw [Stage.runs_cons]
    cases c with
    | excuteTaskBlock => exact ih
    | run =>
      refine (Stage.started_runs_eq calls).trans ⟨fun h => ?_, fun h => (List.cons.inj h).2⟩
      change Call.run :: calls.filter Call.isControl = _
      rw [h]
    | stop => exact iff_of_false (by simp [Stage.next]) fun h => by cases h

/-- The inner thread of a started object, while no call is in progress. -/
structure Idle (calls : List (Call τ)) (s : State Unit τ) : Prop where
  calls : Calls calls s
  todo : s.todo () = []
  point : s.point () = .ready
  loop : s.loop = .test ∨ ∃ handled, s.loop = .pass handled

theorem Calls.idle {s : State Unit τ} (h : Calls calls s) (hTodo : s.todo () = [])
    (hStage : Stage.fresh.runs calls = some .started) : Idle calls s := by
  obtain ⟨stage, hRuns, hPhase⟩ := h.all_made hTodo
  cases hRuns.symm.trans hStage
  cases hPhase with
  | calling _ _ hTask hNone hLoop =>
    refine ⟨h, hTodo, hTask.resolve_right (by rintro ⟨_, _, hNil, _⟩; cases hNil), ?_⟩
    have hGoing : s.stopped = false := by
      have hInner := h.delivers.innerThread_of_none hNone
      rwa [h.delivers.inner, Bool.not_eq_true'] at hInner
    cases hAt : s.loop with
    | unstarted => cases hLoop.mp hAt
    | test => exact .inl rfl
    | pass handled => exact .inr ⟨handled, rfl⟩
    | left =>
      rw [h.held.left hAt] at hGoing
      cases hGoing

theorem Idle.enabled {s : State Unit τ} (h : Idle calls s) (hNot : ¬ Blocked s) :
    ∃ a s', step s a = some s' := by
  obtain hTest | ⟨handled, hPass⟩ := h.loop
  · refine ⟨.test, ?_⟩
    simp only [step, test, hTest, if_true]
    exact ⟨_, rfl⟩
  · cases hMailbox : s.mailbox with
    | cons m ms =>
      refine ⟨.perform, ?_⟩
      simp only [step, perform, hPass, hMailbox]
      exact ⟨_, rfl⟩
    | nil =>
      cases handled with
      | false => exact absurd ⟨hPass, hMailbox⟩ hNot
      | true =>
        refine ⟨.endPass, ?_⟩
        simp only [step, endPass, hPass, if_true]
        exact ⟨_, rfl⟩

theorem Idle.step {s s' : State Unit τ} {a : Action Unit} (h : Idle calls s)
    (hStage : Stage.fresh.runs calls = some .started) (hStep : step s a = some s') :
    Idle calls s' ∧ variant s' < variant s := by
  obtain hLess | ⟨hTodo, hLess⟩ := step_variant h.calls.delivers hStep
  · simp [h.todo] at hLess
  · exact ⟨(h.calls.step hStep).idle (by rw [hTodo, h.todo]) hStage, hLess⟩

/-- Left alone, a started object comes to wait in a pass with nothing to do. -/
theorem blocks_when_started (hStage : Stage.fresh.runs calls = some .started) :
    ∃ s, (anyOrder calls).Reachable s ∧ Idle calls s ∧ Blocked s := by
  have hAllowed : (Stage.fresh.runs calls).isSome = true := by rw [hStage]; rfl
  obtain ⟨s, hReach, hTodo⟩ : ∃ s, (anyOrder calls).Reachable s ∧ s.todo () = [] :=
    exists_all_returned fun t hReach hTodo => (anyOrder_calls hReach).returns hAllowed hTodo
  refine (Machine.inevitably_of_variant (Idle calls) variant ?_ ?_
    ((anyOrder_calls hReach).idle hTodo hStage)).reaches hReach
  · intro t hIdle hNot
    exact hIdle.enabled fun hBlocked => hNot ⟨hIdle, hBlocked⟩
  · intro t a t' hIdle _ hStep
    exact .inr (hIdle.step hStage hStep)

/-- A stopped loop does not begin another pass. -/
theorem stopped_not_blocked {s : State Unit τ} (h : (anyOrder calls).Reachable s)
    (hStopped : s.stopped = true) : s.loop ≠ .pass false := by
  revert hStopped
  refine Machine.invariant (P := fun s => s.stopped = true → s.loop ≠ .pass false)
    (fun _ => by simp [anyOrder, permanentThread, initial]) ?_ h
  intro s a s' hs hStep hStopped
  cases a with
  | client i =>
    cases client_cases hStep with
    | start => exact fun h => by cases h
    | release | refuse | check | read | raise | startNil | postTask | postStop | resume =>
      exact hs hStopped
  | test =>
    obtain ⟨_, rfl⟩ := test_cases hStep
    change s.stopped = true at hStopped
    simp [hStopped]
  | perform =>
    obtain ⟨_, m, _, _, _, rfl⟩ := perform_cases hStep
    cases m <;> exact fun h => by cases h
  | endPass =>
    obtain ⟨_, rfl⟩ := endPass_cases hStep
    exact fun h => by cases h

theorem started_of_blocked {s : State Unit τ} (h : (anyOrder calls).Reachable s) (hTodo : s.todo () = [])
    (hBlocked : Blocked s) : Stage.fresh.runs calls = some .started := by
  obtain ⟨stage, hRuns, hPhase⟩ := (anyOrder_calls h).all_made hTodo
  cases hPhase with
  | calling hStage _ _ _ hLoop =>
    cases stage with
    | fresh =>
      have hUnstarted := hLoop.mpr rfl
      rw [hBlocked.1] at hUnstarted
      cases hUnstarted
    | started => exact hRuns
    | stopped => exact absurd rfl hStage
  | stopped _ _ hStopped => exact absurd hBlocked.1 (stopped_not_blocked h hStopped)

/-- A thread is stranded where the owner drops the object while the inner thread waits in
a pass for a first message; this can happen exactly if of the `run` and `stop` calls the
owner has made one `run` and no other. -/
theorem strands_iff_only_run (calls : List (Call τ)) :
    (∀ actions, (∃ s, (abandoned calls).Visits actions s ∧ Stranded s) ↔
      ∃ s s', (abandoned calls).Takes actions s (.client ()) s' ∧ s.todo () = [.release] ∧ Blocked s) ∧
    ((∀ s, (abandoned calls).Reachable s → ¬ Stranded s) ↔ calls.filter Call.isControl ≠ [.run]) := by
  refine ⟨strands_iff_drops, Iff.trans ?_ (not_congr (Stage.fresh_runs_eq calls))⟩
  constructor
  · intro hNever hStage
    obtain ⟨s, ⟨actions, hRun⟩, hIdle, hBlocked⟩ := blocks_when_started hStage
    have hDrop : step s.thenRelease (.client ()) =
        some ({ s.thenRelease with references := s.references - 1 }.finish ()) := by
      simp [step, client, State.thenRelease, hIdle.todo, hIdle.point]
    refine hNever _ ⟨actions ++ [.client ()], ?_⟩
      (drop_strands ⟨actions, hRun⟩ hIdle.todo hBlocked hDrop)
    rw [Machine.run_concat, abandoned_of_anyOrder hRun]
    exact hDrop
  · rintro hStage s ⟨actions, hRun⟩ hStranded
    obtain ⟨t, _, hTakes, hTodo, hBlocked⟩ :=
      (strands_iff_drops actions).mp ⟨s, ⟨actions, [], by simp, hRun⟩, hStranded⟩
    obtain ⟨_, hPre⟩ := hTakes.visits.reachable
    obtain ⟨held, hReach, hNil, rfl⟩ := holding_of_todo hPre hTodo
    exact hStage (started_of_blocked hReach hNil hBlocked)

/-- The thread is in its first pass when its owner goes away. -/
theorem dropped_while_blocked :
    ¬ ∀ calls : List (Call Char), ∀ s, (abandoned calls).Reachable s → ¬ Stranded s := by
  intro hClaim
  let actions : List (Action Unit) := [.client (), .client (), .client (), .test, .client ()]
  let s := (abandoned ([.run] : List (Call Char))).after actions rfl
  have hStranded : Stranded s := ⟨rfl, rfl, rfl⟩
  exact hClaim [.run] s (Machine.reachable_after _ actions rfl) hStranded

end Blocking

end OCNote.PermanentThread
