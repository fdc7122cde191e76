import OCNote.Monitor.Workers

/-! # Who still needs the semaphore

A worker that leaves resets `dispatchSemaphore`, without knowing whether monitoring has
begun again and whether another worker is on its way back to its wait. -/

namespace OCNote.Monitor
open OCNote.Support
set_option autoImplicit false

/-- A null semaphore is neither in use nor about to be used. -/
structure NonNull (s : State) : Prop where
  crashed : s.crashed = false
  signal : s.main ≠ .signal none
  wait : ∀ w ∈ s.workers, w ≠ .wait none

/-- Whether there is an observer, as far as the point of the main thread tells. -/
def MainPoint.observing : MainPoint → Option Bool
  | .createSemaphore | .createObserver => some false
  | .addObserver | .startWorker | .removeObserver | .releaseObserver | .clearObserver
  | .storeActivity _ | .readSemaphore | .signal _ => some true
  | .idle | .scheduleTimer | .testRunning | .invalidateTimer | .testStopped => none

structure Installed (s : State) : Prop where
  observer : ∀ b, s.main.observing = some b → s.runLoopObserver.isSome = b
  added : ∀ o ∈ s.addedObservers, s.runLoopObserver = some o
  removed : s.main = .releaseObserver ∨ s.main = .clearObserver → s.addedObservers = []

section Installation

theorem Installed.isSome {s : State} (h : Installed s) {p : MainPoint} (hMain : s.main = p)
    (hp : p.observing = some true) : s.runLoopObserver.isSome = true := h.observer true (hMain ▸ hp)

theorem Installed.of_call {s s' : State} {p : MainPoint} (h : Installed s) (hCall : call s p = some s')
    (hp : p.observing = none ∨ s.runLoopObserver.isSome = true ∧ p.observing = some true)
    (hRemoved : p ≠ .releaseObserver ∧ p ≠ .clearObserver) : Installed s' := by
  obtain ⟨_, rfl⟩ := call_cases hCall
  refine ⟨fun b hb => ?_, h.added, fun hr => ?_⟩
  · change p.observing = some b at hb
    obtain hNone | ⟨hSome, hTrue⟩ := hp
    · rw [hNone] at hb
      cases hb
    · rw [hTrue] at hb
      cases hb
      exact hSome
  · obtain hr | hr := hr
    · exact absurd hr hRemoved.1
    · exact absurd hr hRemoved.2

theorem Installed.of_goto {s s' : State} (h : Installed s) (hObserver : s'.runLoopObserver = s.runLoopObserver)
    (hAdded : s'.addedObservers = s.addedObservers)
    (hMain : s'.main.observing = none ∨ s'.main.observing = s.main.observing ∨
      s'.main.observing = some s.runLoopObserver.isSome)
    (hRemoved : s'.main = .releaseObserver ∨ s'.main = .clearObserver → s.addedObservers = []) :
    Installed s' where
  observer b hb := by
    rw [hObserver]
    obtain hMain | hMain | hMain := hMain
    · rw [hMain] at hb
      cases hb
    · exact h.observer b (hMain ▸ hb)
    · rw [hMain] at hb
      exact Option.some.inj hb
  added := by rw [hObserver, hAdded]; exact h.added
  removed := by rw [hAdded]; exact hRemoved

theorem Installed.mainStep {s s' : State} (h : Installed s) (hStep : mainStep s = some s') :
    Installed s' := by
  cases mainStep_cases hStep with
  | testRunning | testStopped =>
    refine h.of_goto rfl rfl ?_ ?_ <;> cases s.runLoopObserver <;> simp [State.goto, MainPoint.observing]
  | createObserver hMain =>
    have hNone := h.observer false (by rw [hMain]; rfl)
    have hAdded : s.addedObservers = [] := by
      refine List.eq_nil_iff_forall_not_mem.mpr fun o ho => ?_
      rw [h.added o ho] at hNone
      cases hNone
    exact ⟨fun b hb => by cases hb; rfl, by simp [State.goto, hAdded], fun _ => hAdded⟩
  | addObserver hMain =>
    refine ⟨fun b hb => ?_, fun o ho => ?_, by simp [State.goto]⟩
    · cases hb
      exact h.isSome hMain rfl
    · obtain ho | ho := List.mem_append.mp ho
      · exact h.added o ho
      · exact Option.mem_toList.mp ho
  | removeObserver hMain =>
    have hRemoved : s.addedObservers.filter (fun observer => s.runLoopObserver ≠ some observer) = [] := by
      simpa using h.added
    refine ⟨fun b hb => ?_, fun o ho => ?_, fun _ => hRemoved⟩
    · cases hb
      exact h.isSome hMain rfl
    · simp only [State.goto, hRemoved] at ho
      cases ho
  | clearObserver hMain =>
    have hRemoved := h.removed (.inr hMain)
    refine ⟨fun b hb => ?_, fun o ho => ?_, by simp [State.goto]⟩
    · cases hb
    · simp only [State.goto, hRemoved] at ho
      cases ho
  | releaseObserver hMain =>
    exact h.of_goto rfl rfl (.inr (.inl (by rw [hMain]; rfl))) fun _ => h.removed (.inl hMain)
  | crash hMain => exact h.of_goto rfl rfl (.inr (.inl rfl)) h.removed
  | signal => exact h.of_goto rfl rfl (.inl rfl) (by simp [State.goto])
  | scheduleTimer hMain | createSemaphore hMain | startWorker hMain | invalidateTimer hMain
  | storeActivity hMain | readSemaphore hMain =>
    exact h.of_goto rfl rfl (by rw [hMain]; simp [State.goto, MainPoint.observing]) (by simp [State.goto])

/-- A worker changes neither the observer nor what the main thread does. -/
theorem workerStep_frame {s s' : State} {i : Nat} (hStep : workerStep s i = some s') :
    s'.main = s.main ∧ s'.runLoopObserver = s.runLoopObserver ∧ s'.addedObservers = s.addedObservers := by
  cases workerStep_cases hStep <;> exact ⟨rfl, rfl, rfl⟩

theorem Installed.step {s s' : State} {a : Action} (h : Installed s) (hStep : step s a = some s') :
    Installed s' := by
  unfold OCNote.Monitor.step at hStep
  split at hStep
  · cases hStep
  · cases a with
    | beginMonitor | endMonitor => exact h.of_call hStep (.inl rfl) (by decide)
    | callBack activity =>
      simp only at hStep
      split at hStep
      · cases hStep
      · rename_i hAdded
        obtain ⟨o, ho⟩ := List.exists_mem_of_ne_nil _ hAdded
        exact h.of_call hStep (.inr ⟨by rw [h.added o ho]; rfl, rfl⟩) (by simp)
    | main => exact h.mainStep hStep
    | worker i =>
      obtain ⟨hMain, hObserver, hAdded⟩ := workerStep_frame hStep
      exact h.of_goto hObserver hAdded (.inr (.inl (by rw [hMain]))) (by rw [hMain]; exact h.removed)
    | timeout i =>
      obtain ⟨_, _, rfl⟩ := timeoutStep_cases hStep
      exact h.of_goto rfl rfl (.inr (.inl rfl)) h.removed

theorem installed {s : State} (h : monitor.Reachable s) : Installed s :=
  Machine.invariant (P := Installed) ⟨fun b hb => (by cases hb), by simp [monitor, initial], fun _ => rfl⟩
    (fun _ _ _ hs hStep => hs.step hStep) h

end Installation

section Clearing

/-- With the observer NULL, the worker leaves without reading `dispatchSemaphore` again. -/
def Quiet (s : State) (w : WorkerPoint) : Prop :=
  w.Leaving ∨ w = .testObserver ∨ ∃ semaphore, w = .wait (some semaphore) ∧ s.semaphores.getD semaphore 0 = 0

/-- Worker `i` is the last that needs the semaphore. -/
structure LastUser (s : State) (i : Nat) : Prop where
  observer : s.runLoopObserver = none
  main : s.main ≠ .createObserver
  others : ∀ j w, j ≠ i → s.workers[j]? = some w → Quiet s w

structure Safe (s : State) : Prop extends NonNull s where
  cleared : s.dispatchSemaphore = none →
    s.runLoopObserver = none ∧ s.main ≠ .createObserver ∧ ∀ w ∈ s.workers, Quiet s w

theorem Safe.of_some {s s' : State} (h : Safe s) (hSome : s'.dispatchSemaphore ≠ none)
    (hCrashed : s'.crashed = s.crashed) (hSignal : s'.main ≠ .signal none)
    (hWait : ∀ w ∈ s'.workers, w ∈ s.workers ∨ w ≠ .wait none) : Safe s' where
  crashed := by rw [hCrashed, h.crashed]
  signal := hSignal
  wait w hw := (hWait w hw).elim (h.wait w) id
  cleared hNone := absurd hNone hSome

theorem Safe.of_main {s s' : State} (h : Safe s) (hWorkers : s'.workers = s.workers)
    (hSemaphore : s'.dispatchSemaphore = s.dispatchSemaphore) (hSemaphores : s'.semaphores = s.semaphores)
    (hObserver : s'.runLoopObserver = s.runLoopObserver ∨ s'.runLoopObserver = none)
    (hCrashed : s'.crashed = s.crashed) (hSignal : s'.main ≠ .signal none) (hMain : s'.main ≠ .createObserver) :
    Safe s' where
  crashed := by rw [hCrashed, h.crashed]
  signal := hSignal
  wait := by rw [hWorkers]; exact h.wait
  cleared hNone := by
    obtain ⟨hNil, _, hQuiet⟩ := h.cleared (by rw [← hSemaphore, hNone])
    refine ⟨?_, hMain, fun w hw => ?_⟩
    · obtain hObserver | hObserver := hObserver
      · rw [hObserver, hNil]
      · exact hObserver
    · rw [hWorkers] at hw
      have hOld := hQuiet w hw
      rwa [Quiet, ← hSemaphores] at hOld

/-- With an observer, or about to create one, there is a semaphore. -/
theorem Safe.semaphore_of_observer {s : State} (h : Safe s)
    (hObserver : s.runLoopObserver.isSome = true ∨ s.main = .createObserver) : s.dispatchSemaphore ≠ none := by
  intro hNone
  obtain ⟨hNil, hMain, _⟩ := h.cleared hNone
  obtain hSome | hCreate := hObserver
  · rw [hNil] at hSome
    cases hSome
  · exact hMain hCreate

theorem Safe.mainStep {s s' : State} (h : Safe s) (hInstalled : Installed s)
    (hStep : mainStep s = some s') : Safe s' := by
  cases mainStep_cases hStep with
  | crash hMain => exact absurd hMain h.signal
  | signal hMain =>
    have hSome := h.semaphore_of_observer (.inl (hInstalled.isSome hMain rfl))
    exact h.of_some hSome rfl (by simp [State.goto]) fun w hw => .inl hw
  | readSemaphore hMain =>
    have hSome := h.semaphore_of_observer (.inl (hInstalled.isSome hMain rfl))
    exact h.of_some hSome rfl (by simpa [State.goto] using hSome) fun w hw => .inl hw
  | createSemaphore =>
    exact h.of_some (by simp [State.goto]) rfl (by simp [State.goto]) fun w hw => .inl hw
  | createObserver hMain =>
    have hSome := h.semaphore_of_observer (.inr hMain)
    exact h.of_some hSome rfl (by simp [State.goto]) fun w hw => .inl hw
  | startWorker hMain =>
    have hSome := h.semaphore_of_observer (.inl (hInstalled.isSome hMain rfl))
    refine h.of_some hSome rfl (by simp [State.goto]) fun w hw => ?_
    obtain hw | hw := List.mem_append.mp hw
    · exact .inl hw
    · exact .inr (by simp [List.mem_singleton.mp hw])
  | clearObserver =>
    exact h.of_main rfl rfl rfl (.inr rfl) rfl (by simp [State.goto]) (by simp [State.goto])
  | testRunning | testStopped =>
    refine h.of_main rfl rfl rfl (.inl rfl) rfl ?_ ?_ <;> cases s.runLoopObserver <;> simp [State.goto]
  | scheduleTimer | addObserver | invalidateTimer | removeObserver | releaseObserver | storeActivity =>
    exact h.of_main rfl rfl rfl (.inl rfl) rfl (by simp [State.goto]) (by simp [State.goto])

theorem mem_set_cases {ws : List WorkerPoint} {i : Nat} {w v : WorkerPoint} (h : v ∈ ws.set i w) :
    v = w ∨ ∃ j, j ≠ i ∧ ws[j]? = some v := by
  obtain ⟨j, hj⟩ := List.mem_iff_getElem?.mp h
  obtain rfl | hji := eq_or_ne j i
  · rw [List.getElem?_set_self (by simpa using (List.getElem?_eq_some_iff.mp hj).1)] at hj
    exact .inl (Option.some.inj hj).symm
  · rw [List.getElem?_set_ne (Ne.symm hji)] at hj
    exact .inr ⟨j, hji, hj⟩

/-- A worker goes on to a point where it needs the semaphore no more than before. -/
theorem Safe.of_worker {s s' : State} {i : Nat} {w w' : WorkerPoint} (h : Safe s)
    (hWorker : s.workers[i]? = some w) (hWorkers : s'.workers = s.workers.set i w') (hMain : s'.main = s.main)
    (hObserver : s'.runLoopObserver = s.runLoopObserver)
    (hSemaphore : s'.dispatchSemaphore = s.dispatchSemaphore) (hSemaphores : s'.semaphores = s.semaphores)
    (hCrashed : s'.crashed = s.crashed) (hWait : w' ≠ .wait none)
    (hQuiet : s.runLoopObserver = none → Quiet s w → Quiet s w') : Safe s' where
  crashed := by rw [hCrashed, h.crashed]
  signal := by rw [hMain]; exact h.signal
  wait v hv := by
    rw [hWorkers] at hv
    obtain rfl | ⟨j, _, hj⟩ := mem_set_cases hv
    · exact hWait
    · exact h.wait v (List.mem_of_getElem? hj)
  cleared hNone := by
    obtain ⟨hNil, hCreate, hAll⟩ := h.cleared (by rw [← hSemaphore, hNone])
    refine ⟨by rw [hObserver, hNil], by rwa [hMain], fun v hv => ?_⟩
    rw [hWorkers] at hv
    have hOld : Quiet s v := by
      obtain rfl | ⟨j, _, hj⟩ := mem_set_cases hv
      · exact hQuiet hNil (hAll w (List.mem_of_getElem? hWorker))
      · exact hAll v (List.mem_of_getElem? hj)
    rwa [Quiet, ← hSemaphores] at hOld

theorem Safe.semaphore_of_worker {s : State} {i : Nat} {w : WorkerPoint} (h : Safe s)
    (hWorker : s.workers[i]? = some w) (hNot : ¬ Quiet s w) : s.dispatchSemaphore ≠ none :=
  fun hNone => hNot ((h.cleared hNone).2.2 w (List.mem_of_getElem? hWorker))

theorem Safe.workerStep {s s' : State} {i : Nat} (h : Safe s) (hStep : workerStep s i = some s')
    (hLast : s.workers[i]? = some .clearSemaphore → LastUser s i) : Safe s' := by
  have hKept : ∀ w', w' ≠ .wait none → ∀ w ∈ s.workers.set i w', w ∈ s.workers ∨ w ≠ .wait none := by
    intro w' hw' w hw
    obtain hw | rfl := List.mem_or_eq_of_mem_set hw
    · exact .inl hw
    · exact .inr hw'
  cases workerStep_cases hStep with
  | crash hWorker => exact absurd rfl (h.wait _ (List.mem_of_getElem? hWorker))
  | read hWorker =>
    have hSome := h.semaphore_of_worker hWorker (by simp [Quiet, WorkerPoint.Leaving])
    exact h.of_some hSome rfl h.signal (hKept _ (by simpa using hSome))
  | signalled hWorker hPos =>
    have hSome := h.semaphore_of_worker hWorker (by
      simp only [Quiet, WorkerPoint.Leaving, false_or, reduceCtorEq, WorkerPoint.wait.injEq, Option.some.injEq]
      rintro ⟨_, rfl, hZero⟩
      omega)
    exact h.of_some hSome rfl h.signal (hKept _ (by simp))
  | testNull hWorker hNone =>
    exact h.of_worker hWorker rfl rfl rfl rfl rfl rfl (by simp) fun _ _ => .inl trivial
  | testSome hWorker hSome =>
    refine h.of_worker hWorker rfl rfl rfl rfl rfl rfl (by simp) fun hNone => ?_
    rw [hNone] at hSome
    cases hSome
  | clearTimeoutCount hWorker | clearActivity hWorker =>
    exact h.of_worker hWorker rfl rfl rfl rfl rfl rfl (by simp) fun _ _ => .inl trivial
  | testActivity hWorker triggers =>
    have hSome := h.semaphore_of_worker hWorker (by simp [Quiet, WorkerPoint.Leaving])
    exact h.of_some hSome rfl h.signal (hKept _ (by simp))
  | resetTimeoutCount hWorker =>
    have hSome := h.semaphore_of_worker hWorker (by simp [Quiet, WorkerPoint.Leaving])
    exact h.of_some hSome rfl h.signal (hKept _ (by simp))
  | clearSemaphore hWorker =>
    obtain ⟨hObserver, hMain, hOthers⟩ := hLast hWorker
    refine ⟨⟨h.crashed, h.signal, fun w hw => ?_⟩, fun _ => ⟨hObserver, hMain, fun w hw => ?_⟩⟩
    · obtain hw | hw := hKept _ (by simp) w hw
      · exact h.wait w hw
      · exact hw
    · obtain rfl | ⟨j, hji, hj⟩ := mem_set_cases hw
      · exact .inl trivial
      · exact hOthers j w hji hj

theorem Safe.of_call {s s' : State} {p : MainPoint} (h : Safe s) (hCall : call s p = some s')
    (hSignal : p ≠ .signal none) (hCreate : p ≠ .createObserver) : Safe s' := by
  obtain ⟨_, rfl⟩ := call_cases hCall
  exact h.of_main rfl rfl rfl (.inl rfl) rfl hSignal hCreate

theorem Safe.step {s s' : State} {a : Action} (h : Safe s) (hInstalled : Installed s)
    (hStep : step s a = some s')
    (hLast : ∀ i, a = .worker i → s.workers[i]? = some .clearSemaphore → LastUser s i) : Safe s' := by
  unfold OCNote.Monitor.step at hStep
  split at hStep
  · cases hStep
  · cases a with
    | beginMonitor | endMonitor => exact h.of_call hStep (by decide) (by decide)
    | callBack activity =>
      simp only at hStep
      split at hStep
      · cases hStep
      · exact h.of_call hStep (by simp) (by simp)
    | main => exact h.mainStep hInstalled hStep
    | worker i => exact h.workerStep hStep (hLast i rfl)
    | timeout i =>
      obtain ⟨_, hWorker, rfl⟩ := timeoutStep_cases hStep
      exact h.of_worker hWorker rfl rfl rfl rfl rfl rfl (by simp) fun _ _ => .inr (.inl rfl)

theorem Safe.initial : Safe initial where
  crashed := rfl
  signal := by decide
  wait w hw := by cases hw
  cleared _ := ⟨rfl, by decide, fun w hw => by cases hw⟩

/-- Only the last user of the semaphore resets it. -/
def LastUserClears (actions : List Action) : Prop :=
  ∀ s s' i, monitor.Takes actions s (.worker i) s' → s.workers[i]? = some .clearSemaphore → LastUser s i

/-- As long as only the last user resets the semaphore, no null semaphore is used. -/
theorem nonNull_of_lastUserClears (actions : List Action) (hClears : LastUserClears actions) :
    ∀ s, monitor.Visits actions s → NonNull s := by
  intro s hVisits
  refine (Machine.visits_induction (P := Safe) Safe.initial ?_ hVisits).toNonNull
  intro t a t' hTakes hSafe
  obtain ⟨_, _, _, _, hStep⟩ := id hTakes
  exact hSafe.step (installed hTakes.visits.reachable) hStep fun i ha => hClears t t' i (ha ▸ hTakes)

end Clearing

section NullUse

/-- Some continuation uses a null semaphore. -/
def CanCrash (s : State) : Prop := ∃ actions t, monitor.runFrom s actions = some t ∧ t.crashed = true

theorem CanCrash.of_step {s s' : State} {a : Action} (hStep : step s a = some s') (h : CanCrash s') :
    CanCrash s := by
  obtain ⟨actions, t, hRun, hCrashed⟩ := h
  refine ⟨a :: actions, t, ?_, hCrashed⟩
  change (step s a).bind _ = _
  rw [hStep]
  exact hRun

variable {s : State} {j : Nat}

theorem workers_workerGoto {w w' : WorkerPoint} (hWorker : s.workers[j]? = some w) :
    (s.workerGoto j w').workers[j]? = some w' :=
  List.getElem?_set_self (List.getElem?_eq_some_iff.mp hWorker).1

theorem step_worker (hCrashed : s.crashed = false) : step s (.worker j) = workerStep s j := by
  simp [step, hCrashed]

theorem canCrash_of_read (hCrashed : s.crashed = false) (hNone : s.dispatchSemaphore = none)
    (hWorker : s.workers[j]? = some .readSemaphore) : CanCrash s := by
  have hRead : step s (.worker j) = some (s.workerGoto j (.wait none)) := by
    simp [step_worker hCrashed, workerStep, hWorker, hNone]
  have hWait : (s.workerGoto j (.wait none)).workers[j]? = some (.wait none) := workers_workerGoto hWorker
  have hUse : step (s.workerGoto j (.wait none)) (.worker j) =
      some { s.workerGoto j (.wait none) with crashed := true } := by
    rw [step_worker (by exact hCrashed), workerStep, hWait]
  exact .of_step hRead (.of_step hUse ⟨[], _, rfl, rfl⟩)

theorem canCrash_of_reset (hCrashed : s.crashed = false) (hNone : s.dispatchSemaphore = none)
    (hWorker : s.workers[j]? = some .resetTimeoutCount) : CanCrash s := by
  have hReset : step s (.worker j) = some ({ s with timeoutCount := 0 }.workerGoto j .readSemaphore) := by
    simp [step_worker hCrashed, workerStep, hWorker]
  exact .of_step hReset (canCrash_of_read hCrashed hNone (workers_workerGoto hWorker))

theorem canCrash_of_testActivity (hCrashed : s.crashed = false) (hNone : s.dispatchSemaphore = none)
    (hWorker : s.workers[j]? = some .testActivity) : CanCrash s := by
  obtain ⟨triggers, hTest⟩ : ∃ triggers, step s (.worker j) =
      some ({ s with triggers := triggers }.workerGoto j .resetTimeoutCount) := by
    rw [step_worker hCrashed, workerStep, hWorker]
    simp only
    split
    · exact ⟨s.triggers + 1, rfl⟩
    · exact ⟨s.triggers, rfl⟩
  exact .of_step hTest (canCrash_of_reset hCrashed hNone (workers_workerGoto hWorker))

/-- A worker that is not quiet comes back to its wait. -/
theorem canCrash_of_not_quiet (hCrashed : s.crashed = false) (hNone : s.dispatchSemaphore = none)
    {w : WorkerPoint} (hWorker : s.workers[j]? = some w) (hNot : ¬ Quiet s w) : CanCrash s := by
  cases w with
  | readSemaphore => exact canCrash_of_read hCrashed hNone hWorker
  | resetTimeoutCount => exact canCrash_of_reset hCrashed hNone hWorker
  | testActivity => exact canCrash_of_testActivity hCrashed hNone hWorker
  | testObserver => exact absurd (.inr (.inl rfl)) hNot
  | clearTimeoutCount | clearSemaphore | clearActivity | returned => exact absurd (.inl trivial) hNot
  | wait semaphore =>
    cases semaphore with
    | none =>
      have hUse : step s (.worker j) = some { s with crashed := true } := by
        rw [step_worker hCrashed, workerStep, hWorker]
      exact .of_step hUse ⟨[], _, rfl, rfl⟩
    | some semaphore =>
      have hPos : 0 < s.semaphores.getD semaphore 0 := by
        by_contra hZero
        exact hNot (.inr (.inr ⟨semaphore, rfl, by omega⟩))
      have hSignalled : step s (.worker j) = some ({ s with
          semaphores := s.semaphores.modify semaphore (· - 1) }.workerGoto j .resetTimeoutCount) := by
        rw [step_worker hCrashed, workerStep, hWorker]
        exact if_pos hPos
      exact .of_step hSignalled (canCrash_of_reset hCrashed hNone (workers_workerGoto hWorker))

/-- With an observer a worker that has not begun to leave comes back to its wait, too. -/
theorem canCrash_of_observer (hCrashed : s.crashed = false) (hNone : s.dispatchSemaphore = none)
    (hObserver : s.runLoopObserver.isSome = true) {w : WorkerPoint} (hWorker : s.workers[j]? = some w)
    (hNot : ¬ w.Leaving) : CanCrash s := by
  have hTest : ∀ t : State, t.crashed = false → t.dispatchSemaphore = none →
      t.runLoopObserver.isSome = true → t.workers[j]? = some .testObserver → CanCrash t := by
    intro t hCrashed hNone hObserver hWorker
    have hSome : step t (.worker j) = some (t.workerGoto j .testActivity) := by
      simp [step_worker hCrashed, workerStep, hWorker, hObserver]
    exact .of_step hSome (canCrash_of_testActivity hCrashed hNone (workers_workerGoto hWorker))
  by_cases hQuiet : Quiet s w
  · obtain hLeaving | rfl | ⟨semaphore, rfl, _⟩ := hQuiet
    · exact absurd hLeaving hNot
    · exact hTest s hCrashed hNone hObserver hWorker
    · have hTimeout : step s (.timeout j) = some (s.workerGoto j .testObserver) := by
        simp [step, hCrashed, timeoutStep, hWorker]
      exact .of_step hTimeout (hTest _ hCrashed hNone hObserver (workers_workerGoto hWorker))
  · exact canCrash_of_not_quiet hCrashed hNone hWorker hQuiet

theorem step_main (hCrashed : s.crashed = false) : step s .main = mainStep s := by
  simp [step, hCrashed]

/-- A `beginMonitor` past its semaphore hands the null one to its worker. -/
theorem canCrash_of_start (hCrashed : s.crashed = false) (hNone : s.dispatchSemaphore = none)
    (hMain : s.main = .createObserver ∨ s.main.Starting) : CanCrash s := by
  have hStart : ∀ t : State, t.crashed = false → t.dispatchSemaphore = none → t.main = .startWorker →
      CanCrash t := by
    intro t hCrashed hNone hMain
    have hWorker : step t .main =
        some ({ t with workers := t.workers ++ [WorkerPoint.readSemaphore] }.goto .idle) := by
      simp [step_main hCrashed, mainStep, hMain, State.goto]
    refine .of_step hWorker (canCrash_of_read (j := t.workers.length) hCrashed hNone ?_)
    simp [State.goto]
  have hAdd : ∀ t : State, t.crashed = false → t.dispatchSemaphore = none → t.main = .addObserver →
      CanCrash t := by
    intro t hCrashed hNone hMain
    have hAdded : step t .main = some ({ t with
        addedObservers := t.addedObservers ++ t.runLoopObserver.toList }.goto .startWorker) := by
      simp [step_main hCrashed, mainStep, hMain, State.goto]
    exact .of_step hAdded (hStart _ hCrashed hNone rfl)
  obtain hMain | hMain | hMain := hMain
  · have hCreate : step s .main = some ({ s with
        runLoopObserver := some s.observers, observers := s.observers + 1 }.goto .addObserver) := by
      simp [step_main hCrashed, mainStep, hMain, State.goto]
    exact .of_step hCreate (hAdd _ hCrashed hNone rfl)
  · exact hAdd s hCrashed hNone hMain
  · exact hStart s hCrashed hNone hMain

/-- As long as there is an observer, the worker that was started for it is in its loop. -/
theorem exists_not_leaving (hReach : monitor.Reachable s) (hObserver : s.runLoopObserver.isSome = true)
    (hMain : ¬ s.main.Starting) : ∃ (j : Nat) (w : WorkerPoint), s.workers[j]? = some w ∧ ¬ w.Leaving := by
  revert hObserver hMain
  refine Machine.invariant (P := fun s => s.runLoopObserver.isSome = true → ¬ s.main.Starting →
    ∃ (j : Nat) (w : WorkerPoint), s.workers[j]? = some w ∧ ¬ w.Leaving) (fun h => by cases h) ?_ hReach
  intro s a s' ih hStep hObserver hMain
  cases step_effect hStep with
  | quiet hWorkers hSame hStarting _ _ _ =>
    rw [hWorkers]
    exact ih (hSame ▸ hObserver) fun hs => hMain (hStarting.mpr hs)
  | create _ _ hMain' => exact absurd (by rw [hMain']; decide) hMain
  | start _ _ _ _ hWorkers =>
    exact ⟨s.workers.length, .readSemaphore, by simp [hWorkers], by simp [WorkerPoint.Leaving]⟩
  | clear _ _ _ hCleared =>
    rw [hCleared] at hObserver
    cases hObserver
  | work i w w' hWorker hWorkers hSame hSameObserver _ _ hLeaving =>
    rw [hSameObserver] at hObserver
    obtain ⟨j, v, hj, hNot⟩ := ih hObserver (hSame ▸ hMain)
    obtain rfl | hji := eq_or_ne j i
    · cases hWorker.symm.trans hj
      refine ⟨j, w', by rw [hWorkers]; exact workers_workerGoto hj, fun hw' => ?_⟩
      obtain hw | hNone := hLeaving hw'
      · exact hNot hw
      · rw [hNone] at hObserver
        cases hObserver
    · exact ⟨j, v, by rw [hWorkers, List.getElem?_set_ne (Ne.symm hji)]; exact hj, hNot⟩
  | leave i _ hWorker hWorkers hSame hSameObserver =>
    obtain ⟨j, v, hj, hNot⟩ := ih (hSameObserver ▸ hObserver) (hSame ▸ hMain)
    obtain rfl | hji := eq_or_ne j i
    · cases hWorker.symm.trans hj
      exact absurd trivial hNot
    · exact ⟨j, v, by rw [hWorkers, List.getElem?_set_ne (Ne.symm hji)]; exact hj, hNot⟩

theorem canCrash_of_not_lastUser {s' : State} {i : Nat} (hReach : monitor.Reachable s)
    (hStep : step s (.worker i) = some s') (hWorker : s.workers[i]? = some .clearSemaphore)
    (hNot : ¬ LastUser s i) : CanCrash s' := by
  have hCrashed : s.crashed = false := by
    by_contra h
    simp [step, h] at hStep
  rw [step_worker hCrashed, workerStep, hWorker] at hStep
  cases hStep
  by_cases hStarting : s.main = .createObserver ∨ s.main.Starting
  · exact canCrash_of_start hCrashed rfl hStarting
  rw [not_or] at hStarting
  cases hObserver : s.runLoopObserver with
  | some o =>
    have hSome : s.runLoopObserver.isSome = true := by rw [hObserver]; rfl
    obtain ⟨j, w, hj, hLeaving⟩ := exists_not_leaving hReach hSome hStarting.2
    have hji : i ≠ j := by
      rintro rfl
      cases hWorker.symm.trans hj
      exact hLeaving trivial
    refine canCrash_of_observer (j := j) hCrashed rfl rfl ?_ hLeaving
    exact (List.getElem?_set_ne hji).trans hj
  | none =>
    obtain ⟨j, w, hji, hj, hQuiet⟩ : ∃ j w, j ≠ i ∧ s.workers[j]? = some w ∧ ¬ Quiet s w := by
      by_contra hAll
      push Not at hAll
      exact hNot ⟨hObserver, hStarting.1, hAll⟩
    refine canCrash_of_not_quiet (j := j) hCrashed rfl ?_ hQuiet
    exact (List.getElem?_set_ne (Ne.symm hji)).trans hj

/-- In a run in which only the last user resets the semaphore, no null semaphore is used.
After a reset by any other worker a null semaphore can be used. -/
theorem nonNull_while_lastUserClears (actions : List Action) :
    (LastUserClears actions → ∀ s, monitor.Visits actions s → NonNull s) ∧
    ∀ s s' i, monitor.Takes actions s (.worker i) s' → s.workers[i]? = some .clearSemaphore →
      ¬ LastUser s i → CanCrash s' := by
  refine ⟨nonNull_of_lastUserClears actions, fun s s' i hTakes hWorker hNot => ?_⟩
  have hReach := hTakes.visits.reachable
  obtain ⟨_, _, _, _, hStep⟩ := hTakes
  exact canCrash_of_not_lastUser hReach hStep hWorker hNot

/-- The first worker leaves after monitoring has begun again. -/
def beginAgain : List Action :=
  [[.beginMonitor], List.replicate 6 .main, [.worker 0, .endMonitor], List.replicate 5 .main,
    [.timeout 0, .worker 0, .beginMonitor], List.replicate 6 .main,
    [.worker 0, .worker 0, .worker 1, .worker 1]].flatten

theorem leaving_worker_resets_new_semaphore :
    ¬ ∀ s, monitor.Reachable s → s.crashed = false := by
  intro hClaim
  have hRun : (monitor.run beginAgain).map State.crashed = some true := by decide +kernel
  obtain ⟨s, hReach, hCrashed⟩ := Option.map_eq_some_iff.mp hRun
  rw [hClaim s ⟨beginAgain, hReach⟩] at hCrashed
  cases hCrashed

end NullUse

end OCNote.Monitor
