import OCNote.Monitor.MBMonitor

/-! # How many workers are alive

A worker learns that the monitoring has ended only from a wait that ran out while
`runLoopObserver` was NULL. A `beginMonitor` that comes before leaves it running next to
the new worker. -/

namespace OCNote.Monitor
open OCNote.Support
set_option autoImplicit false

def alive (s : State) : Nat := s.workers.countP (· ≠ .returned)

/-- The worker has read `runLoopObserver` as NULL. -/
def WorkerPoint.Leaving : WorkerPoint → Prop
  | .clearTimeoutCount | .clearSemaphore | .clearActivity | .returned => True
  | _ => False

def NeverTwoWorkers : Prop := ∀ s, monitor.Reachable s → alive s ≤ 1

/-- Monitoring is ended and started again before the wait of the worker runs out. -/
theorem restart_keeps_the_old_worker : ¬ NeverTwoWorkers := by
  intro hClaim
  let actions : List Action := [[.beginMonitor], List.replicate 6 .main, [.endMonitor],
    List.replicate 5 .main, [.beginMonitor], List.replicate 6 .main].flatten
  have hTwo := hClaim _ (Machine.reachable_after monitor actions rfl)
  have hAlive : alive (monitor.after actions rfl) = 2 := rfl
  omega

/-- Whether a worker has returned since `endMonitor` last cleared `runLoopObserver`. Before
the first worker there is nothing to wait for. -/
def returnedSinceEnd (returned : Bool) (s : State) (a : Action) (_ : State) : Bool :=
  match a with
  | .main => if s.main = .clearObserver then false else returned
  | .worker i => if s.workers[i]? = some .clearActivity then true else returned
  | _ => returned

def observed : Machine (State × Bool) Action := monitor.withHistory true returnedSinceEnd

def MainPoint.Starting (p : MainPoint) : Prop := p = .addObserver ∨ p = .startWorker

def MainPoint.Creating (p : MainPoint) : Prop := p = .createSemaphore ∨ p = .createObserver

def MainPoint.Ending (p : MainPoint) : Prop :=
  p = .removeObserver ∨ p = .releaseObserver ∨ p = .clearObserver

instance : DecidablePred MainPoint.Starting := fun _ => inferInstanceAs (Decidable (_ ∨ _))

instance : DecidablePred MainPoint.Creating := fun _ => inferInstanceAs (Decidable (_ ∨ _))

instance : DecidablePred MainPoint.Ending := fun _ => inferInstanceAs (Decidable (_ ∨ _))

/-- What a step does to the observer and to the workers. -/
inductive Effect (s : State) (a : Action) (s' : State) : Prop
  | quiet (hWorkers : s'.workers = s.workers) (hObserver : s'.runLoopObserver = s.runLoopObserver)
      (hStarting : s'.main.Starting ↔ s.main.Starting)
      (hCreating : s'.main.Creating → s.main.Creating ∨ s.runLoopObserver = none)
      (hEnding : s'.main.Ending → s.main.Ending ∨ s.runLoopObserver.isSome = true)
      (hNote : ∀ returned, returnedSinceEnd returned s a s' = returned)
  | create (hAction : a = .main) (hMain : s.main = .createObserver) (hMain' : s'.main = .addObserver)
      (hObserver : s'.runLoopObserver.isSome = true) (hWorkers : s'.workers = s.workers)
  | start (hAction : a = .main) (hMain : s.main = .startWorker) (hMain' : s'.main = .idle)
      (hObserver : s'.runLoopObserver = s.runLoopObserver)
      (hWorkers : s'.workers = s.workers ++ [.readSemaphore])
  | clear (hAction : a = .main) (hMain : s.main = .clearObserver) (hMain' : s'.main = .idle)
      (hObserver : s'.runLoopObserver = none) (hWorkers : s'.workers = s.workers)
  | work (i : Nat) (w w' : WorkerPoint) (hWorker : s.workers[i]? = some w)
      (hWorkers : s'.workers = s.workers.set i w') (hMain : s'.main = s.main)
      (hObserver : s'.runLoopObserver = s.runLoopObserver) (hAlive : w ≠ .returned) (hAlive' : w' ≠ .returned)
      (hLeaving : w'.Leaving → w.Leaving ∨ s.runLoopObserver = none)
      (hNote : ∀ returned, returnedSinceEnd returned s a s' = returned)
  | leave (i : Nat) (hAction : a = .worker i) (hWorker : s.workers[i]? = some .clearActivity)
      (hWorkers : s'.workers = s.workers.set i .returned) (hMain : s'.main = s.main)
      (hObserver : s'.runLoopObserver = s.runLoopObserver)

theorem call_cases {s s' : State} {p : MainPoint} (h : call s p = some s') :
    s.main = .idle ∧ s' = s.goto p := by
  unfold call at h
  split at h
  · rename_i hIdle
    exact ⟨hIdle, (Option.some.inj h).symm⟩
  · cases h

/-- What one step of the main thread can do. -/
inductive MainMove (s : State) : State → Prop
  | scheduleTimer (hMain : s.main = .scheduleTimer) :
      MainMove s ({ s with
        cpuMonitorTimer := some s.timers
        validTimers := s.validTimers ++ [s.timers]
        timers := s.timers + 1 }.goto .testRunning)
  | testRunning (hMain : s.main = .testRunning) :
      MainMove s (s.goto (if s.runLoopObserver.isSome then .idle else .createSemaphore))
  | createSemaphore (hMain : s.main = .createSemaphore) :
      MainMove s ({ s with
        dispatchSemaphore := some s.semaphores.length
        semaphores := s.semaphores ++ [0] }.goto .createObserver)
  | createObserver (hMain : s.main = .createObserver) :
      MainMove s ({ s with
        runLoopObserver := some s.observers
        observers := s.observers + 1 }.goto .addObserver)
  | addObserver (hMain : s.main = .addObserver) :
      MainMove s ({ s with
        addedObservers := s.addedObservers ++ s.runLoopObserver.toList }.goto .startWorker)
  | startWorker (hMain : s.main = .startWorker) :
      MainMove s ({ s with workers := s.workers ++ [WorkerPoint.readSemaphore] }.goto .idle)
  | invalidateTimer (hMain : s.main = .invalidateTimer) :
      MainMove s ({ s with
        validTimers := s.validTimers.filter fun timer => s.cpuMonitorTimer ≠ some timer }.goto .testStopped)
  | testStopped (hMain : s.main = .testStopped) :
      MainMove s (s.goto (if s.runLoopObserver.isSome then .removeObserver else .idle))
  | removeObserver (hMain : s.main = .removeObserver) :
      MainMove s ({ s with
        addedObservers := s.addedObservers.filter fun observer => s.runLoopObserver ≠ some observer }.goto
          .releaseObserver)
  | releaseObserver (hMain : s.main = .releaseObserver) : MainMove s (s.goto .clearObserver)
  | clearObserver (hMain : s.main = .clearObserver) :
      MainMove s ({ s with runLoopObserver := none }.goto .idle)
  | storeActivity {activity : Nat} (hMain : s.main = .storeActivity activity) :
      MainMove s ({ s with runLoopActivity := activity }.goto .readSemaphore)
  | readSemaphore (hMain : s.main = .readSemaphore) : MainMove s (s.goto (.signal s.dispatchSemaphore))
  | crash (hMain : s.main = .signal none) : MainMove s { s with crashed := true }
  | signal {semaphore : Nat} (hMain : s.main = .signal (some semaphore)) :
      MainMove s ({ s with semaphores := s.semaphores.modify semaphore (· + 1) }.goto .idle)

theorem mainStep_cases {s s' : State} (h : mainStep s = some s') : MainMove s s' := by
  unfold mainStep at h
  split at h
  · cases h
  · exact Option.some.inj h ▸ .scheduleTimer ‹_›
  · exact Option.some.inj h ▸ .testRunning ‹_›
  · exact Option.some.inj h ▸ .createSemaphore ‹_›
  · exact Option.some.inj h ▸ .createObserver ‹_›
  · exact Option.some.inj h ▸ .addObserver ‹_›
  · exact Option.some.inj h ▸ .startWorker ‹_›
  · exact Option.some.inj h ▸ .invalidateTimer ‹_›
  · exact Option.some.inj h ▸ .testStopped ‹_›
  · exact Option.some.inj h ▸ .removeObserver ‹_›
  · exact Option.some.inj h ▸ .releaseObserver ‹_›
  · exact Option.some.inj h ▸ .clearObserver ‹_›
  · exact Option.some.inj h ▸ .storeActivity ‹_›
  · exact Option.some.inj h ▸ .readSemaphore ‹_›
  · exact Option.some.inj h ▸ .crash ‹_›
  · exact Option.some.inj h ▸ .signal ‹_›

/-- What one step of worker `i` can do. -/
inductive WorkerMove (s : State) (i : Nat) : State → Prop
  | read (hWorker : s.workers[i]? = some .readSemaphore) :
      WorkerMove s i (s.workerGoto i (.wait s.dispatchSemaphore))
  | crash (hWorker : s.workers[i]? = some (.wait none)) : WorkerMove s i { s with crashed := true }
  | signalled {semaphore : Nat} (hWorker : s.workers[i]? = some (.wait (some semaphore)))
      (hPos : 0 < s.semaphores.getD semaphore 0) :
      WorkerMove s i ({ s with semaphores := s.semaphores.modify semaphore (· - 1) }.workerGoto i
        .resetTimeoutCount)
  | testNull (hWorker : s.workers[i]? = some .testObserver) (hNone : s.runLoopObserver = none) :
      WorkerMove s i (s.workerGoto i .clearTimeoutCount)
  | testSome (hWorker : s.workers[i]? = some .testObserver) (hSome : s.runLoopObserver.isSome = true) :
      WorkerMove s i (s.workerGoto i .testActivity)
  | clearTimeoutCount (hWorker : s.workers[i]? = some .clearTimeoutCount) :
      WorkerMove s i ({ s with timeoutCount := 0 }.workerGoto i .clearSemaphore)
  | clearSemaphore (hWorker : s.workers[i]? = some .clearSemaphore) :
      WorkerMove s i ({ s with dispatchSemaphore := none }.workerGoto i .clearActivity)
  | clearActivity (hWorker : s.workers[i]? = some .clearActivity) :
      WorkerMove s i ({ s with runLoopActivity := 0 }.workerGoto i .returned)
  | testActivity (hWorker : s.workers[i]? = some .testActivity) (triggers : Nat) :
      WorkerMove s i ({ s with triggers := triggers }.workerGoto i .resetTimeoutCount)
  | resetTimeoutCount (hWorker : s.workers[i]? = some .resetTimeoutCount) :
      WorkerMove s i ({ s with timeoutCount := 0 }.workerGoto i .readSemaphore)

theorem workerStep_cases {s s' : State} {i : Nat} (h : workerStep s i = some s') : WorkerMove s i s' := by
  unfold workerStep at h
  cases hWorker : s.workers[i]? with
  | none => simp [hWorker] at h
  | some w =>
    simp only [hWorker] at h
    cases w with
    | returned => cases h
    | readSemaphore => exact Option.some.inj h ▸ .read hWorker
    | wait semaphore =>
      cases semaphore with
      | none => exact Option.some.inj h ▸ .crash hWorker
      | some semaphore =>
        simp only at h
        split at h
        · rename_i hPos
          exact Option.some.inj h ▸ .signalled hWorker hPos
        · cases h
    | testObserver =>
      cases hObserver : s.runLoopObserver with
      | none =>
        simp only [hObserver, Option.isSome_none, Bool.false_eq_true, if_false, Option.some.injEq] at h
        exact h ▸ .testNull hWorker hObserver
      | some observer =>
        simp only [hObserver, Option.isSome_some, if_true, Option.some.injEq] at h
        exact h ▸ .testSome hWorker (by rw [hObserver]; rfl)
    | clearTimeoutCount => exact Option.some.inj h ▸ .clearTimeoutCount hWorker
    | clearSemaphore => exact Option.some.inj h ▸ .clearSemaphore hWorker
    | clearActivity => exact Option.some.inj h ▸ .clearActivity hWorker
    | testActivity =>
      simp only at h
      split at h
      · exact Option.some.inj h ▸ .testActivity hWorker (s.triggers + 1)
      · exact Option.some.inj h ▸ .testActivity hWorker s.triggers
    | resetTimeoutCount => exact Option.some.inj h ▸ .resetTimeoutCount hWorker

theorem timeoutStep_cases {s s' : State} {i : Nat} (h : timeoutStep s i = some s') :
    ∃ semaphore, s.workers[i]? = some (.wait (some semaphore)) ∧ s' = s.workerGoto i .testObserver := by
  unfold timeoutStep at h
  split at h
  · rename_i semaphore hWorker
    exact ⟨semaphore, hWorker, (Option.some.inj h).symm⟩
  · cases h

theorem Effect.of_call {s s' : State} {a : Action} {p : MainPoint} (h : call s p = some s')
    (hp : ¬ p.Starting ∧ ¬ p.Creating ∧ ¬ p.Ending)
    (hNote : ∀ returned, returnedSinceEnd returned s a s' = returned) : Effect s a s' := by
  obtain ⟨hIdle, rfl⟩ := call_cases h
  refine .quiet rfl rfl ?_ (fun h => absurd h hp.2.1) (fun h => absurd h hp.2.2) hNote
  exact iff_of_false hp.1 (by rw [hIdle]; decide)

theorem Effect.of_test {s : State} {p q : MainPoint} (hMain : ¬ s.main.Starting)
    (hp : ¬ p.Starting ∧ ¬ p.Creating) (hq : ¬ q.Starting ∧ ¬ q.Ending)
    (hNote : s.main ≠ .clearObserver) :
    Effect s .main (s.goto (if s.runLoopObserver.isSome then p else q)) := by
  cases hObserver : s.runLoopObserver with
  | none =>
    exact .quiet rfl rfl (iff_of_false hq.1 hMain) (fun _ => .inr hObserver) (fun h => absurd h hq.2)
      fun _ => if_neg hNote
  | some observer =>
    exact .quiet rfl rfl (iff_of_false hp.1 hMain) (fun h => absurd h hp.2)
      (fun _ => .inr (by rw [hObserver]; rfl)) fun _ => if_neg hNote

theorem mainStep_effect {s s' : State} (h : mainStep s = some s') : Effect s .main s' := by
  cases mainStep_cases h with
  | createObserver hMain => exact .create rfl hMain rfl rfl rfl
  | startWorker hMain => exact .start rfl hMain rfl rfl rfl
  | clearObserver hMain => exact .clear rfl hMain rfl rfl rfl
  | testRunning hMain | testStopped hMain =>
    exact .of_test (by rw [hMain]; decide) (by decide) (by decide) (by rw [hMain]; decide)
  | crash hMain => exact .quiet rfl rfl Iff.rfl .inl .inl fun _ => if_neg (by simp [hMain])
  | scheduleTimer hMain | createSemaphore hMain | addObserver hMain | invalidateTimer hMain
  | removeObserver hMain | releaseObserver hMain | storeActivity hMain | readSemaphore hMain | signal hMain =>
    exact .quiet rfl rfl (by simp [State.goto, hMain, MainPoint.Starting])
      (fun h => by simp [State.goto, hMain, MainPoint.Creating] at h ⊢)
      (fun h => by simp [State.goto, hMain, MainPoint.Ending] at h ⊢) fun _ => if_neg (by simp [hMain])

theorem Effect.of_worker {s s' : State} {a : Action} {i : Nat} {w w' : WorkerPoint}
    (hWorker : s.workers[i]? = some w) (hAction : a = .worker i ∨ a = .timeout i)
    (hWorkers : s'.workers = s.workers.set i w') (hMain : s'.main = s.main)
    (hObserver : s'.runLoopObserver = s.runLoopObserver) (hLeave : w ≠ .clearActivity)
    (hAlive : w ≠ .returned) (hAlive' : w' ≠ .returned)
    (hLeaving : w'.Leaving → w.Leaving ∨ s.runLoopObserver = none) : Effect s a s' := by
  refine .work i w w' hWorker hWorkers hMain hObserver hAlive hAlive' hLeaving fun returned => ?_
  obtain rfl | rfl := hAction
  · exact if_neg fun h => hLeave (Option.some.inj (hWorker.symm.trans h))
  · rfl

theorem workerStep_effect {s s' : State} {i : Nat} (h : workerStep s i = some s') :
    Effect s (.worker i) s' := by
  cases workerStep_cases h with
  | crash hWorker => exact .quiet rfl rfl Iff.rfl .inl .inl fun _ => if_neg (by simp [hWorker])
  | clearActivity hWorker => exact .leave i rfl hWorker rfl rfl rfl
  | testNull hWorker hNone =>
    exact .of_worker hWorker (.inl rfl) rfl rfl rfl (by simp) (by simp) (by simp) fun _ => .inr hNone
  | read hWorker | signalled hWorker _ | testSome hWorker _ | testActivity hWorker _
  | resetTimeoutCount hWorker =>
    exact .of_worker hWorker (.inl rfl) rfl rfl rfl (by simp) (by simp) (by simp) False.elim
  | clearTimeoutCount hWorker | clearSemaphore hWorker =>
    exact .of_worker hWorker (.inl rfl) rfl rfl rfl (by simp) (by simp) (by simp) .inl

theorem step_effect {s s' : State} {a : Action} (h : step s a = some s') : Effect s a s' := by
  unfold step at h
  split at h
  · cases h
  · cases a with
    | beginMonitor | endMonitor => exact .of_call h (by decide) fun _ => rfl
    | callBack activity =>
      simp only at h
      split at h
      · cases h
      · exact .of_call h (by simp [MainPoint.Starting, MainPoint.Creating, MainPoint.Ending]) fun _ => rfl
    | main => exact mainStep_effect h
    | worker i => exact workerStep_effect h
    | timeout i =>
      obtain ⟨_, hWorker, rfl⟩ := timeoutStep_cases h
      exact .of_worker hWorker (.inr rfl) rfl rfl rfl (by simp) (by simp) (by simp) False.elim

/-- While there has been one worker at a time: with an observer the worker is in its loop;
otherwise it is alive until it has returned, and only then. -/
structure OneWorker (p : State × Bool) : Prop where
  starting : p.1.main.Starting → p.1.runLoopObserver.isSome = true
  creating : p.1.main.Creating → p.1.runLoopObserver = none
  ending : p.1.main.Ending → p.1.runLoopObserver.isSome = true
  looping : p.1.runLoopObserver.isSome = true → ¬ p.1.main.Starting →
    alive p.1 = 1 ∧ ∀ w ∈ p.1.workers, w.Leaving → w = .returned
  between : p.1.runLoopObserver = none ∨ p.1.main.Starting → alive p.1 = if p.2 then 0 else 1

theorem alive_set {s s' : State} {i : Nat} {w w' : WorkerPoint} (hWorker : s.workers[i]? = some w)
    (hWorkers : s'.workers = s.workers.set i w') (hAlive : w ≠ .returned) :
    alive s' + 1 = alive s + if w' = .returned then 0 else 1 := by
  obtain ⟨hi, hGet⟩ := List.getElem?_eq_some_iff.mp hWorker
  have hPos : 0 < alive s :=
    List.countP_pos_iff.mpr ⟨w, List.mem_of_getElem? hWorker, by simpa using hAlive⟩
  have hSet : alive s' = alive s - 1 + if w' = .returned then 0 else 1 := by
    rw [alive, hWorkers, List.countP_set hi, hGet, if_pos (by simpa using hAlive)]
    by_cases hw' : w' = .returned
    · simp [hw', alive]
    · simp [hw', alive]
  omega

namespace OneWorker

variable {p p' : State × Bool}

theorem quiet (h : OneWorker p) (hWorkers : p'.1.workers = p.1.workers)
    (hObserver : p'.1.runLoopObserver = p.1.runLoopObserver)
    (hStarting : p'.1.main.Starting ↔ p.1.main.Starting)
    (hCreating : p'.1.main.Creating → p.1.main.Creating ∨ p.1.runLoopObserver = none)
    (hEnding : p'.1.main.Ending → p.1.main.Ending ∨ p.1.runLoopObserver.isSome = true)
    (hFlag : p'.2 = p.2) : OneWorker p' where
  starting hs := by
    rw [hObserver]
    exact h.starting (hStarting.mp hs)
  creating hc := by
    rw [hObserver]
    obtain hc | hNone := hCreating hc
    · exact h.creating hc
    · exact hNone
  ending he := by
    rw [hObserver]
    obtain he | hSome := hEnding he
    · exact h.ending he
    · exact hSome
  looping hSome hNot := by
    rw [hObserver] at hSome
    rw [alive, hWorkers]
    exact h.looping hSome fun hs => hNot (hStarting.mpr hs)
  between hEither := by
    rw [hObserver, hStarting] at hEither
    rw [alive, hWorkers, hFlag]
    exact h.between hEither

theorem create (h : OneWorker p) (hMain : p.1.main = .createObserver) (hMain' : p'.1.main = .addObserver)
    (hObserver : p'.1.runLoopObserver.isSome = true) (hWorkers : p'.1.workers = p.1.workers)
    (hFlag : p'.2 = p.2) : OneWorker p' where
  starting _ := hObserver
  creating hc := absurd hc (by rw [hMain']; decide)
  ending he := absurd he (by rw [hMain']; decide)
  looping _ hNot := absurd (by rw [hMain']; decide) hNot
  between _ := by
    rw [alive, hWorkers, hFlag]
    exact h.between (.inl (h.creating (by rw [hMain]; decide)))

theorem start (h : OneWorker p) (hMain : p.1.main = .startWorker) (hMain' : p'.1.main = .idle)
    (hObserver : p'.1.runLoopObserver = p.1.runLoopObserver)
    (hWorkers : p'.1.workers = p.1.workers ++ [.readSemaphore]) (hReturned : p.2 = true) :
    OneWorker p' := by
  have hStarting : p.1.main.Starting := by rw [hMain]; decide
  have hNone := h.between (.inr hStarting)
  rw [hReturned, if_pos rfl] at hNone
  have hSome : p'.1.runLoopObserver.isSome = true := by rw [hObserver]; exact h.starting hStarting
  refine ⟨fun _ => hSome, fun hc => ?_, fun _ => hSome, fun _ _ => ⟨?_, fun w hw hLeaving => ?_⟩,
    fun hEither => ?_⟩
  · exact absurd hc (by rw [hMain']; decide)
  · rw [alive, hWorkers, List.countP_append]
    change alive p.1 + 1 = 1
    rw [hNone]
  · rw [hWorkers] at hw
    obtain hOld | hNew := List.mem_append.mp hw
    · by_contra hAlive
      have hPos : 0 < alive p.1 := List.countP_pos_iff.mpr ⟨w, hOld, by simpa using hAlive⟩
      omega
    · rw [List.mem_singleton.mp hNew] at hLeaving
      exact hLeaving.elim
  · obtain hNil | hs := hEither
    · rw [hNil] at hSome
      cases hSome
    · exact absurd hs (by rw [hMain']; decide)

theorem clear (h : OneWorker p) (hMain : p.1.main = .clearObserver) (hMain' : p'.1.main = .idle)
    (hObserver : p'.1.runLoopObserver = none) (hWorkers : p'.1.workers = p.1.workers)
    (hFlag : p'.2 = false) : OneWorker p' where
  starting hs := absurd hs (by rw [hMain']; decide)
  creating _ := hObserver
  ending he := absurd he (by rw [hMain']; decide)
  looping hSome _ := by
    rw [hObserver] at hSome
    cases hSome
  between _ := by
    have hSome := h.ending (by rw [hMain]; decide)
    rw [alive, hWorkers, hFlag]
    exact (h.looping hSome (by rw [hMain]; decide)).1

theorem of_main (h : OneWorker p) (hMain : p'.1.main = p.1.main)
    (hObserver : p'.1.runLoopObserver = p.1.runLoopObserver)
    (hLooping : p.1.runLoopObserver.isSome = true → ¬ p.1.main.Starting →
      alive p'.1 = 1 ∧ ∀ w ∈ p'.1.workers, w.Leaving → w = .returned)
    (hBetween : p.1.runLoopObserver = none ∨ p.1.main.Starting → alive p'.1 = if p'.2 then 0 else 1) :
    OneWorker p' := by
  constructor <;> rw [hMain, hObserver]
  · exact h.starting
  · exact h.creating
  · exact h.ending
  · exact hLooping
  · exact hBetween

theorem work (h : OneWorker p) {i : Nat} {w w' : WorkerPoint} (hWorker : p.1.workers[i]? = some w)
    (hWorkers : p'.1.workers = p.1.workers.set i w') (hMain : p'.1.main = p.1.main)
    (hObserver : p'.1.runLoopObserver = p.1.runLoopObserver) (hAlive : w ≠ .returned)
    (hAlive' : w' ≠ .returned) (hLeaving : w'.Leaving → w.Leaving ∨ p.1.runLoopObserver = none)
    (hFlag : p'.2 = p.2) : OneWorker p' := by
  have hCount := alive_set hWorker hWorkers hAlive
  rw [if_neg hAlive'] at hCount
  have hSame : alive p'.1 = alive p.1 := by omega
  refine h.of_main hMain hObserver (fun hSome hNot => ?_) fun hOutside => ?_
  · have hLoop := h.looping hSome hNot
    refine ⟨hSame.trans hLoop.1, fun v hv hvLeaving => ?_⟩
    rw [hWorkers] at hv
    obtain hOld | rfl := List.mem_or_eq_of_mem_set hv
    · exact hLoop.2 v hOld hvLeaving
    · obtain hw | hNone := hLeaving hvLeaving
      · exact absurd (hLoop.2 w (List.mem_of_getElem? hWorker) hw) hAlive
      · rw [hNone] at hSome
        cases hSome
  · rw [hSame, hFlag]
    exact h.between hOutside

theorem leave (h : OneWorker p) {i : Nat} (hWorker : p.1.workers[i]? = some .clearActivity)
    (hWorkers : p'.1.workers = p.1.workers.set i .returned) (hMain : p'.1.main = p.1.main)
    (hObserver : p'.1.runLoopObserver = p.1.runLoopObserver) (hFlag : p'.2 = true) : OneWorker p' := by
  have hCount := alive_set hWorker hWorkers (by simp)
  rw [if_pos rfl] at hCount
  have hOutside : p.1.runLoopObserver = none ∨ p.1.main.Starting := by
    by_contra hInside
    rw [not_or, ← ne_eq, Option.ne_none_iff_isSome] at hInside
    have hLoop := (h.looping hInside.1 hInside.2).2 .clearActivity (List.mem_of_getElem? hWorker) trivial
    cases hLoop
  have hBefore := h.between hOutside
  refine h.of_main hMain hObserver (fun hSome hNot => ?_) fun _ => ?_
  · obtain hNone | hs := hOutside
    · rw [hNone] at hSome
      cases hSome
    · exact absurd hs hNot
  · rw [hFlag, if_pos rfl]
    split at hBefore <;> omega

theorem alive_le_one (h : OneWorker p) : alive p.1 ≤ 1 := by
  by_cases hOutside : p.1.runLoopObserver = none ∨ p.1.main.Starting
  · rw [h.between hOutside]
    split <;> decide
  · rw [not_or, ← ne_eq, Option.ne_none_iff_isSome] at hOutside
    exact Nat.le_of_eq (h.looping hOutside.1 hOutside.2).1

theorem step {a : Action} (h : OneWorker p) (hStep : observed.step p a = some p')
    (hStart : a = .main → p.1.main = .startWorker → p.2 = true) : OneWorker p' := by
  obtain ⟨hStep, hFlag⟩ := Machine.withHistory_step.mp hStep
  cases step_effect hStep with
  | quiet hWorkers hObserver hStarting hCreating hEnding hNote =>
    exact h.quiet hWorkers hObserver hStarting hCreating hEnding (by rw [hFlag, hNote])
  | create hAction hMain hMain' hObserver hWorkers =>
    subst hAction
    exact h.create hMain hMain' hObserver hWorkers (by rw [hFlag]; exact if_neg (by simp [hMain]))
  | start hAction hMain hMain' hObserver hWorkers =>
    exact h.start hMain hMain' hObserver hWorkers (hStart hAction hMain)
  | clear hAction hMain hMain' hObserver hWorkers =>
    subst hAction
    exact h.clear hMain hMain' hObserver hWorkers (by rw [hFlag]; exact if_pos hMain)
  | work i w w' hWorker hWorkers hMain hObserver hAlive hAlive' hLeaving hNote =>
    exact h.work hWorker hWorkers hMain hObserver hAlive hAlive' hLeaving (by rw [hFlag, hNote])
  | leave i hAction hWorker hWorkers hMain hObserver =>
    subst hAction
    exact h.leave hWorker hWorkers hMain hObserver (by rw [hFlag]; exact if_pos hWorker)

theorem two_of_early_start (h : OneWorker p) (hStep : observed.step p .main = some p')
    (hMain : p.1.main = .startWorker) (hFlag : p.2 = false) : alive p'.1 = 2 := by
  have hOne := h.between (.inr (by rw [hMain]; decide))
  rw [hFlag] at hOne
  obtain ⟨hStep, _⟩ := Machine.withHistory_step.mp hStep
  cases hCrashed : p.1.crashed with
  | true => simp [monitor, OCNote.Monitor.step, hCrashed] at hStep
  | false =>
    simp only [monitor, OCNote.Monitor.step, hCrashed, Bool.false_eq_true, if_false, mainStep, hMain,
      Option.some.injEq] at hStep
    rw [← hStep, alive, State.goto, List.countP_append]
    change alive p.1 + 1 = 2
    rw [hOne]
    rfl

theorem initial : OneWorker observed.start where
  starting h := absurd h (by decide)
  creating _ := rfl
  ending h := absurd h (by decide)
  looping h := by cases h
  between _ := rfl

end OneWorker

/-- Every worker but the first is handed out after a worker has returned since `endMonitor`
cleared the observer. -/
def RestartsAfterReturn (actions : List Action) : Prop :=
  ∀ p p', observed.Takes actions p .main p' → p.1.main = .startWorker → p.2 = true

theorem oneWorker_of_visits {actions : List Action} (hStart : ∀ p p', observed.Takes actions p .main p' →
    OneWorker p → p.1.main = .startWorker → p.2 = true) {p : State × Bool}
    (hVisits : observed.Visits actions p) : OneWorker p := by
  refine Machine.visits_induction OneWorker.initial ?_ hVisits
  intro p a p' hTakes h
  obtain ⟨_, _, _, _, hStep⟩ := id hTakes
  exact h.step hStep fun ha => hStart p p' (ha ▸ hTakes) h

theorem OneWorker.returned_before_start {actions : List Action} {p p' : State × Bool} (h : OneWorker p)
    (hOne : ∀ s, monitor.Visits actions s → alive s ≤ 1) (hTakes : observed.Takes actions p .main p')
    (hMain : p.1.main = .startWorker) : p.2 = true := by
  by_contra hNot
  rw [Bool.not_eq_true] at hNot
  obtain ⟨_, _, _, _, hStep⟩ := id hTakes
  have hTwo := h.two_of_early_start hStep hMain hNot
  have hVisits : monitor.Visits actions p'.1 :=
    (Machine.withHistory_visits true returnedSinceEnd).mpr ⟨p', hTakes.visits_after, rfl⟩
  have hLe := hOne p'.1 hVisits
  omega

/-- At most one worker is alive all along a run exactly if each `beginMonitor` of the run
that starts a worker again does so after the last worker has noticed the end. -/
theorem one_worker_iff_restartsAfterReturn (actions : List Action) :
    (∀ s, monitor.Visits actions s → alive s ≤ 1) ↔ RestartsAfterReturn actions := by
  constructor
  · intro hOne p p' hTakes hMain
    have h : OneWorker p := oneWorker_of_visits
      (fun _ _ hTakes h hMain => h.returned_before_start hOne hTakes hMain) hTakes.visits
    exact h.returned_before_start hOne hTakes hMain
  · intro hRestarts s hVisits
    obtain ⟨p, hObserved, hState⟩ :=
      (Machine.withHistory_visits true returnedSinceEnd).mp hVisits
    have h : OneWorker p := oneWorker_of_visits (fun p p' hTakes _ => hRestarts p p' hTakes) hObserved
    rw [← hState]
    exact h.alive_le_one

end OCNote.Monitor
