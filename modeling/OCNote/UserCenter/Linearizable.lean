import OCNote.UserCenter.Refinement

/-! # What objectForKey: returns

Every `objectForKey:` returns what the atomic dictionary answers at the point of its
submission, and the queue can always bring it to its return. -/

namespace OCNote.UserCenter
open OCNote.Support
set_option autoImplicit false

universe u v w

variable {ι : Type w} {κ : Type u} {ο : Type v} [DecidableEq κ] [DecidableEq ι]

def Action.onQueue : Action ι κ ο → Bool
  | .start _ | .access _ | .finish _ => true
  | .objectForKey _ _ | .setObject _ _ _ | .returns _ => false

/-- The queue gets from `s` to `s'` with no step of a client. -/
def QueueRun (s s' : State ι κ ο) : Prop :=
  ∃ actions, (∀ a ∈ actions, a.onQueue = true) ∧ (userCenter ι κ ο).runFrom s actions = some s'

/-- One step of the queue. -/
def QueueStep (s s' : State ι κ ο) : Prop := ∃ a : Action ι κ ο, a.onQueue = true ∧ step s a = some s'

theorem QueueRun.of_steps {s s' : State ι κ ο} (h : Relation.ReflTransGen QueueStep s s') : QueueRun s s' := by
  induction h with
  | refl => exact ⟨[], by simp, rfl⟩
  | tail _ hStep ih =>
    obtain ⟨actions, hQueue, hRun⟩ := ih
    obtain ⟨a, ha, hStep⟩ := hStep
    refine ⟨actions ++ [a], fun b hb => ?_, ?_⟩
    · obtain hb | hb := List.mem_append.mp hb
      · exact hQueue b hb
      · rw [List.mem_singleton.mp hb]
        exact ha
    · rw [Machine.runFrom_append, hRun]
      change (step _ a).bind _ = _
      rw [hStep]
      rfl

theorem queueStep_drives : Drives (fun s : State ι κ ο => s.concurrent_queue) Block.accessed QueueStep where
  start {s n q} hStart := ⟨{ s with concurrent_queue := q }, ⟨.start n, rfl, by simp [step, hStart]⟩, rfl⟩
  work {s n job} hJob hRunning hAccessed := by
    obtain ⟨q, hWork⟩ := BarrierQueue.exists_work hJob hRunning (Block.access s.userCenterDic)
    obtain ⟨job', hJob', _, hJobs⟩ := BarrierQueue.work_eq_some hWork
    cases hJob.symm.trans hJob'
    refine ⟨{ s with
      concurrent_queue := q
      userCenterDic := job.body.operation.apply s.userCenterDic }, _, ⟨.access n, rfl, ?_⟩,
      Block.access_accessed s.userCenterDic job.body, hJobs⟩
    simp [step, access, hJob, hAccessed, hWork]
  finish {s n q job} hJob hAccessed hFinish :=
    ⟨{ s with concurrent_queue := q }, ⟨.finish n, rfl, by simp [step, finish, hJob, hAccessed, hFinish]⟩, rfl⟩

structure Later (s s' : State ι κ ο) : Prop where
  reading : s'.reading = s.reading
  length : s'.concurrent_queue.jobs.length = s.concurrent_queue.jobs.length
  finished : ∀ (m : Nat) (a : Job (Block κ ο)), s.concurrent_queue.jobs[m]? = some a →
    a.phase = .finished → ∃ b : Job (Block κ ο), s'.concurrent_queue.jobs[m]? = some b ∧
      b.phase = .finished

omit [DecidableEq κ] [DecidableEq ι] in
theorem Later.of_set {s s' : State ι κ ο} (hReading : s'.reading = s.reading) {n : Nat}
    {job job' : Job (Block κ ο)}
    (hJob : s.concurrent_queue.jobs[n]? = some job) (hPhase : job.phase ≠ .finished)
    (hJobs : s'.concurrent_queue.jobs = s.concurrent_queue.jobs.set n job') : Later s s' where
  reading := hReading
  length := by rw [hJobs, List.length_set]
  finished m a ha hFinished := by
    have hmn : n ≠ m := by
      rintro rfl
      rw [hJob] at ha
      cases ha
      exact hPhase hFinished
    exact ⟨a, by rw [hJobs, List.getElem?_set_ne hmn, ha], hFinished⟩

theorem later_of_step {s s' : State ι κ ο} {a : Action ι κ ο} (ha : a.onQueue = true)
    (hStep : step s a = some s') : Later s s' := by
  cases a with
  | objectForKey | setObject | returns => cases ha
  | start n =>
    obtain ⟨queue, hStart, rfl⟩ := Option.map_eq_some_iff.mp hStep
    obtain ⟨job, hJob, hWaiting, _, hQueue⟩ := BarrierQueue.start_eq_some hStart
    exact .of_set rfl hJob (by simp [hWaiting]) hQueue
  | access n =>
    obtain ⟨job, queue, hJob, hRunning, _, hQueue, rfl⟩ := access_cases hStep
    exact .of_set rfl hJob (by simp [hRunning]) hQueue
  | finish n =>
    obtain ⟨job, queue, hJob, hRunning, _, hQueue, rfl⟩ := finish_cases hStep
    exact .of_set rfl hJob (by simp [hRunning]) hQueue

theorem QueueRun.later {s s' : State ι κ ο} (h : QueueRun s s') : Later s s' := by
  obtain ⟨actions, hQueue, hRun⟩ := h
  induction actions generalizing s with
  | nil =>
    cases hRun
    exact ⟨rfl, rfl, fun _ a ha hFinished => ⟨a, ha, hFinished⟩⟩
  | cons a actions ih =>
    obtain ⟨t, hStep, hRun⟩ := Option.bind_eq_some_iff.mp hRun
    have h₁ := later_of_step (hQueue a List.mem_cons_self) hStep
    have h₂ := ih (fun b hb => hQueue b (List.mem_cons_of_mem a hb)) hRun
    refine ⟨h₂.reading.trans h₁.reading, h₂.length.trans h₁.length, fun m b hb hFinished => ?_⟩
    obtain ⟨c, hc, hFinished⟩ := h₁.finished m b hb hFinished
    exact h₂.finished m c hc hFinished

def Finishes (s : State ι κ ο) (n : Nat) : Prop :=
  ∃ s', QueueRun s s' ∧ ∃ job : Job (Block κ ο), s'.concurrent_queue.jobs[n]? = some job ∧
    job.phase = .finished

theorem submitted_finishes (s : State ι κ ο) {n : Nat} (hn : n < s.concurrent_queue.jobs.length) :
    Finishes s n := by
  obtain ⟨s', hSteps, hLength, hFinished⟩ := queueStep_drives.drains s (n := n + 1) hn
  have hJob := List.getElem?_eq_getElem (hLength ▸ hn)
  exact ⟨s', .of_steps hSteps, _, hJob, hFinished n _ (Nat.lt_succ_self n) hJob⟩

theorem reading_returns {s : State ι κ ο} (h : Refines s) {c : ι} {n : Nat}
    (hReading : s.reading c = some n) :
    ∃ s' s'', QueueRun s s' ∧ step s' (.returns c) = some s'' ∧ s''.reading c = none := by
  obtain ⟨key, hKey⟩ := h.reading c n hReading
  have hn : n < s.concurrent_queue.jobs.length := by
    have hBound := (List.getElem?_eq_some_iff.mp hKey).1
    simpa [operations] using hBound
  obtain ⟨s', hRun, job, hJob, hPhase⟩ := submitted_finishes s hn
  have hStep : step s' (.returns c) = some { s' with
      reading := Function.update s'.reading c none
      returned := s'.returned ++ [⟨c, n, job.body.obj⟩] } := by
    simp only [step, OCNote.UserCenter.returns, hRun.later.reading, hReading, hJob, hPhase, if_true]
  exact ⟨s', _, hRun, hStep, by simp⟩

/-- In submission order the operations are a run of the atomic dictionary whose answers are
the returned objects, each the object of the last earlier write to an equal key. A write
block runs alone, and every waiting reader can be brought to its return. -/
theorem userCenter_is_atomic_dictionary {s : State ι κ ο} (hReach : (userCenter ι κ ο).Reachable s) :
    (∃ events dic, events.map Event.operation = operations s.concurrent_queue.jobs ∧
      (atomicDictionary κ ο).run events = some dic ∧
      ∀ r ∈ s.returned, ∃ key, events[r.block]? = some (.objectForKey key r.obj)) ∧
    (∀ r ∈ s.returned, ∃ key,
      (operations s.concurrent_queue.jobs)[r.block]? = some (.objectForKey key) ∧
        r.obj = lastObject key ((operations s.concurrent_queue.jobs).take r.block)) ∧
    (∀ (m n : Nat) (a b : Job (Block κ ο)), s.concurrent_queue.jobs[m]? = some a →
      s.concurrent_queue.jobs[n]? = some b → a.body.operation.isSet = true → a.phase = .running →
      b.phase = .running → m = n) ∧
    ∀ c n, s.reading c = some n →
      ∃ s' s'', QueueRun s s' ∧ step s' (.returns c) = some s'' ∧ s''.reading c = none := by
  have h := userCenter_refines hReach
  have hReturned : ∀ r ∈ s.returned, ∃ key,
      (operations s.concurrent_queue.jobs)[r.block]? = some (.objectForKey key) ∧
        r.obj = contents ((operations s.concurrent_queue.jobs).take r.block) key := by
    intro r hr
    obtain ⟨job, key, hJob, hOp, hAccessed, hObj⟩ := h.returned r hr
    refine ⟨key, by rw [operations_getElem?, hJob, Option.map_some, hOp], ?_⟩
    rw [← hObj, h.consistent.objects r.block job key hJob hOp hAccessed]
  refine ⟨⟨history (fun _ => none) (operations s.concurrent_queue.jobs), _,
    history_operations _ _, history_runs _ _, fun r hr => ?_⟩, fun r hr => ?_, ?_,
    fun c n hReading => reading_returns h hReading⟩
  · obtain ⟨key, hKey, hObj⟩ := hReturned r hr
    refine ⟨key, ?_⟩
    rw [history_getElem?, hKey, hObj]
    rfl
  · obtain ⟨key, hKey, hObj⟩ := hReturned r hr
    exact ⟨key, hKey, by rw [hObj, contents_eq_lastObject]⟩
  · intro m n a b ha hb hSet haRunning hbRunning
    exact BarrierQueue.running_alone ha hb (by rw [h.consistent.barrier m a ha, hSet]) haRunning hbRunning

/-- A read submitted behind a write that has not started returns the written object. -/
def readBehindWrite : List (Action Bool Char Nat) :=
  [.setObject true 7 'k', .objectForKey false 'k', .setObject true 8 'k', .start 0, .access 0,
    .finish 0, .start 1, .access 1, .finish 1, .returns false]

theorem userCenter_is_atomic_dictionary_behind_write :
    let s := (userCenter Bool Char Nat).after readBehindWrite rfl
    s.returned.map (fun r => (r.client, r.block, r.obj)) = [(false, 1, some 7)] ∧
    ∀ r ∈ s.returned, ∃ key,
      (operations s.concurrent_queue.jobs)[r.block]? = some (.objectForKey key) ∧
        r.obj = lastObject key ((operations s.concurrent_queue.jobs).take r.block) :=
  ⟨rfl, (userCenter_is_atomic_dictionary (Machine.reachable_after _ readBehindWrite rfl)).2.1⟩

end OCNote.UserCenter
