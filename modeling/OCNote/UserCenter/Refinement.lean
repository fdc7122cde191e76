import OCNote.UserCenter.AtomicDictionary

/-! # UserCenter refines the atomic dictionary

A call takes effect when its block is submitted: what a read will find is fixed by the
writes submitted before it, however many of them are still queued. -/

namespace OCNote.UserCenter
open OCNote.Support
set_option autoImplicit false

universe u v w

variable {ι : Type w} {κ : Type u} {ο : Type v} [DecidableEq κ]

abbrev Jobs (κ : Type u) (ο : Type v) := List (Job (Block κ ο))

omit [DecidableEq κ] in
def operations (jobs : Jobs κ ο) : List (Operation κ ο) := jobs.map fun job => job.body.operation

/-- The writes that have accessed the dictionary are those among the first `k` blocks. -/
def Cut (jobs : Jobs κ ο) (k : Nat) : Prop :=
  ∀ (n : Nat) (job : Job (Block κ ο)), jobs[n]? = some job → job.body.operation.isSet = true →
    (job.body.accessed = true ↔ n < k)

omit [DecidableEq κ] in
theorem operations_getElem? (jobs : Jobs κ ο) (n : Nat) :
    (operations jobs)[n]? = jobs[n]?.map fun job => job.body.operation := List.getElem?_map ..

/-- Two cuts differ by reads only. -/
theorem Cut.contents_eq {jobs : Jobs κ ο} {k l : Nat} (hk : Cut jobs k) (hl : Cut jobs l) :
    contents ((operations jobs).take k) = contents ((operations jobs).take l) := by
  have hOrdered : ∀ {k l}, Cut jobs k → Cut jobs l → k ≤ l →
      contents ((operations jobs).take l) = contents ((operations jobs).take k) := by
    intro k l hk hl hkl
    refine contents_take_of_reads hkl fun n op hkn hnl hOp => ?_
    rw [operations_getElem?, Option.map_eq_some_iff] at hOp
    obtain ⟨job, hJob, rfl⟩ := hOp
    by_contra hSet
    rw [Bool.not_eq_false] at hSet
    have hAccessed := (hl n job hJob hSet).mpr hnl
    have hBefore := (hk n job hJob hSet).mp hAccessed
    omega
  obtain hkl | hlk := Nat.le_total k l
  · exact (hOrdered hk hl hkl).symm
  · exact hOrdered hl hk hlk

structure Consistent (jobs : Jobs κ ο) (dic : κ → Option ο) : Prop where
  barrier : ∀ (n : Nat) (job : Job (Block κ ο)), jobs[n]? = some job →
    job.barrier = job.body.operation.isSet
  started : ∀ (n : Nat) (job : Job (Block κ ο)), jobs[n]? = some job →
    job.body.accessed = true → job.phase ≠ .waiting
  finished : ∀ (n : Nat) (job : Job (Block κ ο)), jobs[n]? = some job →
    job.phase = .finished → job.body.accessed = true
  dictionary : ∃ k, k ≤ jobs.length ∧ Cut jobs k ∧ dic = contents ((operations jobs).take k)
  objects : ∀ (n : Nat) (job : Job (Block κ ο)) (key : κ), jobs[n]? = some job →
    job.body.operation = .objectForKey key → job.body.accessed = true →
    job.body.obj = contents ((operations jobs).take n) key

omit [DecidableEq κ] in
theorem getElem?_concat_cases {jobs : Jobs κ ο} {x job : Job (Block κ ο)} {n : Nat}
    (h : (jobs ++ [x])[n]? = some job) : jobs[n]? = some job ∨ (n = jobs.length ∧ job = x) := by
  obtain hn | hn | hn := Nat.lt_trichotomy n jobs.length
  · rw [List.getElem?_append_left hn] at h
    exact .inl h
  · rw [hn, List.getElem?_concat_length] at h
    exact .inr ⟨hn, (Option.some.inj h).symm⟩
  · rw [List.getElem?_eq_none (by simp; omega)] at h
    cases h

omit [DecidableEq κ] in
theorem getElem?_set_cases {jobs : Jobs κ ο} {x job : Job (Block κ ο)} {n m : Nat}
    (h : (jobs.set n x)[m]? = some job) : (m ≠ n ∧ jobs[m]? = some job) ∨ (m = n ∧ job = x) := by
  rw [List.getElem?_set] at h
  split at h
  · rename_i hnm
    split at h
    · exact .inr ⟨hnm.symm, (Option.some.inj h).symm⟩
    · cases h
  · rename_i hnm
    exact .inl ⟨Ne.symm hnm, h⟩

omit [DecidableEq κ] in
theorem operations_set {jobs : Jobs κ ο} {n : Nat} {job job' : Job (Block κ ο)}
    (hJob : jobs[n]? = some job) (hSame : job'.body.operation = job.body.operation) :
    operations (jobs.set n job') = operations jobs := by
  obtain ⟨hn, hGet⟩ := List.getElem?_eq_some_iff.mp hJob
  rw [operations, List.map_set, hSame, ← hGet]
  refine List.ext_getElem? fun m => ?_
  rw [List.getElem?_set]
  split
  · rename_i hnm
    subst hnm
    simp [operations, hn]
  · rfl

omit [DecidableEq κ] in
theorem operations_take_concat (jobs : Jobs κ ο) (x : Job (Block κ ο)) {n : Nat} (hn : n ≤ jobs.length) :
    (operations (jobs ++ [x])).take n = (operations jobs).take n := by
  rw [operations, List.map_append, List.take_append_of_le_length (by simpa using hn)]
  rfl

theorem Consistent.empty : Consistent ([] : Jobs κ ο) fun _ => none where
  barrier n job h := by cases h
  started n job h := by cases h
  finished n job h := by cases h
  dictionary := ⟨0, Nat.le_refl 0, (fun n job h => by cases h), rfl⟩
  objects n job key h := by cases h

theorem Consistent.submit {jobs : Jobs κ ο} {dic : κ → Option ο} (h : Consistent jobs dic)
    (op : Operation κ ο) : Consistent (jobs ++ [⟨op.isSet, .waiting, ⟨op, false, none⟩⟩]) dic where
  barrier n job hJob := by
    obtain hOld | ⟨_, rfl⟩ := getElem?_concat_cases hJob
    · exact h.barrier n job hOld
    · rfl
  started n job hJob hAccessed := by
    obtain hOld | ⟨_, rfl⟩ := getElem?_concat_cases hJob
    · exact h.started n job hOld hAccessed
    · cases hAccessed
  finished n job hJob hFinished := by
    obtain hOld | ⟨_, rfl⟩ := getElem?_concat_cases hJob
    · exact h.finished n job hOld hFinished
    · cases hFinished
  dictionary := by
    obtain ⟨k, hk, hCut, hDic⟩ := h.dictionary
    refine ⟨k, by simp; omega, fun n job hJob hSet => ?_, by rw [operations_take_concat _ _ hk, hDic]⟩
    obtain hOld | ⟨hn, rfl⟩ := getElem?_concat_cases hJob
    · exact hCut n job hOld hSet
    · simp only [Bool.false_eq_true, false_iff]
      omega
  objects n job key hJob hOp hAccessed := by
    obtain hOld | ⟨_, rfl⟩ := getElem?_concat_cases hJob
    · have hn := (List.getElem?_eq_some_iff.mp hOld).1
      rw [operations_take_concat _ _ (Nat.le_of_lt hn)]
      exact h.objects n job key hOld hOp hAccessed
    · cases hAccessed

/-- What is to be shown when one block is replaced by another with the same operation. -/
theorem Consistent.set {jobs : Jobs κ ο} {dic dic' : κ → Option ο} (h : Consistent jobs dic) {n : Nat}
    {job job' : Job (Block κ ο)} (hJob : jobs[n]? = some job) (hBarrier : job'.barrier = job.barrier)
    (hSame : job'.body.operation = job.body.operation)
    (hStarted : job'.body.accessed = true → job'.phase ≠ .waiting)
    (hFinished : job'.phase = .finished → job'.body.accessed = true)
    (hDictionary : ∃ k, k ≤ jobs.length ∧ Cut (jobs.set n job') k ∧
      dic' = contents ((operations jobs).take k))
    (hObj : ∀ key, job.body.operation = .objectForKey key → job'.body.accessed = true →
      job'.body.obj = contents ((operations jobs).take n) key) :
    Consistent (jobs.set n job') dic' where
  barrier m a ha := by
    obtain ⟨_, hOld⟩ | ⟨_, rfl⟩ := getElem?_set_cases ha
    · exact h.barrier m a hOld
    · rw [hBarrier, hSame]
      exact h.barrier n job hJob
  started m a ha hAccessed := by
    obtain ⟨_, hOld⟩ | ⟨_, rfl⟩ := getElem?_set_cases ha
    · exact h.started m a hOld hAccessed
    · exact hStarted hAccessed
  finished m a ha hPhase := by
    obtain ⟨_, hOld⟩ | ⟨_, rfl⟩ := getElem?_set_cases ha
    · exact h.finished m a hOld hPhase
    · exact hFinished hPhase
  dictionary := by
    rw [operations_set hJob hSame, List.length_set]
    exact hDictionary
  objects m a key ha hOp hAccessed := by
    rw [operations_set hJob hSame]
    obtain ⟨_, hOld⟩ | ⟨rfl, rfl⟩ := getElem?_set_cases ha
    · exact h.objects m a key hOld hOp hAccessed
    · exact hObj key (hSame ▸ hOp) hAccessed

theorem Consistent.of_phase {jobs : Jobs κ ο} {dic : κ → Option ο} (h : Consistent jobs dic) {n : Nat}
    {job : Job (Block κ ο)} (hJob : jobs[n]? = some job) {phase : Phase}
    (hStarted : job.body.accessed = true → phase ≠ .waiting)
    (hFinished : phase = .finished → job.body.accessed = true) :
    Consistent (jobs.set n { job with phase := phase }) dic := by
  refine h.set hJob rfl rfl hStarted hFinished ?_ fun key hOp => h.objects n job key hJob hOp
  obtain ⟨k, hk, hCut, hDic⟩ := h.dictionary
  refine ⟨k, hk, fun m a ha hSet => ?_, hDic⟩
  obtain ⟨_, hOld⟩ | ⟨rfl, rfl⟩ := getElem?_set_cases ha
  · exact hCut m a hOld hSet
  · exact hCut m job hJob hSet

/-- While a block that has not accessed the dictionary runs, the writes that have are
exactly those submitted before it. -/
theorem Consistent.cut_of_running {q : BarrierQueue (Block κ ο)} {dic : κ → Option ο}
    (h : Consistent q.jobs dic) {n : Nat} {job : Job (Block κ ο)} (hJob : q.jobs[n]? = some job)
    (hRunning : job.phase = .running) (hAccessed : job.body.accessed = false) : Cut q.jobs n := by
  intro m a ha hSet
  have hBarrier : a.barrier = true := by rw [h.barrier m a ha, hSet]
  obtain hmn | rfl | hnm := Nat.lt_trichotomy m n
  · have hPass := q.ordered hmn ha hJob (by simp [hRunning])
    exact iff_of_true (h.finished m a ha (hPass.2 (.inl hBarrier))) hmn
  · rw [hJob] at ha
    cases ha
    simp [hAccessed]
  · have hWaiting := q.waiting_behind hnm hJob ha (.inr hBarrier) (by simp [hRunning])
    have hNot : ¬ a.body.accessed = true := fun hAfter => h.started m a ha hAfter hWaiting
    exact iff_of_false hNot (by omega)

omit [DecidableEq κ] in
@[simp] theorem Block.access_operation (dic : κ → Option ο) (block : Block κ ο) :
    (block.access dic).operation = block.operation := by
  unfold Block.access
  split <;> rfl

omit [DecidableEq κ] in
@[simp] theorem Block.access_accessed (dic : κ → Option ο) (block : Block κ ο) :
    (block.access dic).accessed = true := by
  unfold Block.access
  split <;> rfl

omit [DecidableEq κ] in
theorem Block.access_obj {dic : κ → Option ο} {block : Block κ ο} {key : κ}
    (h : block.operation = .objectForKey key) : (block.access dic).obj = dic key := by
  simp [Block.access, h]

omit [DecidableEq κ] in
/-- The access of a write moves the cut behind it. -/
theorem Cut.access {jobs : Jobs κ ο} {n : Nat} (hCut : Cut jobs n) {job : Job (Block κ ο)}
    (hAccessed : job.body.accessed = true) : Cut (jobs.set n job) (n + 1) := by
  intro m a ha hSet
  obtain ⟨hmn, hOld⟩ | ⟨rfl, rfl⟩ := getElem?_set_cases ha
  · rw [hCut m a hOld hSet]
    omega
  · simp [hAccessed]

theorem Consistent.access {q : BarrierQueue (Block κ ο)} {dic : κ → Option ο}
    (h : Consistent q.jobs dic) {n : Nat} {job : Job (Block κ ο)} (hJob : q.jobs[n]? = some job)
    (hRunning : job.phase = .running) (hAccessed : job.body.accessed = false) :
    Consistent (q.jobs.set n { job with body := job.body.access dic }) (job.body.operation.apply dic) := by
  have hCut := h.cut_of_running hJob hRunning hAccessed
  have hn := (List.getElem?_eq_some_iff.mp hJob).1
  have hDic : dic = contents ((operations q.jobs).take n) := by
    obtain ⟨k, _, hk, hDic⟩ := h.dictionary
    rw [hDic, hk.contents_eq hCut]
  have hOp : (operations q.jobs)[n]? = some job.body.operation := by
    rw [operations_getElem?, hJob]
    rfl
  refine h.set hJob rfl (Block.access_operation dic job.body) (fun _ => by simp [hRunning])
    (fun _ => Block.access_accessed dic job.body)
    ⟨n + 1, hn, hCut.access (Block.access_accessed dic job.body), ?_⟩ fun key hKey _ => ?_
  · rw [List.take_add_one, hOp, Option.toList_some, contents_concat, ← hDic]
  · rw [Block.access_obj hKey, ← hDic]

omit [DecidableEq κ] in
theorem finish_cases {s s' : State ι κ ο} {n : Nat} (h : finish s n = some s') :
    ∃ (job : Job (Block κ ο)) (queue : BarrierQueue (Block κ ο)),
      s.concurrent_queue.jobs[n]? = some job ∧ job.phase = .running ∧ job.body.accessed = true ∧
      queue.jobs = s.concurrent_queue.jobs.set n { job with phase := .finished } ∧
      s' = { s with concurrent_queue := queue } := by
  unfold finish at h
  split at h
  · cases h
  · rename_i job hJob
    split at h
    · rename_i hAccessed
      obtain ⟨queue, hFinish, rfl⟩ := Option.map_eq_some_iff.mp h
      obtain ⟨job', hJob', hRunning, hQueue⟩ := BarrierQueue.finish_eq_some hFinish
      rw [hJob] at hJob'
      cases hJob'
      exact ⟨job, queue, hJob, hRunning, hAccessed, hQueue, rfl⟩
    · cases h

theorem access_cases {s s' : State ι κ ο} {n : Nat} (h : access s n = some s') :
    ∃ (job : Job (Block κ ο)) (queue : BarrierQueue (Block κ ο)),
      s.concurrent_queue.jobs[n]? = some job ∧ job.phase = .running ∧ job.body.accessed = false ∧
      queue.jobs = s.concurrent_queue.jobs.set n { job with body := job.body.access s.userCenterDic } ∧
      s' = { s with
        concurrent_queue := queue
        userCenterDic := job.body.operation.apply s.userCenterDic } := by
  unfold access at h
  split at h
  · cases h
  · rename_i job hJob
    split at h
    · cases h
    · rename_i hAccessed
      obtain ⟨queue, hWork, rfl⟩ := Option.map_eq_some_iff.mp h
      obtain ⟨job', hJob', hRunning, hQueue⟩ := BarrierQueue.work_eq_some hWork
      rw [hJob] at hJob'
      cases hJob'
      exact ⟨job, queue, hJob, hRunning, by simpa using hAccessed, hQueue, rfl⟩

structure Extends (jobs jobs' : Jobs κ ο) : Prop where
  operations : operations jobs <+: operations jobs'
  accessed : ∀ (n : Nat) (job : Job (Block κ ο)), jobs[n]? = some job → job.body.accessed = true →
    ∃ job' : Job (Block κ ο), jobs'[n]? = some job' ∧ job'.body = job.body

omit [DecidableEq κ] in
theorem Extends.concat (jobs : Jobs κ ο) (x : Job (Block κ ο)) : Extends jobs (jobs ++ [x]) where
  operations := by simp [OCNote.UserCenter.operations]
  accessed n job hJob _ :=
    ⟨job, by rw [List.getElem?_append_left (List.getElem?_eq_some_iff.mp hJob).1, hJob], rfl⟩

omit [DecidableEq κ] in
theorem Extends.set {jobs : Jobs κ ο} {n : Nat} {job job' : Job (Block κ ο)} (hJob : jobs[n]? = some job)
    (hSame : job'.body.operation = job.body.operation)
    (hBody : job.body.accessed = true → job'.body = job.body) : Extends jobs (jobs.set n job') where
  operations := ⟨[], by rw [operations_set hJob hSame, List.append_nil]⟩
  accessed m a ha hAccessed := by
    obtain rfl | hmn := eq_or_ne n m
    · rw [hJob] at ha
      cases ha
      exact ⟨job', List.getElem?_set_self (List.getElem?_eq_some_iff.mp hJob).1, hBody hAccessed⟩
    · exact ⟨a, by rw [List.getElem?_set_ne hmn, ha], rfl⟩

/-- The blocks are consistent with the dictionary, and the clients with the blocks. -/
structure Refines (s : State ι κ ο) : Prop where
  consistent : Consistent s.concurrent_queue.jobs s.userCenterDic
  reading : ∀ c n, s.reading c = some n →
    ∃ key, (operations s.concurrent_queue.jobs)[n]? = some (.objectForKey key)
  returned : ∀ r ∈ s.returned, ∃ (job : Job (Block κ ο)) (key : κ),
    s.concurrent_queue.jobs[r.block]? = some job ∧ job.body.operation = .objectForKey key ∧
      job.body.accessed = true ∧ job.body.obj = r.obj

theorem Refines.of_queue {s s' : State ι κ ο} (h : Refines s)
    (hConsistent : Consistent s'.concurrent_queue.jobs s'.userCenterDic)
    (hExtends : Extends s.concurrent_queue.jobs s'.concurrent_queue.jobs)
    (hReading : ∀ c n, s'.reading c = some n → s.reading c = some n ∨
      ∃ key, (operations s'.concurrent_queue.jobs)[n]? = some (.objectForKey key))
    (hReturned : s'.returned = s.returned) : Refines s' where
  consistent := hConsistent
  reading c n hn := by
    obtain hOld | hNew := hReading c n hn
    · obtain ⟨key, hKey⟩ := h.reading c n hOld
      obtain ⟨hBound, hGet⟩ := List.getElem?_eq_some_iff.mp hKey
      exact ⟨key, by rw [List.prefix_iff_getElem?.mp hExtends.operations n hBound, hGet]⟩
    · exact hNew
  returned r hr := by
    obtain ⟨job, key, hJob, hOp, hAccessed, hObj⟩ := h.returned r (hReturned ▸ hr)
    obtain ⟨job', hJob', hBody⟩ := hExtends.accessed r.block job hJob hAccessed
    exact ⟨job', key, hJob', by rw [hBody, hOp], by rw [hBody, hAccessed], by rw [hBody, hObj]⟩

variable [DecidableEq ι]

theorem Refines.objectForKey {s s' : State ι κ ο} {c : ι} {key : κ} (h : Refines s)
    (hStep : objectForKey s c key = some s') : Refines s' := by
  unfold OCNote.UserCenter.objectForKey at hStep
  split at hStep
  · cases hStep
    refine h.of_queue (h.consistent.submit (.objectForKey key)) (.concat _ _) (fun d n hn => ?_) rfl
    simp only at hn
    obtain rfl | hdc := eq_or_ne d c
    · rw [Function.update_self] at hn
      cases hn
      exact .inr ⟨key, by simp [BarrierQueue.submit, operations]⟩
    · rw [Function.update_of_ne hdc] at hn
      exact .inl hn
  · cases hStep

omit [DecidableEq ι] in
theorem Refines.setObject {s s' : State ι κ ο} {c : ι} {obj : ο} {key : κ} (h : Refines s)
    (hStep : setObject s c obj key = some s') : Refines s' := by
  unfold OCNote.UserCenter.setObject at hStep
  split at hStep
  · cases hStep
    exact h.of_queue (h.consistent.submit (.setObject obj key)) (.concat _ _) (fun _ _ hn => .inl hn) rfl
  · cases hStep

theorem Refines.returns {s s' : State ι κ ο} {c : ι} (h : Refines s)
    (hStep : returns s c = some s') : Refines s' := by
  unfold OCNote.UserCenter.returns at hStep
  split at hStep
  · cases hStep
  · rename_i n hn
    split at hStep
    · cases hStep
    · rename_i job hJob
      split at hStep
      · rename_i hFinished
        cases hStep
        refine ⟨h.consistent, fun d m hm => ?_, fun r hr => ?_⟩
        · simp only at hm
          obtain rfl | hdc := eq_or_ne d c
          · rw [Function.update_self] at hm
            cases hm
          · rw [Function.update_of_ne hdc] at hm
            exact h.reading d m hm
        · obtain hOld | hNew := List.mem_append.mp hr
          · exact h.returned r hOld
          · obtain ⟨key, hKey⟩ := h.reading c n hn
            rw [operations_getElem?, hJob, Option.map_some, Option.some.injEq] at hKey
            rw [List.mem_singleton.mp hNew]
            exact ⟨job, key, hJob, hKey, h.consistent.finished n job hJob hFinished, rfl⟩
      · cases hStep

theorem Refines.step {s s' : State ι κ ο} {a : Action ι κ ο} (h : Refines s)
    (hStep : step s a = some s') : Refines s' := by
  cases a with
  | objectForKey c key => exact h.objectForKey hStep
  | setObject c obj key => exact h.setObject hStep
  | start n =>
    obtain ⟨queue, hStart, rfl⟩ := Option.map_eq_some_iff.mp hStep
    obtain ⟨job, hJob, hWaiting, _, hQueue⟩ := BarrierQueue.start_eq_some hStart
    refine h.of_queue ?_ (hQueue ▸ .set hJob rfl fun _ => rfl) (fun _ _ hn => .inl hn) rfl
    exact hQueue ▸ h.consistent.of_phase hJob (fun _ => by simp) (fun hFinished => by cases hFinished)
  | access n =>
    obtain ⟨job, queue, hJob, hRunning, hAccessed, hQueue, rfl⟩ := access_cases hStep
    refine h.of_queue (hQueue ▸ h.consistent.access hJob hRunning hAccessed) (hQueue ▸ .set hJob ?_ ?_)
      (fun _ _ hn => .inl hn) rfl
    · exact Block.access_operation _ _
    · rw [hAccessed]
      intro hTrue
      cases hTrue
  | finish n =>
    obtain ⟨job, queue, hJob, hRunning, hAccessed, hQueue, rfl⟩ := finish_cases hStep
    refine h.of_queue ?_ (hQueue ▸ .set hJob rfl fun _ => rfl) (fun _ _ hn => .inl hn) rfl
    exact hQueue ▸ h.consistent.of_phase hJob (fun _ => by simp) fun _ => hAccessed
  | returns c => exact h.returns hStep

theorem userCenter_refines {s : State ι κ ο} (h : (userCenter ι κ ο).Reachable s) : Refines s :=
  Machine.invariant (P := Refines) ⟨Consistent.empty, fun _ _ h => (by cases h), fun _ h => (by cases h)⟩
    (fun _ _ _ hs hStep => hs.step hStep) h

end OCNote.UserCenter
