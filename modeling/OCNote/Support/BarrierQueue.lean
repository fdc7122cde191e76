import Mathlib.Data.List.Basic
import Mathlib.Logic.Relation

/-! # Concurrent queues with barriers

Blocks start in submission order. Plain blocks overlap; a barrier block starts after
every earlier block has finished and finishes before any later block starts. A queue
carries the proof that its blocks obey this. -/

namespace OCNote.Support
set_option autoImplicit false

universe u

inductive Phase where
  | waiting
  | running
  | finished
  deriving DecidableEq, Repr

structure Job (β : Type u) where
  barrier : Bool
  phase : Phase
  body : β

variable {β : Type u}

/-- An earlier block `a` lets a later block `b` be where it is. -/
def Job.LetsPass (a b : Job β) : Prop :=
  a.phase ≠ .waiting ∧ (a.barrier = true ∨ b.barrier = true → a.phase = .finished)

instance (a b : Job β) : Decidable (a.LetsPass b) := inferInstanceAs (Decidable (_ ∧ (_ → _)))

structure BarrierQueue (β : Type u) where
  jobs : List (Job β)
  ordered : ∀ {m n : Nat} {a b : Job β}, m < n → jobs[m]? = some a → jobs[n]? = some b →
    b.phase ≠ .waiting → a.LetsPass b

namespace BarrierQueue

variable (q : BarrierQueue β)

def empty : BarrierQueue β := ⟨[], by intro m n a b _ h; simp at h⟩

theorem mem_take_iff {jobs : List (Job β)} {n : Nat} {a : Job β} :
    a ∈ jobs.take n ↔ ∃ m, m < n ∧ jobs[m]? = some a := by
  simp only [List.mem_iff_getElem?, List.getElem?_take]
  constructor
  · rintro ⟨m, h⟩
    split at h
    · exact ⟨m, ‹_›, h⟩
    · cases h
  · rintro ⟨m, hm, h⟩
    exact ⟨m, by rw [if_pos hm, h]⟩

def submit (barrier : Bool) (body : β) : BarrierQueue β where
  jobs := q.jobs ++ [⟨barrier, .waiting, body⟩]
  ordered := by
    intro m n a b hmn ha hb hStarted
    have hn : n < q.jobs.length := by
      by_contra hn
      rw [List.getElem?_append_right (by omega), List.getElem?_singleton] at hb
      split at hb
      · cases hb
        exact hStarted rfl
      · cases hb
    rw [List.getElem?_append_left hn] at hb
    rw [List.getElem?_append_left (by omega)] at ha
    exact q.ordered hmn ha hb hStarted

def advance (n : Nat) (job job' : Job β) (hJob : q.jobs[n]? = some job)
    (hBarrier : job'.barrier = job.barrier)
    (hStarted : job.phase ≠ .waiting → job'.phase ≠ .waiting)
    (hFinished : job.phase = .finished → job'.phase = .finished)
    (hStart : job.phase = .waiting → ∀ a ∈ q.jobs.take n, a.LetsPass job) : BarrierQueue β where
  jobs := q.jobs.set n job'
  ordered := by
    intro k l a b hkl ha hb hb'
    obtain ⟨hn, _⟩ := List.getElem?_eq_some_iff.mp hJob
    obtain rfl | hk := eq_or_ne n k
    · rw [List.getElem?_set_self hn] at ha
      cases ha
      rw [List.getElem?_set_ne (by omega)] at hb
      have hPass := q.ordered hkl hJob hb hb'
      exact ⟨hStarted hPass.1, fun h => hFinished (hPass.2 (by rwa [hBarrier] at h))⟩
    · rw [List.getElem?_set_ne hk] at ha
      obtain rfl | hl := eq_or_ne n l
      · rw [List.getElem?_set_self hn] at hb
        cases hb
        have hPass : a.LetsPass job := by
          by_cases hWaiting : job.phase = .waiting
          · exact hStart hWaiting a (mem_take_iff.mpr ⟨k, hkl, ha⟩)
          · exact q.ordered hkl ha hJob hWaiting
        exact ⟨hPass.1, fun h => hPass.2 (by rwa [hBarrier] at h)⟩
      · rw [List.getElem?_set_ne hl] at hb
        exact q.ordered hkl ha hb hb'

def start (n : Nat) : Option (BarrierQueue β) :=
  match h : q.jobs[n]? with
  | none => none
  | some job =>
    if hStart : job.phase = .waiting ∧ ∀ a ∈ q.jobs.take n, a.LetsPass job then
      some (q.advance n job { job with phase := .running } h rfl (fun _ => by simp)
        (fun hFinished => by simp [hStart.1] at hFinished) fun _ => hStart.2)
    else none

def work (n : Nat) (f : β → β) : Option (BarrierQueue β) :=
  match h : q.jobs[n]? with
  | none => none
  | some job =>
    if hRunning : job.phase = .running then
      some (q.advance n job { job with body := f job.body } h rfl id id
        fun hWaiting => by simp [hRunning] at hWaiting)
    else none

def finish (n : Nat) : Option (BarrierQueue β) :=
  match h : q.jobs[n]? with
  | none => none
  | some job =>
    if hRunning : job.phase = .running then
      some (q.advance n job { job with phase := .finished } h rfl (fun _ => by simp) (fun _ => rfl)
        fun hWaiting => by simp [hRunning] at hWaiting)
    else none

variable {q}

theorem start_eq_some {n : Nat} {q' : BarrierQueue β} (h : q.start n = some q') :
    ∃ job, q.jobs[n]? = some job ∧ job.phase = .waiting ∧ (∀ a ∈ q.jobs.take n, a.LetsPass job) ∧
      q'.jobs = q.jobs.set n { job with phase := .running } := by
  unfold start at h
  split at h
  · cases h
  · rename_i job hJob
    split at h
    · rename_i hStart
      cases h
      exact ⟨job, hJob, hStart.1, hStart.2, rfl⟩
    · cases h

theorem work_eq_some {n : Nat} {f : β → β} {q' : BarrierQueue β} (h : q.work n f = some q') :
    ∃ job, q.jobs[n]? = some job ∧ job.phase = .running ∧
      q'.jobs = q.jobs.set n { job with body := f job.body } := by
  unfold work at h
  split at h
  · cases h
  · rename_i job hJob
    split at h
    · rename_i hRunning
      cases h
      exact ⟨job, hJob, hRunning, rfl⟩
    · cases h

theorem finish_eq_some {n : Nat} {q' : BarrierQueue β} (h : q.finish n = some q') :
    ∃ job, q.jobs[n]? = some job ∧ job.phase = .running ∧
      q'.jobs = q.jobs.set n { job with phase := .finished } := by
  unfold finish at h
  split at h
  · cases h
  · rename_i job hJob
    split at h
    · rename_i hRunning
      cases h
      exact ⟨job, hJob, hRunning, rfl⟩
    · cases h

theorem running_alone {m n : Nat} {a b : Job β} (ha : q.jobs[m]? = some a) (hb : q.jobs[n]? = some b)
    (hBarrier : a.barrier = true) (haRunning : a.phase = .running) (hbRunning : b.phase = .running) :
    m = n := by
  obtain hmn | hmn | hnm := Nat.lt_trichotomy m n
  · have hPass := q.ordered hmn ha hb (by simp [hbRunning])
    have hFinished := hPass.2 (.inl hBarrier)
    rw [haRunning] at hFinished
    cases hFinished
  · exact hmn
  · have hPass := q.ordered hnm hb ha (by simp [haRunning])
    have hFinished := hPass.2 (.inr hBarrier)
    rw [hbRunning] at hFinished
    cases hFinished

theorem waiting_behind {m n : Nat} {a b : Job β} (hmn : m < n) (ha : q.jobs[m]? = some a)
    (hb : q.jobs[n]? = some b) (hBarrier : a.barrier = true ∨ b.barrier = true)
    (hRunning : a.phase ≠ .finished) : b.phase = .waiting := by
  by_contra hStarted
  exact hRunning ((q.ordered hmn ha hb hStarted).2 hBarrier)

theorem exists_start {n : Nat} {job : Job β} (hJob : q.jobs[n]? = some job)
    (hWaiting : job.phase = .waiting) (hPass : ∀ a ∈ q.jobs.take n, a.LetsPass job) :
    ∃ q', q.start n = some q' := by
  unfold start
  split
  · rename_i hNone
    rw [hJob] at hNone
    cases hNone
  · rename_i job' hJob'
    rw [hJob] at hJob'
    cases hJob'
    exact ⟨_, dif_pos ⟨hWaiting, hPass⟩⟩

theorem exists_work {n : Nat} {job : Job β} (hJob : q.jobs[n]? = some job)
    (hRunning : job.phase = .running) (f : β → β) : ∃ q', q.work n f = some q' := by
  unfold work
  split
  · rename_i hNone
    rw [hJob] at hNone
    cases hNone
  · rename_i job' hJob'
    rw [hJob] at hJob'
    cases hJob'
    exact ⟨_, dif_pos hRunning⟩

theorem exists_finish {n : Nat} {job : Job β} (hJob : q.jobs[n]? = some job)
    (hRunning : job.phase = .running) : ∃ q', q.finish n = some q' := by
  unfold finish
  split
  · rename_i hNone
    rw [hJob] at hNone
    cases hNone
  · rename_i job' hJob'
    rw [hJob] at hJob'
    cases hJob'
    exact ⟨_, dif_pos hRunning⟩

end BarrierQueue

section Draining

universe v

variable {σ : Type v} {queue : σ → BarrierQueue β} {accessed : β → Bool} {Step : σ → σ → Prop}

/-- The steps of a system run the blocks of its queue: a block that may start can start, it
can do its work once, and then it can finish. -/
structure Drives (queue : σ → BarrierQueue β) (accessed : β → Bool) (Step : σ → σ → Prop) : Prop where
  start : ∀ {s n q}, (queue s).start n = some q → ∃ s', Step s s' ∧ queue s' = q
  work : ∀ {s n job}, (queue s).jobs[n]? = some job → job.phase = .running → accessed job.body = false →
    ∃ s' body, Step s s' ∧ accessed body = true ∧
      (queue s').jobs = (queue s).jobs.set n { job with body := body }
  finish : ∀ {s n q job}, (queue s).jobs[n]? = some job → accessed job.body = true →
    (queue s).finish n = some q → ∃ s', Step s s' ∧ queue s' = q

open Relation

def FinishesAt (queue : σ → BarrierQueue β) (Step : σ → σ → Prop) (s : σ) (n : Nat) : Prop :=
  ∃ s' job, ReflTransGen Step s s' ∧ (queue s').jobs = (queue s).jobs.set n job ∧ job.phase = .finished

theorem FinishesAt.head {s s' : σ} {n : Nat} {job : Job β} (hStep : Step s s')
    (hJobs : (queue s').jobs = (queue s).jobs.set n job) (h : FinishesAt queue Step s' n) :
    FinishesAt queue Step s n := by
  obtain ⟨t, last, hRun, hLast, hFinished⟩ := h
  refine ⟨t, last, hRun.head hStep, ?_, hFinished⟩
  rw [hLast, hJobs, List.set_set]

theorem Drives.accessed_finishes (h : Drives queue accessed Step) {s : σ} {n : Nat} {job : Job β}
    (hJob : (queue s).jobs[n]? = some job) (hRunning : job.phase = .running)
    (hAccessed : accessed job.body = true) : FinishesAt queue Step s n := by
  obtain ⟨q, hFinish⟩ := BarrierQueue.exists_finish hJob hRunning
  obtain ⟨job', _, _, hJobs⟩ := BarrierQueue.finish_eq_some hFinish
  obtain ⟨s', hStep, hQueue⟩ := h.finish hJob hAccessed hFinish
  exact ⟨s', _, .single hStep, by rw [hQueue, hJobs], rfl⟩

theorem Drives.running_finishes (h : Drives queue accessed Step) {s : σ} {n : Nat} {job : Job β}
    (hJob : (queue s).jobs[n]? = some job) (hRunning : job.phase = .running) :
    FinishesAt queue Step s n := by
  cases hAccessed : accessed job.body with
  | true => exact h.accessed_finishes hJob hRunning hAccessed
  | false =>
    obtain ⟨s', body, hStep, hDone, hJobs⟩ := h.work hJob hRunning hAccessed
    have hNext : (queue s').jobs[n]? = some { job with body := body } := by
      rw [hJobs, List.getElem?_set_self (List.getElem?_eq_some_iff.mp hJob).1]
    exact .head hStep hJobs (h.accessed_finishes hNext hRunning hDone)

theorem Drives.first_finishes (h : Drives queue accessed Step) {s : σ} {n : Nat} {job : Job β}
    (hJob : (queue s).jobs[n]? = some job)
    (hEarlier : ∀ m a, m < n → (queue s).jobs[m]? = some a → a.phase = .finished) :
    FinishesAt queue Step s n := by
  cases hPhase : job.phase with
  | finished =>
    obtain ⟨hn, rfl⟩ := List.getElem?_eq_some_iff.mp hJob
    exact ⟨s, _, .refl, (List.set_getElem_self hn).symm, hPhase⟩
  | running => exact h.running_finishes hJob hPhase
  | waiting =>
    have hPass : ∀ a ∈ (queue s).jobs.take n, a.LetsPass job := by
      intro a ha
      obtain ⟨m, hm, ha⟩ := BarrierQueue.mem_take_iff.mp ha
      have hFinished := hEarlier m a hm ha
      exact ⟨by simp [hFinished], fun _ => hFinished⟩
    obtain ⟨q, hStart⟩ := BarrierQueue.exists_start hJob hPhase hPass
    obtain ⟨job', _, _, _, hJobs⟩ := BarrierQueue.start_eq_some hStart
    obtain ⟨s', hStep, rfl⟩ := h.start hStart
    have hNext : (queue s').jobs[n]? = some { job' with phase := .running } := by
      rw [hJobs, List.getElem?_set_self (List.getElem?_eq_some_iff.mp hJob).1]
    exact .head hStep hJobs (h.running_finishes hNext rfl)

/-- The first `n` blocks can be finished, in their order. -/
theorem Drives.drains (h : Drives queue accessed Step) (s : σ) {n : Nat} (hn : n ≤ (queue s).jobs.length) :
    ∃ s', ReflTransGen Step s s' ∧ (queue s').jobs.length = (queue s).jobs.length ∧
      ∀ m a, m < n → (queue s').jobs[m]? = some a → a.phase = .finished := by
  induction n with
  | zero => exact ⟨s, .refl, rfl, fun m a hm => absurd hm (Nat.not_lt_zero m)⟩
  | succ n ih =>
    obtain ⟨t, hRun, hLength, hEarlier⟩ := ih (by omega)
    have hnt : n < (queue t).jobs.length := by omega
    obtain ⟨s', job, hLast, hJobs, hFinished⟩ :=
      h.first_finishes (List.getElem?_eq_getElem hnt) hEarlier
    refine ⟨s', hRun.trans hLast, by rw [hJobs, List.length_set, hLength], fun m a hm ha => ?_⟩
    rw [hJobs] at ha
    obtain rfl | hnm := eq_or_ne n m
    · rw [List.getElem?_set_self hnt] at ha
      cases ha
      exact hFinished
    · rw [List.getElem?_set_ne hnm] at ha
      exact hEarlier m a (by omega) ha

end Draining

end OCNote.Support
