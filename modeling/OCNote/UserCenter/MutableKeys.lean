import OCNote.UserCenter.Refinement

/-! # UserCenter with keys that change

A key is an object here, and its characters can be modified. A block captures the object;
the dictionary copies the characters when the block sends `setObject:forKey:` to it. -/

namespace OCNote.UserCenter
open OCNote.Support
set_option autoImplicit false

universe u v w x

/-- What a write block has stored, and under which characters. -/
structure Store (κ : Type u) (ο : Type v) where
  block : Nat
  obj : ο
  characters : κ

structure KeyedState (ι : Type w) (ρ : Type x) (κ : Type u) (ο : Type v) where
  characters : ρ → κ
  concurrent_queue : BarrierQueue (Block ρ ο)
  userCenterDic : κ → Option ο
  reading : ι → Option Nat
  /-- The characters that the key of each call had then; no step reads them. -/
  given : List κ
  /-- No step reads it. -/
  stored : List (Store κ ο)

inductive KeyedAction (ι : Type w) (ρ : Type x) (κ : Type u) (ο : Type v) where
  /-- `setString:` or another modification of a mutable string. -/
  | modify (client : ι) (key : ρ) (characters : κ)
  | objectForKey (client : ι) (key : ρ)
  | setObject (client : ι) (obj : ο) (key : ρ)
  | start (block : Nat)
  | access (block : Nat)
  | finish (block : Nat)
  | returns (client : ι)

namespace KeyedState

variable {ι : Type w} {ρ : Type x} {κ : Type u} {ο : Type v}

def submit (s : KeyedState ι ρ κ ο) (barrier : Bool) (operation : Operation ρ ο) (key : ρ) :
    KeyedState ι ρ κ ο :=
  { s with
    concurrent_queue := s.concurrent_queue.submit barrier ⟨operation, false, none⟩
    given := s.given ++ [s.characters key] }

def setObject (s : KeyedState ι ρ κ ο) (client : ι) (obj : ο) (key : ρ) : Option (KeyedState ι ρ κ ο) :=
  if s.reading client = none then some (s.submit true (.setObject obj key) key) else none

def finish (s : KeyedState ι ρ κ ο) (n : Nat) : Option (KeyedState ι ρ κ ο) :=
  match s.concurrent_queue.jobs[n]? with
  | none => none
  | some job =>
    if job.body.accessed then
      (s.concurrent_queue.finish n).map fun queue => { s with concurrent_queue := queue }
    else none

variable [DecidableEq ι] [DecidableEq ρ] [DecidableEq κ]

omit [DecidableEq ι] [DecidableEq κ] in
def modify (s : KeyedState ι ρ κ ο) (client : ι) (key : ρ) (characters : κ) : Option (KeyedState ι ρ κ ο) :=
  if s.reading client = none then
    some { s with characters := Function.update s.characters key characters }
  else none

omit [DecidableEq ρ] [DecidableEq κ] in
def objectForKey (s : KeyedState ι ρ κ ο) (client : ι) (key : ρ) : Option (KeyedState ι ρ κ ο) :=
  if s.reading client = none then
    some { s.submit false (.objectForKey key) key with
      reading := Function.update s.reading client (some s.concurrent_queue.jobs.length) }
  else none

omit [DecidableEq ι] [DecidableEq ρ] in
/-- The effect of block `n` on the dictionary, with the characters that its key has now. -/
def send (s : KeyedState ι ρ κ ο) (n : Nat) : Operation ρ ο → KeyedState ι ρ κ ο
  | .objectForKey _ => s
  | .setObject obj key =>
    { s with
      userCenterDic := Function.update s.userCenterDic (s.characters key) (some obj)
      stored := s.stored ++ [⟨n, obj, s.characters key⟩] }

omit [DecidableEq ι] [DecidableEq ρ] in
def access (s : KeyedState ι ρ κ ο) (n : Nat) : Option (KeyedState ι ρ κ ο) :=
  match s.concurrent_queue.jobs[n]? with
  | none => none
  | some job =>
    if job.body.accessed then none
    else
      (s.concurrent_queue.work n (Block.access fun key => s.userCenterDic (s.characters key))).map
        fun queue => { s.send n job.body.operation with concurrent_queue := queue }

omit [DecidableEq ρ] [DecidableEq κ] in
def returns (s : KeyedState ι ρ κ ο) (client : ι) : Option (KeyedState ι ρ κ ο) :=
  match s.reading client with
  | none => none
  | some n =>
    match s.concurrent_queue.jobs[n]? with
    | none => none
    | some job =>
      if job.phase = .finished then some { s with reading := Function.update s.reading client none } else none

def step (s : KeyedState ι ρ κ ο) : KeyedAction ι ρ κ ο → Option (KeyedState ι ρ κ ο)
  | .modify client key characters => s.modify client key characters
  | .objectForKey client key => s.objectForKey client key
  | .setObject client obj key => s.setObject client obj key
  | .start n => (s.concurrent_queue.start n).map fun queue => { s with concurrent_queue := queue }
  | .access n => s.access n
  | .finish n => s.finish n
  | .returns client => s.returns client

end KeyedState

/-- The center with key objects that have the given characters at first. -/
def mutableKeys (ι : Type w) (ο : Type v) {ρ : Type x} {κ : Type u} [DecidableEq ι] [DecidableEq ρ]
    [DecidableEq κ] (characters : ρ → κ) : Machine (KeyedState ι ρ κ ο) (KeyedAction ι ρ κ ο) where
  start := ⟨characters, .empty, fun _ => none, fun _ => none, [], []⟩
  step := KeyedState.step

def KeyedAction.onQueue {ι : Type w} {ρ : Type x} {κ : Type u} {ο : Type v} : KeyedAction ι ρ κ ο → Bool
  | .start _ | .access _ | .finish _ => true
  | .modify _ _ _ | .objectForKey _ _ | .setObject _ _ _ | .returns _ => false

variable {ι : Type w} {ρ : Type x} {κ : Type u} {ο : Type v} [DecidableEq κ]

omit [DecidableEq κ] in
/-- A modification leaves the key of every write alone that has not reached the dictionary. -/
def LeavesPending (s : KeyedState ι ρ κ ο) : KeyedAction ι ρ κ ο → Prop
  | .modify _ key characters => characters = s.characters key ∨
    ∀ (n : Nat) (job : Job (Block ρ ο)) (obj : ο), s.concurrent_queue.jobs[n]? = some job →
      job.body.operation = .setObject obj key → job.body.accessed = true
  | _ => True

def Store.apply (dic : κ → Option ο) (store : Store κ ο) : κ → Option ο :=
  Function.update dic store.characters (some store.obj)

/-- The dictionary holds what has been stored, each time the object of the call under the
characters that its key had when the call was made. -/
structure StoresGiven (s : KeyedState ι ρ κ ο) : Prop where
  given : ∀ store ∈ s.stored, s.given[store.block]? = some store.characters ∧
    ∃ key, (operations s.concurrent_queue.jobs)[store.block]? = some (.setObject store.obj key)
  dictionary : s.userCenterDic = s.stored.foldl Store.apply fun _ => none

section Effects

variable [DecidableEq ι] [DecidableEq ρ]

/-- All that a step can do. -/
inductive Effect (s : KeyedState ι ρ κ ο) : KeyedAction ι ρ κ ο → KeyedState ι ρ κ ο → Prop where
  | modify (client : ι) (key : ρ) (characters : κ) : Effect s (.modify client key characters)
      { s with characters := Function.update s.characters key characters }
  | submit {a : KeyedAction ι ρ κ ο} (barrier : Bool) (operation : Operation ρ ο) (key : ρ)
      (reading : ι → Option Nat) (hClient : a.onQueue = false)
      (hKey : ∀ obj k, operation = .setObject obj k → k = key) :
      Effect s a { s.submit barrier operation key with reading := reading }
  | phase {a : KeyedAction ι ρ κ ο} {n : Nat} {job : Job (Block ρ ο)} {queue : BarrierQueue (Block ρ ο)}
      (phase : Phase) (hJob : s.concurrent_queue.jobs[n]? = some job)
      (hFinished : phase = .finished → job.body.accessed = true)
      (hQueue : queue.jobs = s.concurrent_queue.jobs.set n { job with phase := phase }) :
      Effect s a { s with concurrent_queue := queue }
  | access {n : Nat} {job : Job (Block ρ ο)} {queue : BarrierQueue (Block ρ ο)} (dic : ρ → Option ο)
      (hJob : s.concurrent_queue.jobs[n]? = some job) (hAccessed : job.body.accessed = false)
      (hQueue : queue.jobs = s.concurrent_queue.jobs.set n { job with body := job.body.access dic }) :
      Effect s (.access n) { s.send n job.body.operation with concurrent_queue := queue }
  | returns {a : KeyedAction ι ρ κ ο} (reading : ι → Option Nat) (hClient : a.onQueue = false) :
      Effect s a { s with reading := reading }

theorem KeyedState.step_effect {s s' : KeyedState ι ρ κ ο} {a : KeyedAction ι ρ κ ο}
    (h : s.step a = some s') : Effect s a s' := by
  cases a with
  | modify client key characters =>
    simp only [KeyedState.step, KeyedState.modify] at h
    split at h
    · cases h
      exact .modify client key characters
    · cases h
  | objectForKey client key =>
    simp only [KeyedState.step, KeyedState.objectForKey] at h
    split at h
    · cases h
      exact .submit false (.objectForKey key) key _ rfl fun obj k hOp => by cases hOp
    · cases h
  | setObject client obj key =>
    simp only [KeyedState.step, KeyedState.setObject] at h
    split at h
    · cases h
      refine .submit true (.setObject obj key) key _ rfl fun obj' k hOp => ?_
      cases hOp
      rfl
    · cases h
  | start n =>
    obtain ⟨queue, hStart, rfl⟩ := Option.map_eq_some_iff.mp h
    obtain ⟨job, hJob, _, _, hQueue⟩ := BarrierQueue.start_eq_some hStart
    exact .phase .running hJob (fun hFinished => by cases hFinished) hQueue
  | access n =>
    simp only [KeyedState.step, KeyedState.access] at h
    split at h
    · cases h
    · rename_i job hJob
      split at h
      · cases h
      · rename_i hAccessed
        obtain ⟨queue, hWork, rfl⟩ := Option.map_eq_some_iff.mp h
        obtain ⟨job', hJob', _, hQueue⟩ := BarrierQueue.work_eq_some hWork
        cases hJob.symm.trans hJob'
        exact .access _ hJob (by simpa using hAccessed) hQueue
  | finish n =>
    simp only [KeyedState.step, KeyedState.finish] at h
    split at h
    · cases h
    · rename_i job hJob
      split at h
      · rename_i hAccessed
        obtain ⟨queue, hFinish, rfl⟩ := Option.map_eq_some_iff.mp h
        obtain ⟨job', hJob', _, hQueue⟩ := BarrierQueue.finish_eq_some hFinish
        cases hJob.symm.trans hJob'
        exact .phase .finished hJob (fun _ => hAccessed) hQueue
      · cases h
  | returns client =>
    simp only [KeyedState.step, KeyedState.returns] at h
    split at h
    · cases h
    · split at h
      · cases h
      · split at h
        · cases h
          exact .returns _ rfl
        · cases h

end Effects

section Tracking

variable {s s' : KeyedState ι ρ κ ο}

@[simp] theorem KeyedState.send_characters (n : Nat) (operation : Operation ρ ο) :
    (s.send n operation).characters = s.characters := by
  cases operation <;> rfl

@[simp] theorem KeyedState.send_given (n : Nat) (operation : Operation ρ ο) :
    (s.send n operation).given = s.given := by
  cases operation <;> rfl

theorem KeyedState.mem_send {n : Nat} {operation : Operation ρ ο} {store : Store κ ο}
    (h : store ∈ (s.send n operation).stored) : store ∈ s.stored ∨
      ∃ obj key, operation = .setObject obj key ∧ store = ⟨n, obj, s.characters key⟩ := by
  cases operation with
  | objectForKey key => exact .inl h
  | setObject obj key =>
    obtain h | h := List.mem_append.mp h
    · exact .inl h
    · exact .inr ⟨obj, key, rfl, List.mem_singleton.mp h⟩

theorem KeyedState.mem_send_of_mem {n : Nat} {operation : Operation ρ ο} {store : Store κ ο}
    (h : store ∈ s.stored) : store ∈ (s.send n operation).stored := by
  cases operation with
  | objectForKey key => exact h
  | setObject obj key => exact List.mem_append_left _ h

theorem KeyedState.send_dictionary (n : Nat) (operation : Operation ρ ο)
    (h : s.userCenterDic = s.stored.foldl Store.apply fun _ => none) :
    (s.send n operation).userCenterDic = (s.send n operation).stored.foldl Store.apply fun _ => none := by
  cases operation with
  | objectForKey key => exact h
  | setObject obj key =>
    simp only [KeyedState.send, List.foldl_append, ← h]
    rfl

/-- What holds whatever happens to the keys. -/
structure Tracked (s : KeyedState ι ρ κ ο) : Prop where
  length_eq : s.given.length = s.concurrent_queue.jobs.length
  finished : ∀ (n : Nat) (job : Job (Block ρ ο)), s.concurrent_queue.jobs[n]? = some job →
    job.phase = .finished → job.body.accessed = true
  done : ∀ (n : Nat) (job : Job (Block ρ ο)) (obj : ο) (key : ρ), s.concurrent_queue.jobs[n]? = some job →
    job.body.operation = .setObject obj key → job.body.accessed = true →
    ∃ characters, ⟨n, obj, characters⟩ ∈ s.stored
  source : ∀ store ∈ s.stored, ∃ key,
    (operations s.concurrent_queue.jobs)[store.block]? = some (.setObject store.obj key)
  dictionary : s.userCenterDic = s.stored.foldl Store.apply fun _ => none

theorem Tracked.submit (h : Tracked s) (barrier : Bool) (operation : Operation ρ ο) (key : ρ) :
    Tracked (s.submit barrier operation key) where
  length_eq := by simp [KeyedState.submit, BarrierQueue.submit, h.length_eq]
  finished n job hJob hFinished := by
    obtain hOld | ⟨_, rfl⟩ := getElem?_concat_cases hJob
    · exact h.finished n job hOld hFinished
    · cases hFinished
  done n job obj k hJob hOp hAccessed := by
    obtain hOld | ⟨_, rfl⟩ := getElem?_concat_cases hJob
    · exact h.done n job obj k hOld hOp hAccessed
    · cases hAccessed
  source store hStore := by
    obtain ⟨k, hOp⟩ := h.source store hStore
    have hBound := (List.getElem?_eq_some_iff.mp hOp).1
    refine ⟨k, ?_⟩
    simp only [KeyedState.submit, BarrierQueue.submit, operations, List.map_append]
    exact (List.getElem?_append_left hBound).trans hOp
  dictionary := h.dictionary

theorem Tracked.phase (h : Tracked s) {n : Nat} {job : Job (Block ρ ο)} {queue : BarrierQueue (Block ρ ο)}
    {phase : Phase} (hJob : s.concurrent_queue.jobs[n]? = some job)
    (hFinished : phase = .finished → job.body.accessed = true)
    (hQueue : queue.jobs = s.concurrent_queue.jobs.set n { job with phase := phase }) :
    Tracked { s with concurrent_queue := queue } where
  length_eq := by simp [hQueue, h.length_eq]
  finished m a ha hPhase := by
    obtain ⟨_, hOld⟩ | ⟨_, rfl⟩ := getElem?_set_cases (hQueue ▸ ha)
    · exact h.finished m a hOld hPhase
    · exact hFinished hPhase
  done m a obj key ha hOp hAccessed := by
    obtain ⟨_, hOld⟩ | ⟨rfl, rfl⟩ := getElem?_set_cases (hQueue ▸ ha)
    · exact h.done m a obj key hOld hOp hAccessed
    · exact h.done m job obj key hJob hOp hAccessed
  source store hStore := by
    have hSame : operations queue.jobs = operations s.concurrent_queue.jobs :=
      hQueue ▸ operations_set hJob rfl
    simp only [hSame]
    exact h.source store hStore
  dictionary := h.dictionary

theorem Tracked.access (h : Tracked s) {n : Nat} {job : Job (Block ρ ο)} {queue : BarrierQueue (Block ρ ο)}
    {dic : ρ → Option ο} (hJob : s.concurrent_queue.jobs[n]? = some job)
    (hQueue : queue.jobs = s.concurrent_queue.jobs.set n { job with body := job.body.access dic }) :
    Tracked { s.send n job.body.operation with concurrent_queue := queue } where
  length_eq := by simp [hQueue, h.length_eq]
  finished m a ha hPhase := by
    obtain ⟨_, hOld⟩ | ⟨_, rfl⟩ := getElem?_set_cases (hQueue ▸ ha)
    · exact h.finished m a hOld hPhase
    · exact Block.access_accessed dic job.body
  done m a obj key ha hOp hAccessed := by
    obtain ⟨_, hOld⟩ | ⟨rfl, rfl⟩ := getElem?_set_cases (hQueue ▸ ha)
    · obtain ⟨characters, hStore⟩ := h.done m a obj key hOld hOp hAccessed
      exact ⟨characters, KeyedState.mem_send_of_mem hStore⟩
    · rw [Block.access_operation] at hOp
      refine ⟨s.characters key, ?_⟩
      simp only [hOp, KeyedState.send]
      exact List.mem_append_right _ List.mem_cons_self
  source store hStore := by
    have hSame : operations queue.jobs = operations s.concurrent_queue.jobs := by
      rw [hQueue]
      exact operations_set hJob (Block.access_operation dic job.body)
    simp only [hSame]
    obtain hOld | ⟨obj, key, hOp, rfl⟩ := KeyedState.mem_send hStore
    · exact h.source store hOld
    · exact ⟨key, by rw [operations_getElem?, hJob, Option.map_some, hOp]⟩
  dictionary := KeyedState.send_dictionary n _ h.dictionary

theorem Tracked.step [DecidableEq ι] [DecidableEq ρ] {a : KeyedAction ι ρ κ ο} (h : Tracked s)
    (hStep : s.step a = some s') : Tracked s' := by
  cases KeyedState.step_effect hStep with
  | modify client key characters => exact ⟨h.length_eq, h.finished, h.done, h.source, h.dictionary⟩
  | submit barrier operation key reading _ _ =>
    have hNext := h.submit barrier operation key
    exact ⟨hNext.length_eq, hNext.finished, hNext.done, hNext.source, hNext.dictionary⟩
  | phase phase hJob hFinished hQueue => exact h.phase hJob hFinished hQueue
  | access dic hJob _ hQueue => exact h.access hJob hQueue
  | returns reading _ => exact ⟨h.length_eq, h.finished, h.done, h.source, h.dictionary⟩

/-- What holds as long as the keys of pending writes are left alone. -/
structure Intact (s : KeyedState ι ρ κ ο) : Prop where
  stores : ∀ store ∈ s.stored, s.given[store.block]? = some store.characters
  pending : ∀ (n : Nat) (job : Job (Block ρ ο)) (obj : ο) (key : ρ), s.concurrent_queue.jobs[n]? = some job →
    job.body.operation = .setObject obj key → job.body.accessed = false →
    s.given[n]? = some (s.characters key)

omit [DecidableEq κ] in
theorem Intact.submit (h : Intact s) (hLength : s.given.length = s.concurrent_queue.jobs.length)
    (barrier : Bool) {operation : Operation ρ ο} {key : ρ}
    (hKey : ∀ obj k, operation = .setObject obj k → k = key) : Intact (s.submit barrier operation key) where
  stores store hStore := by
    have hGiven := h.stores store hStore
    exact (List.getElem?_append_left (List.getElem?_eq_some_iff.mp hGiven).1).trans hGiven
  pending n job obj k hJob hOp hPending := by
    obtain hOld | ⟨rfl, rfl⟩ := getElem?_concat_cases hJob
    · have hGiven := h.pending n job obj k hOld hOp hPending
      exact (List.getElem?_append_left (List.getElem?_eq_some_iff.mp hGiven).1).trans hGiven
    · rw [hKey obj k hOp, ← hLength]
      exact List.getElem?_concat_length

omit [DecidableEq κ] in
theorem Intact.phase (h : Intact s) {n : Nat} {job : Job (Block ρ ο)} {queue : BarrierQueue (Block ρ ο)}
    {phase : Phase} (hJob : s.concurrent_queue.jobs[n]? = some job)
    (hQueue : queue.jobs = s.concurrent_queue.jobs.set n { job with phase := phase }) :
    Intact { s with concurrent_queue := queue } where
  stores := h.stores
  pending m a obj key ha hOp hPending := by
    obtain ⟨_, hOld⟩ | ⟨rfl, rfl⟩ := getElem?_set_cases (hQueue ▸ ha)
    · exact h.pending m a obj key hOld hOp hPending
    · exact h.pending m job obj key hJob hOp hPending

theorem Intact.access (h : Intact s) {n : Nat} {job : Job (Block ρ ο)} {queue : BarrierQueue (Block ρ ο)}
    {dic : ρ → Option ο} (hJob : s.concurrent_queue.jobs[n]? = some job)
    (hAccessed : job.body.accessed = false)
    (hQueue : queue.jobs = s.concurrent_queue.jobs.set n { job with body := job.body.access dic }) :
    Intact { s.send n job.body.operation with concurrent_queue := queue } where
  stores store hStore := by
    simp only [KeyedState.send_given]
    obtain hOld | ⟨obj, key, hOp, rfl⟩ := KeyedState.mem_send hStore
    · exact h.stores store hOld
    · exact h.pending n job obj key hJob hOp hAccessed
  pending m a obj key ha hOp hPending := by
    simp only [KeyedState.send_given, KeyedState.send_characters]
    obtain ⟨_, hOld⟩ | ⟨_, rfl⟩ := getElem?_set_cases (hQueue ▸ ha)
    · exact h.pending m a obj key hOld hOp hPending
    · rw [Block.access_accessed] at hPending
      cases hPending

theorem Intact.step [DecidableEq ι] [DecidableEq ρ] {a : KeyedAction ι ρ κ ο} (h : Intact s)
    (hTracked : Tracked s) (hLeaves : LeavesPending s a) (hStep : s.step a = some s') : Intact s' := by
  cases KeyedState.step_effect hStep with
  | modify client key characters =>
    refine ⟨h.stores, fun n job obj k hJob hOp hPending => ?_⟩
    rw [h.pending n job obj k hJob hOp hPending]
    obtain rfl | hk := eq_or_ne k key
    · obtain hSame | hDone := hLeaves
      · rw [hSame, Function.update_eq_self]
      · rw [hDone n job obj hJob hOp] at hPending
        cases hPending
    · simp only [Function.update_of_ne hk]
  | submit barrier operation key reading _ hKey =>
    have hNext := h.submit hTracked.length_eq barrier hKey
    exact ⟨hNext.stores, hNext.pending⟩
  | phase phase hJob _ hQueue => exact h.phase hJob hQueue
  | access dic hJob hAccessed hQueue => exact h.access hJob hAccessed hQueue
  | returns reading _ => exact ⟨h.stores, h.pending⟩

theorem Intact.storesGiven (h : Intact s) (hTracked : Tracked s) : StoresGiven s where
  given store hStore := ⟨h.stores store hStore, hTracked.source store hStore⟩
  dictionary := hTracked.dictionary

end Tracking

section Draining

variable [DecidableEq ι] [DecidableEq ρ]

def KeyedState.QueueStep (s s' : KeyedState ι ρ κ ο) : Prop :=
  ∃ a : KeyedAction ι ρ κ ο, a.onQueue = true ∧ s.step a = some s'

theorem KeyedState.queueStep_drives :
    Drives (fun s : KeyedState ι ρ κ ο => s.concurrent_queue) Block.accessed KeyedState.QueueStep where
  start {s n q} hStart :=
    ⟨{ s with concurrent_queue := q }, ⟨.start n, rfl, by simp [KeyedState.step, hStart]⟩, rfl⟩
  work {s n job} hJob hRunning hAccessed := by
    obtain ⟨q, hWork⟩ := BarrierQueue.exists_work hJob hRunning
      (Block.access fun key => s.userCenterDic (s.characters key))
    obtain ⟨job', hJob', _, hJobs⟩ := BarrierQueue.work_eq_some hWork
    cases hJob.symm.trans hJob'
    refine ⟨{ s.send n job.body.operation with concurrent_queue := q }, _, ⟨.access n, rfl, ?_⟩,
      Block.access_accessed _ job.body, hJobs⟩
    simp [KeyedState.step, KeyedState.access, hJob, hAccessed, hWork]
  finish {s n q job} hJob hAccessed hFinish :=
    ⟨{ s with concurrent_queue := q },
      ⟨.finish n, rfl, by simp [KeyedState.step, KeyedState.finish, hJob, hAccessed, hFinish]⟩, rfl⟩

/-- Since `s` only the queue has moved; `n` is a write of `s` that was pending there. -/
structure Drained (s : KeyedState ι ρ κ ο) (n : Nat) (obj : ο) (key : ρ) (t : KeyedState ι ρ κ ο) : Prop where
  tracked : Tracked t
  characters : t.characters = s.characters
  given : t.given = s.given
  write : ∀ job : Job (Block ρ ο), t.concurrent_queue.jobs[n]? = some job → job.body.accessed = true →
    ⟨n, obj, s.characters key⟩ ∈ t.stored
  operation : (operations t.concurrent_queue.jobs)[n]? = some (.setObject obj key)

theorem Drained.step {s t t' : KeyedState ι ρ κ ο} {n : Nat} {obj : ο} {key : ρ} (h : Drained s n obj key t)
    (hStep : KeyedState.QueueStep t t') : Drained s n obj key t' := by
  obtain ⟨a, ha, hStep⟩ := hStep
  have hTracked := h.tracked.step hStep
  cases KeyedState.step_effect hStep with
  | modify client key characters => cases ha
  | submit barrier operation key reading hClient _ =>
    rw [hClient] at ha
    cases ha
  | returns reading hClient =>
    rw [hClient] at ha
    cases ha
  | @phase _ m job queue phase hJob _ hQueue =>
    have hSame : operations queue.jobs = operations t.concurrent_queue.jobs :=
      hQueue ▸ operations_set hJob rfl
    refine ⟨hTracked, h.characters, h.given, fun a ha hAccessed => ?_, hSame ▸ h.operation⟩
    obtain ⟨_, hOld⟩ | ⟨rfl, rfl⟩ := getElem?_set_cases (hQueue ▸ ha)
    · exact h.write a hOld hAccessed
    · exact h.write job hJob hAccessed
  | @access m job queue dic hJob _ hQueue =>
    have hSame : operations queue.jobs = operations t.concurrent_queue.jobs := by
      rw [hQueue]
      exact operations_set hJob (Block.access_operation dic job.body)
    refine ⟨hTracked, ?_, ?_, fun a ha hAccessed => ?_, hSame ▸ h.operation⟩
    · simp only [KeyedState.send_characters, h.characters]
    · simp only [KeyedState.send_given, h.given]
    · obtain ⟨_, hOld⟩ | ⟨rfl, rfl⟩ := getElem?_set_cases (hQueue ▸ ha)
      · exact KeyedState.mem_send_of_mem (h.write a hOld hAccessed)
      · have hOp := h.operation
        rw [operations_getElem?, hJob, Option.map_some, Option.some.injEq] at hOp
        simp only [hOp, KeyedState.send, h.characters]
        exact List.mem_append_right _ List.mem_cons_self

/-- The queue alone can bring a pending write to the dictionary, with the characters that
its key has then. -/
theorem Tracked.exists_stored {s : KeyedState ι ρ κ ο} (h : Tracked s) {n : Nat} {job : Job (Block ρ ο)}
    {obj : ο} {key : ρ} (hJob : s.concurrent_queue.jobs[n]? = some job)
    (hOp : job.body.operation = .setObject obj key) (hPending : job.body.accessed = false) :
    ∃ s', Relation.ReflTransGen KeyedState.QueueStep s s' ∧ s'.given = s.given ∧
      ⟨n, obj, s.characters key⟩ ∈ s'.stored := by
  have hn := (List.getElem?_eq_some_iff.mp hJob).1
  have hStart : Drained s n obj key s := by
    refine ⟨h, rfl, rfl, fun a ha hAccessed => ?_, by rw [operations_getElem?, hJob, Option.map_some, hOp]⟩
    cases hJob.symm.trans ha
    rw [hPending] at hAccessed
    cases hAccessed
  obtain ⟨s', hSteps, hLength, hFinished⟩ := KeyedState.queueStep_drives.drains s (n := n + 1) hn
  have hDrained : Drained s n obj key s' := by
    clear hLength hFinished
    induction hSteps with
    | refl => exact hStart
    | tail _ hStep ih => exact ih.step hStep
  have hLast := List.getElem?_eq_getElem (hLength ▸ hn)
  exact ⟨s', hSteps, hDrained.given, hDrained.write _ hLast
    (hDrained.tracked.finished n _ hLast (hFinished n _ (Nat.lt_succ_self n) hLast))⟩

/-- The calls made so far: each is or can be stored under the characters given to it. -/
def CallsStored (s : KeyedState ι ρ κ ο) : Prop :=
  ∀ n obj key, (operations s.concurrent_queue.jobs)[n]? = some (.setObject obj key) →
    ∃ s' characters, Relation.ReflTransGen KeyedState.QueueStep s s' ∧ s.given[n]? = some characters ∧
      ⟨n, obj, characters⟩ ∈ s'.stored

theorem Intact.callsStored {s : KeyedState ι ρ κ ο} (h : Intact s) (hTracked : Tracked s) : CallsStored s := by
  intro n obj key hOp
  rw [operations_getElem?, Option.map_eq_some_iff] at hOp
  obtain ⟨job, hJob, hOp⟩ := hOp
  cases hAccessed : job.body.accessed with
  | true =>
    obtain ⟨characters, hStore⟩ := hTracked.done n job obj key hJob hOp hAccessed
    exact ⟨s, characters, .refl, h.stores _ hStore, hStore⟩
  | false =>
    obtain ⟨s', hSteps, _, hStore⟩ := hTracked.exists_stored hJob hOp hAccessed
    exact ⟨s', _, hSteps, h.pending n job obj key hJob hOp hAccessed, hStore⟩

theorem tracked_of_reachable {characters : ρ → κ} {s : KeyedState ι ρ κ ο}
    (h : (mutableKeys ι ο characters).Reachable s) : Tracked s := by
  refine Machine.invariant ?_ (fun _ _ _ hs hStep => hs.step hStep) h
  exact ⟨rfl, (fun n job h => by cases h), (fun n job obj key h => by cases h),
    (fun store h => by cases h), rfl⟩

/-- As long as no key is modified under a pending write, every call is stored under the
characters its key had then. Any other modification lets the queue store under others. -/
theorem setObject_stores_given (characters : ρ → κ) (actions : List (KeyedAction ι ρ κ ο))
    (hLeaves : ∀ s a s', (mutableKeys ι ο characters).Takes actions s a s' → LeavesPending s a) :
    (∀ s, (mutableKeys ι ο characters).Visits actions s → StoresGiven s ∧ CallsStored s) ∧
    ∀ s client key changed s', (mutableKeys ι ο characters).run actions = some s →
      (mutableKeys ι ο characters).step s (.modify client key changed) = some s' →
      ¬ LeavesPending s (.modify client key changed) →
      ∃ s'', Relation.ReflTransGen KeyedState.QueueStep s' s'' ∧ ¬ StoresGiven s'' := by
  have hIntact : ∀ s, (mutableKeys ι ο characters).Visits actions s → Intact s := by
    intro s hVisits
    refine Machine.visits_induction (P := Intact) ?_ (fun t a t' hTakes ht => ?_) hVisits
    · exact ⟨(fun store h => by cases h), (fun n job obj key h => by cases h)⟩
    · have hTracked := tracked_of_reachable hTakes.visits.reachable
      obtain ⟨_, _, _, _, hStep⟩ := id hTakes
      exact ht.step hTracked (hLeaves t a t' hTakes) hStep
  constructor
  · intro s hVisits
    have hTracked := tracked_of_reachable hVisits.reachable
    exact ⟨(hIntact s hVisits).storesGiven hTracked, (hIntact s hVisits).callsStored hTracked⟩
  · intro s client key changed s' hRun hStep hNot
    have hStep : s.modify client key changed = some s' := hStep
    have hVisits : (mutableKeys ι ο characters).Visits actions s := ⟨actions, [], by simp, hRun⟩
    have hTracked : Tracked s' := (tracked_of_reachable hVisits.reachable).step
      (a := .modify client key changed) hStep
    obtain ⟨hChanged, hPending⟩ := not_or.mp hNot
    push Not at hPending
    obtain ⟨n, job, obj, hJob, hOp, hPending⟩ := hPending
    have hGiven := (hIntact s hVisits).pending n job obj key hJob hOp (by simpa using hPending)
    obtain ⟨hJobs, hCharacters, hSame⟩ : s'.concurrent_queue.jobs[n]? = some job ∧
        s'.characters key = changed ∧ s'.given = s.given := by
      unfold KeyedState.modify at hStep
      split at hStep
      · cases hStep
        exact ⟨hJob, Function.update_self _ _ _, rfl⟩
      · cases hStep
    obtain ⟨s'', hSteps, hGiven', hStore⟩ := hTracked.exists_stored hJobs hOp (by simpa using hPending)
    refine ⟨s'', hSteps, fun hStores => hChanged ?_⟩
    have hBoth := (hStores.given _ hStore).1
    rw [hGiven', hSame, hGiven, hCharacters] at hBoth
    exact (Option.some.inj hBoth).symm

/-- The key is modified once its write has reached the dictionary. -/
def modifiedAfterwards : List (KeyedAction Unit Unit Char Nat) :=
  [.setObject () 7 (), .start 0, .access 0, .modify () () 'b']

theorem setObject_stores_given_modified_afterwards :
    let s := (mutableKeys Unit Nat fun _ : Unit => 'a').after modifiedAfterwards rfl
    s.stored.map (fun store => (store.block, store.obj, store.characters)) = [(0, 7, 'a')] ∧
      StoresGiven s ∧ CallsStored s := by
  refine ⟨rfl, (setObject_stores_given (fun _ => 'a') modifiedAfterwards ?_).1 _
    ⟨_, [], (List.append_nil _).symm, (Option.some_get _).symm⟩⟩
  rintro s a s' ⟨pre, post, hSplit, hRun, -⟩
  cases a with
  | modify client key characters =>
    obtain rfl : pre = [.setObject () 7 (), .start 0, .access 0] := by
      rcases pre with _ | ⟨_, _ | ⟨_, _ | ⟨_, _ | ⟨_, pre⟩⟩⟩⟩ <;> simp [modifiedAfterwards] at hSplit
      obtain ⟨rfl, rfl, rfl, _⟩ := hSplit
      rfl
    cases hRun
    refine .inr fun n job obj hJob _ => ?_
    cases n with
    | zero =>
      cases hJob
      rfl
    | succ n => cases hJob
  | objectForKey | setObject | start | access | finish | returns => trivial

/-- The object 7 is given to the key `a` and stored under `b`. -/
theorem modified_key_stored_under_other_characters :
    ¬ ∀ actions s, (mutableKeys Unit Nat fun _ : Unit => 'a').Visits actions s → StoresGiven s := by
  intro h
  have hStores := h [.setObject () 7 (), .modify () () 'b', .start 0, .access 0]
    ((mutableKeys Unit Nat fun _ : Unit => 'a').after
      [.setObject () 7 (), .modify () () 'b', .start 0, .access 0] rfl)
    ⟨_, [], (List.append_nil _).symm, (Option.some_get _).symm⟩
  have hGiven : ['a'][0]? = some 'b' := (hStores.given ⟨0, 7, 'b'⟩ List.mem_cons_self).1
  exact absurd hGiven (by decide)

end Draining

end OCNote.UserCenter
