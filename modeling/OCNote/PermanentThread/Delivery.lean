import OCNote.PermanentThread.MBPermanentThread

/-! # Delivery to the inner thread

Whatever the programs of the clients, messages are performed in posting order, once
each and by the inner thread, and a caller of `stop` waits exactly as long as its
message is in the mailbox. -/

namespace OCNote.PermanentThread
open OCNote.Support
set_option autoImplicit false

universe u v

variable {ι : Type v} {τ : Type u}

def Message.sender : Message ι τ → ι
  | .excuteTaskBlock _ sender => sender
  | .stop sender => sender

def Message.task? : Message ι τ → Option τ
  | .excuteTaskBlock task _ => some task
  | .stop _ => none

def stoppers (messages : List (Message ι τ)) : List ι :=
  messages.filterMap fun
    | .excuteTaskBlock _ _ => none
    | .stop sender => some sender

@[simp] theorem stoppers_nil : stoppers ([] : List (Message ι τ)) = [] := rfl

@[simp] theorem stoppers_append (ms ns : List (Message ι τ)) :
    stoppers (ms ++ ns) = stoppers ms ++ stoppers ns := List.filterMap_append

@[simp] theorem stoppers_task (task : τ) (i : ι) (ms : List (Message ι τ)) :
    stoppers (.excuteTaskBlock task i :: ms) = stoppers ms := rfl

@[simp] theorem stoppers_stop (i : ι) (ms : List (Message ι τ)) :
    stoppers (.stop i :: ms) = i :: stoppers ms := rfl

theorem mem_stoppers {ms : List (Message ι τ)} {i : ι} : i ∈ stoppers ms ↔ .stop i ∈ ms := by
  induction ms with
  | nil => simp
  | cons m ms ih => cases m <;> simp [ih]

theorem eq_nil_of_append_stop {xs rest ms : List (Message ι τ)} {i j : ι} (hNone : stoppers ms = [])
    (h : xs ++ .stop i :: rest = ms ++ [.stop j]) : rest = [] := by
  obtain rfl | ⟨init, last, rfl⟩ := List.eq_nil_or_concat rest
  · rfl
  · have hSplit : (xs ++ .stop i :: init) ++ [last] = ms ++ [.stop j] := by simpa using h
    have hms := (List.append_inj' hSplit rfl).1
    rw [← hms] at hNone
    simp at hNone

def runBy (messages : List (Message ι τ)) : List (Thread ι × τ) :=
  (messages.filterMap Message.task?).map fun task => (.inner, task)

theorem runBy_append (ms ns : List (Message ι τ)) : runBy (ms ++ ns) = runBy ms ++ runBy ns := by
  simp [runBy]

theorem test_cases {s s' : State ι τ} (h : test s = some s') : s.loop = .test ∧
    s' = { s with loop := if s.weakSelf && !s.stopped then .pass false else .left } := by
  unfold test at h
  split at h
  · rename_i hLoop
    exact ⟨hLoop, (Option.some.inj h).symm⟩
  · cases h

theorem endPass_cases {s s' : State ι τ} (h : endPass s = some s') :
    s.loop = .pass true ∧ s' = { s with loop := .test } := by
  unfold endPass at h
  split at h
  · rename_i hLoop
    exact ⟨hLoop, (Option.some.inj h).symm⟩
  · cases h

variable [DecidableEq ι]

theorem finish_todo_of_ne (s : State ι τ) {i j : ι} (h : j ≠ i) : (s.finish i).todo j = s.todo j :=
  Function.update_of_ne h _ _

theorem goto_point_of_ne (s : State ι τ) (p : Point) {i j : ι} (h : j ≠ i) :
    (s.goto i p).point j = s.point j := Function.update_of_ne h _ _

@[simp] theorem goto_point_self (s : State ι τ) (p : Point) (i : ι) : (s.goto i p).point i = p :=
  Function.update_self ..

@[simp] theorem finish_point_self (s : State ι τ) (i : ι) : (s.finish i).point i = .ready :=
  Function.update_self ..

/-- What one step of client `i` can do. -/
inductive ClientMove (s : State ι τ) (i : ι) : State ι τ → Prop
  | release {rest} (hTodo : s.todo i = .release :: rest) (hPoint : s.point i = .ready) :
      ClientMove s i ({ s with references := s.references - 1 }.finish i)
  | refuse {c rest} (hTodo : s.todo i = .call c :: rest) (hPoint : s.point i = .ready)
      (hRefused : s.innerThread = false ∨ c = .excuteTaskBlock none) : ClientMove s i (s.finish i)
  | check {c rest} (hTodo : s.todo i = .call c :: rest) (hPoint : s.point i = .ready)
      (hInner : s.innerThread = true) (hTask : c ≠ .excuteTaskBlock none) :
      ClientMove s i (s.goto i .checked)
  | read {c rest} (hTodo : s.todo i = .call c :: rest) (hPoint : s.point i = .checked) :
      ClientMove s i (s.goto i (.target s.innerThread))
  | start {rest} (hTodo : s.todo i = .call .run :: rest) (hPoint : s.point i = .target true)
      (hLoop : s.loop = .unstarted) : ClientMove s i ({ s with loop := .test }.finish i)
  | raise {rest} (hTodo : s.todo i = .call .run :: rest) (hPoint : s.point i = .target true)
      (hLoop : s.loop ≠ .unstarted) : ClientMove s i (s.goto i .raised)
  | startNil {rest} (hTodo : s.todo i = .call .run :: rest) (hPoint : s.point i = .target false) :
      ClientMove s i (s.finish i)
  | postTask {task rest} (hTodo : s.todo i = .call (.excuteTaskBlock (some task)) :: rest)
      (hPoint : s.point i = .target true) :
      ClientMove s i ((s.post (.excuteTaskBlock task i)).finish i)
  | postStop {rest} (hTodo : s.todo i = .call .stop :: rest) (hPoint : s.point i = .target true) :
      ClientMove s i ((s.post (.stop i)).goto i .waiting)
  | resume {c rest} (hTodo : s.todo i = .call c :: rest) (hPoint : s.point i = .performed) :
      ClientMove s i (s.finish i)

theorem ClientMove.of_guarded {s s' : State ι τ} {i : ι} {c : Call τ} {rest : List (Statement τ)}
    {refused : Bool} {use : Bool → Option (State ι τ)} (hTodo : s.todo i = .call c :: rest)
    (hRefused : refused = true ↔ s.innerThread = false ∨ c = .excuteTaskBlock none)
    (hUse : ∀ flag t, s.point i = .target flag → use flag = some t → ClientMove s i t)
    (h : guarded s i refused use = some s') : ClientMove s i s' := by
  unfold guarded at h
  split at h
  · rename_i hPoint
    cases hr : refused with
    | true =>
      simp only [hr, if_true, Option.some.injEq] at h
      exact h ▸ .refuse hTodo hPoint (hRefused.mp hr)
    | false =>
      simp only [hr, Bool.false_eq_true, if_false, Option.some.injEq] at h
      rw [hr] at hRefused
      have hNot := (not_congr hRefused).mp (by decide)
      rw [not_or, Bool.not_eq_false] at hNot
      exact h ▸ .check hTodo hPoint hNot.1 hNot.2
  · rename_i hPoint
    exact Option.some.inj h ▸ .read hTodo hPoint
  · rename_i flag hPoint
    exact hUse flag s' hPoint h
  · rename_i hPoint
    exact Option.some.inj h ▸ .resume hTodo hPoint
  · cases h
  · cases h

theorem client_cases {s s' : State ι τ} {i : ι} (h : client s i = some s') : ClientMove s i s' := by
  unfold client at h
  split at h
  · cases h
  · rename_i hTodo
    split at h
    · rename_i hPoint
      exact Option.some.inj h ▸ .release hTodo hPoint
    · cases h
  · rename_i hTodo
    refine .of_guarded hTodo (by simp) (fun flag t hPoint hUse => ?_) h
    cases flag with
    | false => exact Option.some.inj hUse ▸ .startNil hTodo hPoint
    | true =>
      by_cases hLoop : s.loop = .unstarted
      · simp only [Bool.not_true, Bool.false_eq_true, hLoop, if_true, if_false, Option.some.injEq] at hUse
        exact hUse ▸ .start hTodo hPoint hLoop
      · simp only [Bool.not_true, Bool.false_eq_true, hLoop, if_false, Option.some.injEq] at hUse
        exact hUse ▸ .raise hTodo hPoint hLoop
  · rename_i task _ hTodo
    refine .of_guarded hTodo (by cases task <;> simp) (fun flag t hPoint hUse => ?_) h
    cases flag with
    | false => cases hUse
    | true =>
      cases task with
      | none => cases hUse
      | some task => exact Option.some.inj hUse ▸ .postTask hTodo hPoint
  · rename_i hTodo
    refine .of_guarded hTodo (by simp) (fun flag t hPoint hUse => ?_) h
    cases flag with
    | false => cases hUse
    | true => exact Option.some.inj hUse ▸ .postStop hTodo hPoint

/-- The mailbox is first in, first out, and a caller of `stop` waits for its own message. -/
structure Delivers (s : State ι τ) : Prop where
  fifo : s.posted = s.performed ++ s.mailbox
  executed : s.executed = runBy s.performed
  waits : ∀ i, i ∈ stoppers s.mailbox ↔ s.point i = .waiting
  once : (stoppers s.mailbox).Nodup
  stopped : s.stopped = true ↔ stoppers s.performed ≠ []
  inner : s.innerThread = !s.stopped

omit [DecidableEq ι] in
/-- As long as no stop has been posted the object has its thread. -/
theorem Delivers.innerThread_of_none {s : State ι τ} (h : Delivers s) (hNone : stoppers s.posted = []) :
    s.innerThread = true := by
  rw [h.fifo, stoppers_append, List.append_eq_nil_iff] at hNone
  have hGoing : s.stopped = false := by
    by_contra hs
    exact h.stopped.mp (by simpa using hs) hNone.1
  rw [h.inner, hGoing]
  rfl

omit [DecidableEq ι] in
theorem Delivers.start (program : ι → List (Statement τ)) : Delivers (initial program) where
  fifo := rfl
  executed := rfl
  waits i := by simp [initial]
  once := by simp [initial]
  stopped := by simp [initial]
  inner := rfl

theorem Delivers.of_point {s s' : State ι τ} {i : ι} (h : Delivers s) {p : Point}
    (hPoint : s.point i ≠ .waiting) (hp : p ≠ .waiting)
    (hNext : s'.point = Function.update s.point i p) (hPosted : s'.posted = s.posted)
    (hPerformed : s'.performed = s.performed) (hMailbox : s'.mailbox = s.mailbox)
    (hExecuted : s'.executed = s.executed) (hStopped : s'.stopped = s.stopped)
    (hInner : s'.innerThread = s.innerThread) : Delivers s' where
  fifo := by rw [hPosted, hPerformed, hMailbox, h.fifo]
  executed := by rw [hExecuted, hPerformed, h.executed]
  waits j := by
    rw [hMailbox, h.waits, hNext]
    obtain rfl | hji := eq_or_ne j i
    · simp [hPoint, hp]
    · rw [Function.update_of_ne hji]
  once := by rw [hMailbox]; exact h.once
  stopped := by rw [hStopped, hPerformed, h.stopped]
  inner := by rw [hInner, hStopped, h.inner]

theorem Delivers.post_task {s : State ι τ} (h : Delivers s) {i : ι} (task : τ)
    (hPoint : s.point i ≠ .waiting) :
    Delivers ((s.post (.excuteTaskBlock task i)).finish i) := by
  have hPost : Delivers (s.post (.excuteTaskBlock task i)) :=
    { fifo := by simp [State.post, h.fifo]
      executed := h.executed
      waits := fun j => by simp [State.post, h.waits]
      once := by simpa [State.post] using h.once
      stopped := h.stopped
      inner := h.inner }
  exact hPost.of_point (i := i) (p := .ready) hPoint (by decide) rfl rfl rfl rfl rfl rfl rfl

theorem Delivers.post_stop {s : State ι τ} (h : Delivers s) {i : ι} (hPoint : s.point i ≠ .waiting) :
    Delivers ((s.post (.stop i)).goto i .waiting) where
  fifo := by simp [State.post, State.goto, h.fifo]
  executed := h.executed
  waits j := by
    obtain rfl | hji := eq_or_ne j i
    · simp [State.post, State.goto]
    · simp [State.post, State.goto, h.waits, hji]
  once := by
    have hFresh : i ∉ stoppers s.mailbox := fun hi => hPoint ((h.waits i).mp hi)
    simp only [State.post, State.goto, stoppers_append, stoppers_stop, stoppers_nil]
    exact List.nodup_append.mpr ⟨h.once, by simp, fun j hj k hk => by
      rw [List.mem_singleton.mp hk]
      rintro rfl
      exact hFresh hj⟩
  stopped := h.stopped
  inner := h.inner

theorem Delivers.client {s s' : State ι τ} {i : ι} (h : Delivers s) (hMove : ClientMove s i s') :
    Delivers s' := by
  cases hMove with
  | release _ hPoint | refuse _ hPoint _ | start _ hPoint _ | startNil _ hPoint | resume _ hPoint =>
    exact h.of_point (i := i) (p := .ready) (by simp [hPoint]) (by decide) rfl rfl rfl rfl rfl rfl rfl
  | check _ hPoint _ _ =>
    exact h.of_point (i := i) (p := .checked) (by simp [hPoint]) (by decide) rfl rfl rfl rfl rfl rfl rfl
  | read _ hPoint =>
    exact h.of_point (i := i) (p := .target s.innerThread) (by simp [hPoint]) (by simp) rfl rfl rfl rfl
      rfl rfl rfl
  | raise _ hPoint _ =>
    exact h.of_point (i := i) (p := .raised) (by simp [hPoint]) (by decide) rfl rfl rfl rfl rfl rfl rfl
  | postTask _ hPoint => exact h.post_task _ (by simp [hPoint])
  | postStop _ hPoint => exact h.post_stop (by simp [hPoint])

def taken (s : State ι τ) (m : Message ι τ) (rest : List (Message ι τ)) : State ι τ :=
  deliver { s with mailbox := rest, performed := s.performed ++ [m], loop := .pass true } m

theorem taken_todo (s : State ι τ) (m : Message ι τ) (rest : List (Message ι τ)) :
    (taken s m rest).todo = s.todo := by cases m <;> rfl

theorem perform_cases {s s' : State ι τ} (h : perform s = some s') :
    ∃ handled m rest, s.loop = .pass handled ∧ s.mailbox = m :: rest ∧ s' = taken s m rest := by
  unfold perform at h
  split at h
  · rename_i handled m rest hLoop hMailbox
    exact ⟨handled, m, rest, hLoop, hMailbox, (Option.some.inj h).symm⟩
  · cases h

theorem Delivers.perform {s : State ι τ} (h : Delivers s) {m : Message ι τ}
    {rest : List (Message ι τ)} (hMailbox : s.mailbox = m :: rest) : Delivers (taken s m rest) := by
  have hOnce := h.once
  cases m with
  | excuteTaskBlock task sender =>
    exact
      { fifo := by simp [taken, deliver, __excuteTaskBlock, h.fifo, hMailbox]
        executed := by simp [taken, deliver, __excuteTaskBlock, h.executed, runBy, Message.task?]
        waits := fun j => by simp [taken, deliver, __excuteTaskBlock, ← h.waits, hMailbox]
        once := by simpa [taken, deliver, __excuteTaskBlock, hMailbox] using hOnce
        stopped := by simp [taken, deliver, __excuteTaskBlock, h.stopped]
        inner := h.inner }
  | stop sender =>
    have hWaits := h.waits
    simp only [hMailbox, stoppers_stop, List.nodup_cons, List.mem_cons] at hOnce hWaits
    exact
      { fifo := by simp [taken, deliver, __stop, State.goto, h.fifo, hMailbox]
        executed := by simp [taken, deliver, __stop, State.goto, h.executed, runBy, Message.task?]
        waits := fun j => by
          obtain rfl | hj := eq_or_ne j sender
          · simp [taken, deliver, __stop, State.goto, hOnce.1]
          · simp [taken, deliver, __stop, State.goto, ← hWaits, hj]
        once := hOnce.2
        stopped := by simp [taken, deliver, __stop, State.goto]
        inner := rfl }

omit [DecidableEq ι] in
theorem Delivers.of_loop {s : State ι τ} (h : Delivers s) (loop : Loop) :
    Delivers { s with loop := loop } := ⟨h.fifo, h.executed, h.waits, h.once, h.stopped, h.inner⟩

theorem Delivers.step {s s' : State ι τ} {a : Action ι} (h : Delivers s)
    (hStep : step s a = some s') : Delivers s' := by
  cases a with
  | client i => exact h.client (client_cases hStep)
  | test =>
    obtain ⟨_, rfl⟩ := test_cases hStep
    exact h.of_loop _
  | perform =>
    obtain ⟨_, m, rest, _, hMailbox, rfl⟩ := perform_cases hStep
    exact h.perform hMailbox
  | endPass =>
    obtain ⟨_, rfl⟩ := endPass_cases hStep
    exact h.of_loop _

end OCNote.PermanentThread
