import OCNote.Dispatch.SemaphoreLinearizable

/-! # Programs that lock with a semaphore

A client is written as if waiting and signalling were single steps. It can be run so, or
with the steps of the calls in between, and every run of the second kind is matched by one of
the first. A call counts from the moment at which it takes effect. -/

namespace OCNote.Dispatch.Semaphore
open OCNote.Support
set_option autoImplicit false

universe u v w

/-- What a thread does at a point. Only an action reads what the threads share. -/
inductive Statement (ι : Type u) (κ : Type v) (γ : Type w) where
  /-- A wait without an end. -/
  | wait (next : κ)
  | signal (next : κ)
  | act (f : ι → γ → Option (κ × γ))

structure Client (ι : Type u) (κ : Type v) (γ : Type w) where
  start : κ
  shared : γ
  statement : κ → Statement ι κ γ

structure Atomic (ι : Type u) (κ : Type v) (γ : Type w) where
  permits : Nat
  point : ι → κ
  shared : γ

structure Over (ι : Type u) (κ : Type v) (γ : Type w) where
  lock : State ι
  point : ι → κ
  shared : γ
  /-- The thread has called the semaphore and not yet taken the result. -/
  calling : ι → Bool

inductive OverEvent (ι : Type u) where
  | statement (i : ι)
  | semaphore (e : Event ι)
  deriving DecidableEq, Repr

def Statement.call {ι : Type u} {κ : Type v} {γ : Type w} : Statement ι κ γ → Option (Call × κ)
  | wait next => some (.wait DISPATCH_TIME_FOREVER, next)
  | signal next => some (.signal, next)
  | act _ => none

def Event.isCall {ι : Type u} : Event ι → Bool
  | .call _ _ => true
  | .go _ | .timesOut _ | .failsSpuriously _ => false

section Model

variable {ι : Type u} {κ : Type v} {γ : Type w} [DecidableEq ι]

def Atomic.step (C : Client ι κ γ) (s : Atomic ι κ γ) (i : ι) : Option (Atomic ι κ γ) :=
  match C.statement (s.point i) with
  | .wait next =>
    if s.permits = 0 then none
    else some { s with permits := s.permits - 1, point := Function.update s.point i next }
  | .signal next => some { s with permits := s.permits + 1, point := Function.update s.point i next }
  | .act f => (f i s.shared).map fun p => { s with point := Function.update s.point i p.1, shared := p.2 }

def atomic (C : Client ι κ γ) (permits : Nat) : Machine (Atomic ι κ γ) ι where
  start := { permits, point := fun _ => C.start, shared := C.shared }
  step := Atomic.step C

/-- The next statement of a thread: it calls the semaphore, or takes the result of the call. -/
def Over.statement (C : Client ι κ γ) (s : Over ι κ γ) (i : ι) : Option (Over ι κ γ) :=
  match C.statement (s.point i) with
  | .act f => (f i s.shared).map fun p => { s with point := Function.update s.point i p.1, shared := p.2 }
  | statement =>
    statement.call.bind fun (call, next) =>
      if s.calling i = false then
        (step s.lock (.call i call)).map fun lock => { s with lock, calling := Function.update s.calling i true }
      else
        match s.lock.point i with
        | .returned _ =>
          some { s with point := Function.update s.point i next, calling := Function.update s.calling i false }
        | _ => none

def Over.step (C : Client ι κ γ) (s : Over ι κ γ) (e : OverEvent ι) : Option (Over ι κ γ) :=
  if s.lock.crashed.isSome then none else
  match e with
  | .statement i => s.statement C i
  | .semaphore e =>
    if e.isCall = true then none
    else (Semaphore.step s.lock e).map fun lock => { s with lock }

def overSemaphore (C : Client ι κ γ) (dsema : DispatchSemaphore) : Machine (Over ι κ γ) (OverEvent ι) where
  start := {
    lock := (semaphore ι dsema).start
    point := fun _ => C.start
    shared := C.shared
    calling := fun _ => false }
  step := Over.step C

/-- Where a thread counts as being: past its call as soon as the call has taken effect. -/
def Over.settled (C : Client ι κ γ) (s : Over ι κ γ) (i : ι) : κ :=
  if s.calling i = true ∧ (s.lock.point i).pending = [] then
    ((C.statement (s.point i)).call.map Prod.snd).getD (s.point i)
  else s.point i

variable [Fintype ι]

def Over.abstract (C : Client ι κ γ) (s : Over ι κ γ) : Atomic ι κ γ where
  permits := s.lock.available
  point := s.settled C
  shared := s.shared

end Model

section Settled

variable {ι : Type u} {κ : Type v} {γ : Type w} {C : Client ι κ γ}

theorem settled_of_not_calling (s : Over ι κ γ) {i : ι} (h : s.calling i = false) : s.settled C i = s.point i :=
  if_neg fun hCalling => by simp [h] at hCalling

theorem settled_of_pending {s : Over ι κ γ} {i : ι} (h : (s.lock.point i).pending ≠ []) :
    s.settled C i = s.point i := if_neg fun hCalling => h hCalling.2

theorem settled_of_done {s : Over ι κ γ} {i : ι} {call : Call} {next : κ} (hCalling : s.calling i = true)
    (hPending : (s.lock.point i).pending = []) (hStatement : (C.statement (s.point i)).call = some (call, next)) :
    s.settled C i = next := by
  rw [Over.settled, if_pos ⟨hCalling, hPending⟩, hStatement]
  rfl

theorem settled_congr {s s' : Over ι κ γ} {i : ι} (hCalling : s'.calling i = s.calling i)
    (hLock : (s'.lock.point i).pending = (s.lock.point i).pending) (hPoint : s'.point i = s.point i) :
    s'.settled C i = s.settled C i := by
  unfold Over.settled
  rw [hCalling, hLock, hPoint]

end Settled

section Simulation

variable {ι : Type u} {κ : Type v} {γ : Type w} [DecidableEq ι] {C : Client ι κ γ}

variable (C) in
inductive OverMoves (s : Over ι κ γ) : Over ι κ γ → Prop
  | acts (i : ι) (f : ι → γ → Option (κ × γ)) (p : κ × γ) (hStatement : C.statement (s.point i) = .act f)
      (hAct : f i s.shared = some p) :
      OverMoves s { s with point := Function.update s.point i p.1, shared := p.2 }
  | calls (i : ι) (call : Call) (next : κ) (lock : State ι)
      (hStatement : (C.statement (s.point i)).call = some (call, next)) (hCalling : s.calling i = false)
      (hStep : step s.lock (.call i call) = some lock) :
      OverMoves s { s with lock, calling := Function.update s.calling i true }
  | returns (i : ι) (call : Call) (next : κ) (result : Int64)
      (hStatement : (C.statement (s.point i)).call = some (call, next)) (hCalling : s.calling i = true)
      (hPoint : s.lock.point i = .returned result) :
      OverMoves s { s with point := Function.update s.point i next, calling := Function.update s.calling i false }
  | semaphore (e : Event ι) (lock : State ι) (hCall : e.isCall = false) (hStep : step s.lock e = some lock) :
      OverMoves s { s with lock }

theorem overMoves_of_step {s s' : Over ι κ γ} {e : OverEvent ι} (h : s.step C e = some s') :
    s.lock.crashed = none ∧ OverMoves C s s' := by
  obtain ⟨hAlive, h⟩ := Option.ite_none_left_eq_some.mp h
  refine ⟨by simpa using hAlive, ?_⟩
  cases e with
  | semaphore e =>
    obtain ⟨hCall, h⟩ := Option.ite_none_left_eq_some.mp h
    obtain ⟨lock, hStep, rfl⟩ := Option.map_eq_some_iff.mp h
    exact .semaphore e lock (by simpa using hCall) hStep
  | statement i =>
    dsimp only [Over.statement] at h
    split at h
    · obtain ⟨p, hAct, rfl⟩ := Option.map_eq_some_iff.mp h
      exact .acts i _ p ‹_› hAct
    · obtain ⟨⟨call, next⟩, hStatement, h⟩ := Option.bind_eq_some_iff.mp h
      dsimp only at h
      split at h
      · obtain ⟨lock, hStep, rfl⟩ := Option.map_eq_some_iff.mp h
        exact .calls i call next lock hStatement ‹_› hStep
      · split at h
        · cases h
          exact .returns i call next _ hStatement (Bool.eq_true_of_not_eq_false ‹¬ s.calling i = false›) ‹_›
        · cases h

variable [Fintype ι]

variable (C) in
/-- A thread is inside a call of the semaphore exactly if its statement has made that call. -/
structure Engaged (s : Over ι κ γ) : Prop where
  balanced : Balanced s.lock
  idle : ∀ i, s.calling i = false → (s.lock.point i).idle = true
  calling : ∀ i, s.calling i = true → ∃ call next, (C.statement (s.point i)).call = some (call, next) ∧
    ((s.lock.point i).pending = [] ∨ (s.lock.point i).pending = [call])

theorem Point.pending_of_idle {p : Point} (h : p.idle = true) : p.pending = [] := by
  cases p <;> first | rfl | cases h

omit [Fintype ι] in
theorem settled_moved {s s' : Over ι κ γ} {i : ι} {p : κ} (hSelf : s'.settled C i = p)
    (hOthers : ∀ j, j ≠ i → s'.settled C j = s.settled C j) : s'.settled C = Function.update (s.settled C) i p := by
  funext j
  obtain rfl | hji := eq_or_ne j i
  · rw [hSelf, Function.update_self]
  · rw [hOthers j hji, Function.update_of_ne hji]

variable (C) in
/-- A step of the client over the semaphore is a step of the atomic client, or none. -/
def Matched (s s' : Over ι κ γ) : Prop :=
  s'.abstract C = s.abstract C ∨ ∃ i, Atomic.step C (s.abstract C) i = some (s'.abstract C)

omit [DecidableEq ι] in
theorem abstract_eq {s s' : Over ι κ γ} (hPermits : s'.lock.available = s.lock.available)
    (hShared : s'.shared = s.shared) (hSettled : ∀ i, s'.settled C i = s.settled C i) :
    s'.abstract C = s.abstract C := by
  rw [Over.abstract, Over.abstract, hPermits, hShared, funext hSettled]

theorem Engaged.acts {s : Over ι κ γ} (h : Engaged C s) {i : ι} {f : ι → γ → Option (κ × γ)} {p : κ × γ}
    (hStatement : C.statement (s.point i) = .act f) (hAct : f i s.shared = some p) :
    Engaged C { s with point := Function.update s.point i p.1, shared := p.2 } ∧
      Matched C s { s with point := Function.update s.point i p.1, shared := p.2 } := by
  have hCalling : s.calling i = false := by
    by_contra hCalling
    obtain ⟨call, next, hCall, _⟩ := h.calling i (by simpa using hCalling)
    rw [hStatement] at hCall
    cases hCall
  refine ⟨⟨h.balanced, h.idle, fun j hj => ?_⟩, .inr ⟨i, ?_⟩⟩
  · have hji : j ≠ i := by
      rintro rfl
      rw [hCalling] at hj
      cases hj
    dsimp only
    rw [Function.update_of_ne hji]
    exact h.calling j hj
  · have hSettled := settled_of_not_calling (C := C) s hCalling
    unfold Atomic.step
    simp only [Over.abstract, hSettled, hStatement, hAct, Option.map_some]
    refine congrArg some ?_
    congr 1
    symm
    refine settled_moved ?_ fun j hji => settled_congr rfl rfl (Function.update_of_ne hji ..)
    exact (settled_of_not_calling { s with point := Function.update s.point i p.1, shared := p.2 } hCalling).trans
      (Function.update_self ..)

theorem Engaged.calls {s : Over ι κ γ} (h : Engaged C s) (hThreads : Fintype.card ι < 2 ^ 63) {i : ι} {call : Call}
    {next : κ} {lock : State ι} (hStatement : (C.statement (s.point i)).call = some (call, next))
    (hCalling : s.calling i = false) (hStep : step s.lock (.call i call) = some lock) (hAlive : lock.crashed = none) :
    Engaged C { s with lock, calling := Function.update s.calling i true } ∧
      Matched C s { s with lock, calling := Function.update s.calling i true } := by
  obtain ⟨_, hMove⟩ := moves_of_step hStep
  have hBalanced := h.balanced.moves hThreads hMove hAlive
  cases hMove with
  | looks _ _ _ hEvent => obtain hEvent | hEvent := hEvent <;> cases hEvent
  | enters _ _ hIdle =>
    have hPending : ((s.lock.goto i call.entry).point i).pending = [call] := by
      rw [goto_point]
      cases call <;> rfl
    have hOther : ∀ j, j ≠ i → (s.lock.goto i call.entry).point j = s.lock.point j :=
      fun j hji => Function.update_of_ne hji ..
    have hAvailable : (s.lock.goto i call.entry).available = s.lock.available := by
      have hMoved := available_moved (s := s.lock) (s.lock.goto i call.entry) rfl
      rw [(Point.weights_of_idle hIdle).2, (Point.idle_entry call).2, permits_goto, value_goto] at hMoved
      omega
    refine ⟨⟨hBalanced, fun j hj => ?_, fun j hj => ?_⟩, .inl (abstract_eq hAvailable rfl fun j => ?_)⟩
    · have hji : j ≠ i := by
        rintro rfl
        simp at hj
      dsimp only at hj ⊢
      rw [Function.update_of_ne hji] at hj
      rw [hOther j hji]
      exact h.idle j hj
    · obtain rfl | hji := eq_or_ne j i
      · exact ⟨call, next, hStatement, .inr hPending⟩
      · dsimp only at hj ⊢
        rw [Function.update_of_ne hji] at hj
        rw [hOther j hji]
        exact h.calling j hj
    · obtain rfl | hji := eq_or_ne j i
      · rw [settled_of_not_calling s hCalling]
        exact settled_of_pending fun hNone => by rw [hPending] at hNone; cases hNone
      · exact settled_congr (Function.update_of_ne hji ..) (congrArg Point.pending (hOther j hji)) rfl

theorem Engaged.returns {s : Over ι κ γ} (h : Engaged C s) {i : ι} {call : Call} {next : κ} {result : Int64}
    (hStatement : (C.statement (s.point i)).call = some (call, next)) (hCalling : s.calling i = true)
    (hPoint : s.lock.point i = .returned result) :
    Engaged C { s with point := Function.update s.point i next, calling := Function.update s.calling i false } ∧
      Matched C s { s with point := Function.update s.point i next, calling := Function.update s.calling i false } := by
  refine ⟨⟨h.balanced, fun j hj => ?_, fun j hj => ?_⟩, .inl (abstract_eq rfl rfl fun j => ?_)⟩
  · obtain rfl | hji := eq_or_ne j i
    · dsimp only
      rw [hPoint]
      rfl
    · dsimp only at hj
      rw [Function.update_of_ne hji] at hj
      exact h.idle j hj
  · have hji : j ≠ i := by
      rintro rfl
      simp at hj
    dsimp only at hj ⊢
    rw [Function.update_of_ne hji] at hj
    rw [Function.update_of_ne hji]
    exact h.calling j hj
  · obtain rfl | hji := eq_or_ne j i
    · have hDone : (s.lock.point j).pending = [] := by rw [hPoint]; rfl
      rw [settled_of_done hCalling hDone hStatement]
      refine (settled_of_not_calling { s with
        point := Function.update s.point j next
        calling := Function.update s.calling j false } (Function.update_self ..)).trans ?_
      exact Function.update_self ..
    · exact settled_congr (Function.update_of_ne hji ..) rfl (Function.update_of_ne hji ..)

omit [Fintype ι] in
/-- An operation that the call of a statement allows is what the atomic client does there. -/
theorem atomic_step_of_allows {t : Atomic ι κ γ} {i : ι} {call : Call} {next : κ} {op : SemaphoreOp ι} {permits : Nat}
    (hStatement : (C.statement (t.point i)).call = some (call, next)) (hAllows : call.Allows op)
    (hApply : op.apply t.permits = some permits) :
    Atomic.step C t i = some { t with permits, point := Function.update t.point i next } := by
  unfold Atomic.step
  cases hKind : C.statement (t.point i) with
  | act f =>
    rw [hKind] at hStatement
    cases hStatement
  | wait next' =>
    rw [hKind] at hStatement
    cases hStatement
    cases op with
    | signal => exact hAllows.elim
    | giveUp => exact absurd rfl hAllows
    | take =>
      obtain ⟨hSome, hPermits⟩ := Option.ite_none_left_eq_some.mp hApply
      cases hPermits
      exact if_neg hSome
  | signal next' =>
    rw [hKind] at hStatement
    cases hStatement
    cases op with
    | signal =>
      cases hApply
      rfl
    | take | giveUp => cases hAllows

omit [Fintype ι] in
theorem point_of_idle {s s' : State ι} {e : Event ι} (hMove : Moves s e s') (hCall : e.isCall = false) {j : ι}
    (hIdle : (s.point j).idle = true) : s'.point j = s.point j := by
  have hNe : ∀ {i : ι} {p : Point}, s.point i = p → p.idle = false → j ≠ i := by
    rintro i p rfl hBusy rfl
    rw [hIdle] at hBusy
    cases hBusy
  cases hMove with
  | enters => cases hCall
  | overflows | fails => rfl
  | signals i hPoint | owes i hPoint | takes i timeout hPoint | waits i timeout hPoint | misses i call hPoint
  | publishes i call hPoint | posts i permits hPoint | gaveUp i timeout orig hPoint | expires i timeout hPoint =>
    exact Function.update_of_ne (hNe hPoint rfl) ..
  | finds i call hPoint =>
    obtain hPoint | hPoint := hPoint <;> exact Function.update_of_ne (hNe hPoint rfl) ..
  | wakes i timeout permits hPoint =>
    obtain hPoint | hPoint := hPoint <;> exact Function.update_of_ne (hNe hPoint rfl) ..
  | looks i timeout e hEvent hPoint =>
    obtain hPoint | ⟨orig, hPoint, _⟩ := hPoint <;> exact Function.update_of_ne (hNe hPoint rfl) ..

theorem Engaged.lockStep {s : Over ι κ γ} (h : Engaged C s) (hThreads : Fintype.card ι < 2 ^ 63) {e : Event ι}
    {lock : State ι} (hCall : e.isCall = false) (hStep : step s.lock e = some lock) (hAlive : lock.crashed = none) :
    Engaged C { s with lock } ∧ Matched C s { s with lock } := by
  obtain ⟨_, hMove⟩ := moves_of_step hStep
  have hBalanced := h.balanced.moves hThreads hMove hAlive
  obtain ⟨i, called, new, hSeen⟩ := seen_of_moves h.balanced hThreads hMove hAlive
  have hIdle : ∀ j, s.calling j = false → (lock.point j).idle = true := by
    intro j hj
    rw [point_of_idle hMove hCall (h.idle j hj)]
    exact h.idle j hj
  have hCounts := hSeen.counts 0
  cases hSeen.tells with
  | enters call =>
    have hNone : callsOf i [e] = [] := by cases e <;> first | rfl | cases hCall
    rw [hSeen.called] at hNone
    cases hNone
  | silent hPending =>
    have hSame : ∀ j, (lock.point j).pending = (s.lock.point j).pending := by
      intro j
      obtain rfl | hji := eq_or_ne j i
      · exact hPending
      · rw [(hSeen.others j hji).1]
    refine ⟨⟨hBalanced, hIdle, fun j hj => ?_⟩, .inl (abstract_eq (Option.some.inj hCounts).symm rfl fun j => ?_)⟩
    · dsimp only
      rw [hSame j]
      exact h.calling j hj
    · exact settled_congr rfl (hSame j) rfl
  | acts call op hPending hDone hAllows hCaller =>
    -- only a thread whose statement has called can be inside a call
    have hCalling : s.calling i = true := by
      by_contra hCalling
      rw [Point.pending_of_idle (h.idle i (Bool.eq_false_of_not_eq_true hCalling))] at hPending
      cases hPending
    obtain ⟨call', next, hStatement, hEither⟩ := h.calling i hCalling
    obtain rfl : call' = call := by
      rw [hPending] at hEither
      obtain hEither | hEither := hEither <;> cases hEither
      rfl
    have hSettled : s.settled C i = s.point i := settled_of_pending fun hNone => by rw [hPending] at hNone; cases hNone
    have hApply : op.apply s.lock.available = some lock.available := by
      rw [Machine.runFrom] at hCounts
      obtain ⟨left, hApply, hLeft⟩ := Option.bind_eq_some_iff.mp hCounts
      exact hApply.trans hLeft
    refine ⟨⟨hBalanced, hIdle, fun j hj => ?_⟩, .inr ⟨i, ?_⟩⟩
    · obtain rfl | hji := eq_or_ne j i
      · exact ⟨call', next, hStatement, .inl hDone⟩
      · dsimp only
        rw [(hSeen.others j hji).1]
        exact h.calling j hj
    · have hPoint : (C.statement ((s.abstract C).point i)).call = some (call', next) := by
        change (C.statement (s.settled C i)).call = _
        rw [hSettled]
        exact hStatement
      rw [atomic_step_of_allows hPoint hAllows hApply]
      refine congrArg some ?_
      unfold Over.abstract
      congr 1
      symm
      refine settled_moved (settled_of_done hCalling hDone hStatement) fun j hji => ?_
      exact settled_congr rfl (congrArg Point.pending (hSeen.others j hji).1) rfl

theorem alive_of_moves {s s' : State ι} {e : Event ι} (h : Balanced s) (hAlive : s.crashed = none)
    (hMove : Moves s e s') (hRoom : s.available < 2 ^ 63 - 1) : s'.crashed = none := by
  cases hMove with
  | overflows i hPoint hHigh =>
    unfold State.available at hRoom
    omega
  | fails i hPoint hSema => exact absurd (hSema ▸ h.sound i) hPoint
  | _ => exact hAlive

theorem Engaged.start {value : Int64} {dsema : DispatchSemaphore}
    (hCreate : dispatch_semaphore_create value = some dsema) (hThreads : Fintype.card ι < 2 ^ 63) :
    Engaged C (overSemaphore C dsema).start ∧
      (overSemaphore C dsema).start.abstract C = (atomic C value.toInt.toNat).start := by
  obtain ⟨_, hAlive, _⟩ := linear_of_run hCreate hThreads ([] : List (Event ι)) _ rfl
  obtain ⟨hBalanced, hRun⟩ := hAlive rfl
  refine ⟨⟨hBalanced, fun _ _ => rfl, fun _ h => nomatch h⟩, ?_⟩
  have hAvailable : ((semaphore ι dsema).start).available = value.toInt.toNat := (Option.some.inj hRun).symm
  have hSettled : (overSemaphore C dsema).start.settled C = fun _ : ι => C.start :=
    funext fun i => settled_of_not_calling _ rfl
  rw [Over.abstract, hSettled]
  change Atomic.mk ((semaphore ι dsema).start).available _ _ = _
  rw [hAvailable]
  rfl

/-- Over the semaphore of libdispatch a client does what it does over a counting semaphore, as long
as that never holds `LONG_MAX` permits. -/
theorem overSemaphore_simulates {value : Int64} {dsema : DispatchSemaphore}
    (hCreate : dispatch_semaphore_create value = some dsema) (hThreads : Fintype.card ι < 2 ^ 63)
    (hRoom : ∀ t, (atomic C value.toInt.toNat).Reachable t → t.permits < 2 ^ 63 - 1) {s : Over ι κ γ}
    (hReach : (overSemaphore C dsema).Reachable s) :
    s.lock.crashed = none ∧ Engaged C s ∧ (atomic C value.toInt.toNat).Reachable (s.abstract C) := by
  refine Machine.invariant (P := fun s => s.lock.crashed = none ∧ Engaged C s ∧
    (atomic C value.toInt.toNat).Reachable (s.abstract C)) ?_ ?_ hReach
  · obtain ⟨hEngaged, hStart⟩ := Engaged.start (C := C) hCreate hThreads
    exact ⟨rfl, hEngaged, hStart ▸ Machine.reachable_start _⟩
  · rintro s e s' ⟨hAlive, hEngaged, hAbstract⟩ hStep
    obtain ⟨_, hMoves⟩ := overMoves_of_step hStep
    have hStepAlive : ∀ {e : Event ι} {lock : State ι}, step s.lock e = some lock → lock.crashed = none :=
      fun hStep => alive_of_moves hEngaged.balanced hAlive (moves_of_step hStep).2 (hRoom _ hAbstract)
    have hNext : s'.lock.crashed = none ∧ Engaged C s' ∧ Matched C s s' := by
      cases hMoves with
      | acts i f p hStatement hAct => exact ⟨hAlive, hEngaged.acts hStatement hAct⟩
      | calls i call next lock hStatement hCalling hLock =>
        exact ⟨hStepAlive hLock, hEngaged.calls hThreads hStatement hCalling hLock (hStepAlive hLock)⟩
      | returns i call next result hStatement hCalling hPoint =>
        exact ⟨hAlive, hEngaged.returns hStatement hCalling hPoint⟩
      | semaphore e lock hCall hLock =>
        exact ⟨hStepAlive hLock, hEngaged.lockStep hThreads hCall hLock (hStepAlive hLock)⟩
    obtain ⟨hAlive', hEngaged', hMatched⟩ := hNext
    refine ⟨hAlive', hEngaged', ?_⟩
    obtain hSame | ⟨i, hAtomic⟩ := hMatched
    · rwa [hSame]
    · have hRun : (atomic C value.toInt.toNat).runFrom (s.abstract C) [i] = some (s'.abstract C) := by
        change (Atomic.step C (s.abstract C) i).bind _ = _
        rw [hAtomic]
        rfl
      exact hAbstract.runFrom hRun

end Simulation

end OCNote.Dispatch.Semaphore
