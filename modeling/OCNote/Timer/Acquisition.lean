import OCNote.Support.Lock
import OCNote.Timer.Serial

/-! # MBTimer is linearizable

Every accepted call takes effect between its wait and its signal, so the accepted calls
take effect in the order in which they acquire the semaphore. The holder is the one
thread that may be half way through the effect of its call. -/

namespace OCNote.Timer.Interleaved
open OCNote.Support
set_option autoImplicit false

universe u v

/-- The wait has returned and the signal has not run. -/
def Point.Inside {τ : Type u} : Point τ → Prop
  | .readCount _ _ | .store _ _ _ | .signalExec _ _ _ | .lookup _ | .cancelSource _ _ | .remove _
  | .signalCancel => True
  | _ => False

/-- The source that the call has created and not yet brought to the semaphore. -/
def Point.pending {τ : Type u} : Point τ → Option Nat
  | .setTimer _ timer | .waitExec _ timer => some timer
  | _ => none

/-- The call has acquired the semaphore and is going to return a name. -/
def Point.Owing {τ : Type u} : Point τ → Prop
  | .readCount _ _ | .store _ _ _ | .signalExec _ _ _ | .setHandler _ _ _ | .resume _ _ _
  | .returnName _ (some _) => True
  | _ => False

section Answers

variable {τ : Type u}

/-- The call with this turn is an `execTask` of `r` and returns `name` in the serial run. -/
def Answer (acquired : List (Accepted τ)) (r : Request τ) (turn : Nat) (name : String) : Prop :=
  (∃ timer, acquired[turn]? = some (.execTask r timer)) ∧
    (Timer.execTask (serial (acquired.take turn)) r).2 = some name

def Answered (acquired : List (Accepted τ)) (r : Request τ) : Option (Nat × String) → Prop
  | none => r.refused = true
  | some (turn, name) => Answer acquired r turn name

theorem Answer.turn_lt {acquired : List (Accepted τ)} {r : Request τ} {turn : Nat} {name : String}
    (h : Answer acquired r turn name) : turn < acquired.length := by
  obtain ⟨⟨timer, hTurn⟩, _⟩ := h
  exact (List.getElem?_eq_some_iff.mp hTurn).1

/-- A later call does not change what an earlier one returns. -/
theorem Answer.append {acquired : List (Accepted τ)} {r : Request τ} {turn : Nat} {name : String}
    (h : Answer acquired r turn name) (call : Accepted τ) :
    Answer (acquired ++ [call]) r turn name := by
  have hTurn := h.turn_lt
  obtain ⟨⟨timer, hCall⟩, hName⟩ := h
  refine ⟨⟨timer, ?_⟩, ?_⟩
  · rw [List.getElem?_append_left hTurn, hCall]
  · rw [List.take_append_of_le_length (Nat.le_of_lt hTurn), hName]

theorem Answered.append {acquired : List (Accepted τ)} {r : Request τ} {result : Option (Nat × String)}
    (h : Answered acquired r result) (call : Accepted τ) : Answered (acquired ++ [call]) r result := by
  cases result with
  | none => exact h
  | some result => exact Answer.append h call

/-- What a thread at a program point knows about its call. -/
def Point.Knows (acquired : List (Accepted τ)) (turn : Nat) : Point τ → Prop
  | .createSource r | .setTimer r _ | .waitExec r _ => r.refused = false
  | .waitCancel name => name.length ≠ 0
  | .signalExec r _ name | .setHandler r _ name | .resume r _ name => Answer acquired r turn name
  | .returnName r name => Answered acquired r (name.map fun name => (turn, name))
  | _ => True

theorem Point.Knows.append {acquired : List (Accepted τ)} {turn : Nat} {p : Point τ}
    (h : p.Knows acquired turn) (call : Accepted τ) : p.Knows (acquired ++ [call]) turn := by
  cases p with
  | signalExec | setHandler | resume => exact Answer.append h call
  | returnName => exact Answered.append h call
  | _ => exact h

end Answers

section Effects

variable {τ : Type u}

def Settled (timers_ : AList fun _ : String => Nat) (sources : List (Source τ))
    (acquired : List (Accepted τ)) : Prop :=
  TimersMatch timers_ acquired ∧ CancelledMatch sources acquired

/-- The holder's call has changed nothing yet. -/
def Begun (timers_ : AList fun _ : String => Nat) (sources : List (Source τ))
    (acquired : List (Accepted τ)) (call : Accepted τ) : Prop :=
  ∃ before, acquired = before ++ [call] ∧ Settled timers_ sources before

/-- The holder's call has cancelled the source and not yet removed its entry. -/
def HalfCancelled (timers_ : AList fun _ : String => Nat) (sources : List (Source τ))
    (acquired : List (Accepted τ)) (name : String) : Prop :=
  ∃ before, acquired = before ++ [.cancelTask name] ∧ TimersMatch timers_ before ∧
    CancelledMatch sources acquired ∧ timers_.lookup name ≠ none

/-- How far the effect of the holder's call has come. -/
def Point.Describes (timers_ : AList fun _ : String => Nat) (sources : List (Source τ))
    (acquired : List (Accepted τ)) : Point τ → Prop
  | .readCount r timer => Begun timers_ sources acquired (.execTask r timer)
  | .store r timer name =>
    Begun timers_ sources acquired (.execTask r timer) ∧ name = Nat.repr (count timers_)
  | .lookup name => Begun timers_ sources acquired (.cancelTask name)
  | .cancelSource name timer =>
    Begun timers_ sources acquired (.cancelTask name) ∧ timers_.lookup name = some timer
  | .remove name => HalfCancelled timers_ sources acquired name
  | .signalExec _ _ _ | .signalCancel => Settled timers_ sources acquired
  | _ => True

variable {timers_ : AList fun _ : String => Nat} {sources sources' : List (Source τ)}
variable {acquired : List (Accepted τ)}

theorem Begun.congr {call : Accepted τ} (h : Begun timers_ sources acquired call)
    (hSame : ∀ timer, IsCancelled sources' timer ↔ IsCancelled sources timer) :
    Begun timers_ sources' acquired call := by
  obtain ⟨before, hAcquired, hTimers, hCancelled⟩ := h
  exact ⟨before, hAcquired, hTimers, hCancelled.congr hSame⟩

theorem Begun.stores {r : Request τ} {timer : Nat} (h : Begun timers_ sources acquired (.execTask r timer))
    (hGuarded : ∀ call ∈ acquired, call.Guarded) :
    Settled (timers_.insert (Nat.repr (count timers_)) timer) sources acquired := by
  obtain ⟨before, rfl, hTimers, hCancelled⟩ := h
  have hBefore := (List.forall_mem_append.mp hGuarded).1
  have hAccepted : r.refused = false := hGuarded (.execTask r timer) (by simp)
  rw [hTimers.newName_eq]
  exact ⟨hTimers.execTask hBefore hAccepted timer, hCancelled.execTask hBefore hAccepted timer⟩

theorem Begun.answer {r : Request τ} {timer turn : Nat}
    (h : Begun timers_ sources acquired (.execTask r timer))
    (hGuarded : ∀ call ∈ acquired, call.Guarded) (hTurn : turn + 1 = acquired.length) :
    Answer acquired r turn (Nat.repr (count timers_)) := by
  obtain ⟨before, rfl, hTimers, _⟩ := h
  have hAccepted : r.refused = false := hGuarded (.execTask r timer) (by simp)
  obtain ⟨task, hTask⟩ := task_of_accepted hAccepted
  obtain rfl : turn = before.length := by simpa using hTurn
  refine ⟨⟨timer, List.getElem?_concat_length⟩, ?_⟩
  rw [List.take_left, execTask_of_accepted hAccepted hTask, hTimers.newName_eq]

theorem Begun.finds_none {name : String} (h : Begun timers_ sources acquired (.cancelTask name))
    (hEntry : timers_.lookup name = none) : Settled timers_ sources acquired := by
  obtain ⟨before, rfl, hTimers, hCancelled⟩ := h
  have hNone := (hTimers.lookup_eq_none name).mp hEntry
  exact ⟨hTimers.cancelTask_of_none hNone, hCancelled.cancelTask_of_none hNone⟩

theorem Begun.cancels {name : String} {timer : Nat} (h : Begun timers_ sources acquired (.cancelTask name))
    (hGuarded : ∀ call ∈ acquired, call.Guarded)
    (hBounded : ∀ timer ∈ registered acquired, timer < sources.length)
    (hEntry : timers_.lookup name = some timer) :
    HalfCancelled timers_ (sources.modify timer fun source => { source with cancelled := true }) acquired
      name := by
  obtain ⟨before, rfl, hTimers, hCancelled⟩ := h
  have hBefore := (List.forall_mem_append.mp hGuarded).1
  have hName : name.length ≠ 0 := hGuarded (.cancelTask name) (by simp)
  obtain ⟨k, hSerial, hTimer⟩ := Option.bind_eq_some_iff.mp ((hTimers.lookup name).symm.trans hEntry)
  have hSource : timer < sources.length :=
    hBounded timer (by rw [registered_cancelTask]; exact List.mem_of_getElem? hTimer)
  exact ⟨before, rfl, hTimers, hCancelled.cancelTask hBefore hName hSerial hTimer hSource, by simp [hEntry]⟩

theorem HalfCancelled.removes {name : String} (h : HalfCancelled timers_ sources acquired name)
    (hGuarded : ∀ call ∈ acquired, call.Guarded) : Settled (timers_.erase name) sources acquired := by
  obtain ⟨before, rfl, hTimers, hCancelled, hEntry⟩ := h
  have hName : name.length ≠ 0 := hGuarded (.cancelTask name) (by simp)
  have hFound := mt (hTimers.lookup_eq_none name).mpr hEntry
  obtain ⟨k, hSerial⟩ := Option.ne_none_iff_exists'.mp hFound
  exact ⟨hTimers.cancelTask hName hSerial, hCancelled⟩

theorem Point.Describes.congr {p : Point τ} (h : p.Describes timers_ sources acquired)
    (hSame : ∀ timer, IsCancelled sources' timer ↔ IsCancelled sources timer) :
    p.Describes timers_ sources' acquired := by
  cases p with
  | readCount | lookup => exact Begun.congr h hSame
  | store | cancelSource => exact ⟨h.1.congr hSame, h.2⟩
  | remove =>
    obtain ⟨before, hAcquired, hTimers, hCancelled, hEntry⟩ := h
    exact ⟨before, hAcquired, hTimers, hCancelled.congr hSame, hEntry⟩
  | signalExec | signalCancel => exact ⟨h.1, h.2.congr hSame⟩
  | _ => trivial

theorem describes_of_outside {p : Point τ} (hp : ¬ p.Inside) (timers_ : AList fun _ : String => Nat)
    (sources : List (Source τ)) (acquired : List (Accepted τ)) : p.Describes timers_ sources acquired := by
  cases p with
  | readCount | store | signalExec | lookup | cancelSource | remove | signalCancel => exact absurd trivial hp
  | _ => trivial

theorem pending_of_inside {p : Point τ} (hp : p.Inside) : p.pending = none := by
  cases p with
  | setTimer | waitExec => exact hp.elim
  | _ => rfl

end Effects

/-- The turns of the calls that have returned a name. -/
def turns {τ : Type u} (returned : List (Request τ × Option (Nat × String))) : List Nat :=
  returned.filterMap fun result => result.2.map Prod.fst

section Invariant

variable {ι : Type v} {τ : Type u}

/-- No two calls have one turn. -/
structure TurnsDiffer (point : ι → Point τ) (turn : ι → Nat)
    (returned : List (Request τ × Option (Nat × String))) : Prop where
  owing : ∀ i j, (point i).Owing → (point j).Owing → turn i = turn j → i = j
  fresh : ∀ i, (point i).Owing → turn i ∉ turns returned
  once : (turns returned).Nodup

/-- Every source that waits for the semaphore belongs to one call, and to none that has it. -/
structure PendingDiffer (point : ι → Point τ) (sources : List (Source τ))
    (acquired : List (Accepted τ)) : Prop where
  created : ∀ i timer, (point i).pending = some timer → timer < sources.length
  unregistered : ∀ i timer, (point i).pending = some timer → timer ∉ registered acquired
  one : ∀ i j timer, (point i).pending = some timer → (point j).pending = some timer → i = j
  distinct : (registered acquired).Nodup
  bounded : ∀ timer ∈ registered acquired, timer < sources.length

structure Inv (s : State ι τ) : Prop where
  lock : Exclusive Point.Inside s.semaphore_ s.point
  holder : ∀ i, s.holder = some i ↔ (s.point i).Inside
  turn : ∀ i, (s.point i).Inside → s.turn i + 1 = s.acquired.length
  guarded : ∀ call ∈ s.acquired, call.Guarded
  knows : ∀ i, (s.point i).Knows s.acquired (s.turn i)
  pending : PendingDiffer s.point s.sources s.acquired
  free : 0 < s.semaphore_ → Settled s.timers_ s.sources s.acquired
  held : ∀ i, (s.point i).Describes s.timers_ s.sources s.acquired
  answered : ∀ r result, (r, result) ∈ s.returned → Answered s.acquired r result
  differ : TurnsDiffer s.point s.turn s.returned

/-- A step of thread `i` that gives it no new property gives no thread one. -/
theorem of_update [DecidableEq ι] {P : Point τ → Prop} {point : ι → Point τ} {i : ι} {p : Point τ}
    (hp : P p → P (point i)) (j : ι) (hj : P (Function.update point i p j)) : P (point j) := by
  obtain rfl | hji := eq_or_ne j i
  · exact hp (by simpa using hj)
  · rwa [Function.update_of_ne hji] at hj

namespace TurnsDiffer

variable {point : ι → Point τ} {turn : ι → Nat} {returned : List (Request τ × Option (Nat × String))}

theorem turns_concat (returned : List (Request τ × Option (Nat × String))) (r : Request τ) (t : Nat)
    (name : String) : turns (returned ++ [(r, some (t, name))]) = turns returned ++ [t] := by
  simp [turns]

variable [DecidableEq ι]

theorem move (h : TurnsDiffer point turn returned) {i : ι} {p : Point τ} (hp : p.Owing → (point i).Owing) :
    TurnsDiffer (Function.update point i p) turn returned where
  owing j k hj hk := h.owing j k (of_update hp j hj) (of_update hp k hk)
  fresh j hj := h.fresh j (of_update hp j hj)
  once := h.once

/-- The next turn is later than all turns so far. -/
theorem acquire (h : TurnsDiffer point turn returned) {next : Nat}
    (hOwing : ∀ j, (point j).Owing → turn j < next) (hReturned : ∀ t ∈ turns returned, t < next)
    (i : ι) (p : Point τ) :
    TurnsDiffer (Function.update point i p) (Function.update turn i next) returned where
  owing j k hj hk hTurn := by
    by_cases hji : j = i <;> by_cases hki : k = i
    · rw [hji, hki]
    · subst hji
      rw [Function.update_of_ne hki] at hk hTurn
      rw [Function.update_self] at hTurn
      exact absurd hTurn (Nat.ne_of_gt (hOwing k hk))
    · subst hki
      rw [Function.update_of_ne hji] at hj hTurn
      rw [Function.update_self] at hTurn
      exact absurd hTurn (Nat.ne_of_lt (hOwing j hj))
    · rw [Function.update_of_ne hji] at hj hTurn
      rw [Function.update_of_ne hki] at hk hTurn
      exact h.owing j k hj hk hTurn
  fresh j hj := by
    obtain rfl | hji := eq_or_ne j i
    · rw [Function.update_self]
      exact fun hMem => absurd (hReturned next hMem) (Nat.lt_irrefl next)
    · rw [Function.update_of_ne hji] at hj ⊢
      exact h.fresh j hj
  once := h.once

theorem returns (h : TurnsDiffer point turn returned) {i : ι} (hi : (point i).Owing) {p : Point τ}
    (hp : ¬ p.Owing) (r : Request τ) (name : String) :
    TurnsDiffer (Function.update point i p) turn (returned ++ [(r, some (turn i, name))]) where
  owing j k hj hk := (h.move (fun hOwing => absurd hOwing hp)).owing j k hj hk
  fresh j hj := by
    have hji : j ≠ i := by
      rintro rfl
      exact hp (by simpa using hj)
    rw [Function.update_of_ne hji] at hj
    rw [turns_concat, List.mem_append, List.mem_singleton]
    rintro (hMem | hTurn)
    · exact h.fresh j hj hMem
    · exact hji (h.owing j i hj hi hTurn)
  once := by
    rw [turns_concat]
    exact List.nodup_append_comm.mp (List.nodup_cons.mpr ⟨h.fresh i hi, h.once⟩)

end TurnsDiffer

namespace PendingDiffer

variable {point : ι → Point τ} {sources : List (Source τ)} {acquired : List (Accepted τ)}

theorem cancelTask (h : PendingDiffer point sources acquired) (name : String) :
    PendingDiffer point sources (acquired ++ [.cancelTask name]) where
  created := h.created
  unregistered j timer hj := registered_cancelTask acquired name ▸ h.unregistered j timer hj
  one := h.one
  distinct := registered_cancelTask acquired name ▸ h.distinct
  bounded timer hMem := h.bounded timer (registered_cancelTask acquired name ▸ hMem)

variable [DecidableEq ι]

theorem move (h : PendingDiffer point sources acquired) {i : ι} {p : Point τ} {sources' : List (Source τ)}
    (hp : ∀ timer, p.pending = some timer → (point i).pending = some timer)
    (hLength : sources'.length = sources.length) :
    PendingDiffer (Function.update point i p) sources' acquired := by
  have hOwned : ∀ j timer, (Function.update point i p j).pending = some timer →
      (point j).pending = some timer :=
    fun j timer => of_update (P := fun p => p.pending = some timer) (hp timer) j
  constructor
  · exact fun j timer hj => hLength ▸ h.created j timer (hOwned j timer hj)
  · exact fun j timer hj => h.unregistered j timer (hOwned j timer hj)
  · exact fun j k timer hj hk => h.one j k timer (hOwned j timer hj) (hOwned k timer hk)
  · exact h.distinct
  · exact fun timer hMem => hLength ▸ h.bounded timer hMem

theorem create (h : PendingDiffer point sources acquired) (i : ι) (r : Request τ) (source : Source τ) :
    PendingDiffer (Function.update point i (.setTimer r sources.length)) (sources ++ [source]) acquired := by
  have hEach : ∀ j timer, (Function.update point i (.setTimer r sources.length) j).pending = some timer →
      (j = i ∧ timer = sources.length) ∨ (j ≠ i ∧ (point j).pending = some timer) := by
    intro j timer hj
    obtain rfl | hji := eq_or_ne j i
    · rw [Function.update_self] at hj
      exact .inl ⟨rfl, (Option.some.inj hj).symm⟩
    · rw [Function.update_of_ne hji] at hj
      exact .inr ⟨hji, hj⟩
  constructor
  · intro j timer hj
    rw [List.length_append, List.length_singleton]
    obtain ⟨_, rfl⟩ | ⟨_, hOld⟩ := hEach j timer hj
    · exact Nat.lt_succ_self _
    · exact Nat.lt_succ_of_lt (h.created j timer hOld)
  · intro j timer hj hMem
    obtain ⟨_, rfl⟩ | ⟨_, hOld⟩ := hEach j timer hj
    · exact Nat.lt_irrefl _ (h.bounded _ hMem)
    · exact h.unregistered j timer hOld hMem
  · intro j k timer hj hk
    obtain ⟨rfl, rfl⟩ | ⟨_, hOld⟩ := hEach j timer hj
    · obtain ⟨rfl, _⟩ | ⟨_, hOld⟩ := hEach k _ hk
      · rfl
      · exact absurd (h.created k _ hOld) (Nat.lt_irrefl _)
    · obtain ⟨_, rfl⟩ | ⟨_, hOld'⟩ := hEach k timer hk
      · exact absurd (h.created j _ hOld) (Nat.lt_irrefl _)
      · exact h.one j k timer hOld hOld'
  · exact h.distinct
  · intro timer hMem
    rw [List.length_append]
    exact Nat.lt_of_lt_of_le (h.bounded timer hMem) (Nat.le_add_right _ _)

/-- The source of the call is its own, so it is registered once. -/
theorem execTask (h : PendingDiffer point sources acquired) {i : ι} {r : Request τ} {timer : Nat}
    (hTimer : (point i).pending = some timer) {p : Point τ} (hp : p.pending = none) :
    PendingDiffer (Function.update point i p) sources (acquired ++ [.execTask r timer]) := by
  have hMove : ∀ other, p.pending = some other → (point i).pending = some other := by simp [hp]
  have hMoved := h.move hMove rfl
  constructor
  · exact hMoved.created
  · intro j other hj
    rw [registered_execTask, List.mem_append, List.mem_singleton]
    rintro (hMem | rfl)
    · exact hMoved.unregistered j other hj hMem
    · have hji : j ≠ i := by
        rintro rfl
        rw [Function.update_self, hp] at hj
        cases hj
      rw [Function.update_of_ne hji] at hj
      exact hji (h.one j i other hj hTimer)
  · exact hMoved.one
  · rw [registered_execTask]
    exact List.nodup_append_comm.mp (List.nodup_cons.mpr ⟨h.unregistered i timer hTimer, h.distinct⟩)
  · intro other hMem
    rw [registered_execTask, List.mem_append, List.mem_singleton] at hMem
    obtain hMem | rfl := hMem
    · exact h.bounded other hMem
    · exact h.created i other hTimer

end PendingDiffer

section Steps

theorem Inv.start : Inv (initial : State ι τ) where
  lock := Exclusive.start fun _ h => h
  holder i := ⟨fun h => (by cases h), fun h => h.elim⟩
  turn i h := h.elim
  guarded call h := absurd h List.not_mem_nil
  knows i := trivial
  pending := ⟨fun i timer h => (by cases h), fun i timer h => (by cases h), fun i j timer h => (by cases h),
    List.nodup_nil, fun timer h => absurd h List.not_mem_nil⟩
  free _ := ⟨TimersMatch.initial, CancelledMatch.initial⟩
  held i := trivial
  answered r result h := absurd h List.not_mem_nil
  differ := ⟨fun i j h => h.elim, fun i h => h.elim, List.nodup_nil⟩

theorem Inv.turn_lt {s : State ι τ} (h : Inv s) {i : ι} (hi : (s.point i).Owing) :
    s.turn i < s.acquired.length := by
  have hTurn := h.turn i
  have hKnows := h.knows i
  cases hp : s.point i with
  | readCount | store | signalExec =>
    rw [hp] at hTurn
    exact Nat.lt_of_succ_le (Nat.le_of_eq (hTurn trivial))
  | setHandler | resume =>
    rw [hp] at hKnows
    exact Answer.turn_lt hKnows
  | returnName r name =>
    rw [hp] at hi hKnows
    cases name with
    | none => exact hi.elim
    | some name => exact Answer.turn_lt hKnows
  | _ =>
    rw [hp] at hi
    exact hi.elim

theorem Inv.returned_turn_lt {s : State ι τ} (h : Inv s) :
    ∀ t ∈ turns s.returned, t < s.acquired.length := by
  intro t hMem
  obtain ⟨⟨r, result⟩, hReturned, hTurn⟩ := List.mem_filterMap.mp hMem
  obtain ⟨⟨_, name⟩, rfl, rfl⟩ := Option.map_eq_some_iff.mp hTurn
  exact Answer.turn_lt (h.answered r _ hReturned)

theorem Inv.others_outside {s : State ι τ} (h : Inv s) {i j : ι} (hi : (s.point i).Inside) (hji : j ≠ i) :
    ¬ (s.point j).Inside :=
  fun hj => hji (h.lock.unique hj hi)

theorem Inv.elsewhere {s : State ι τ} (h : Inv s) (context : ι → Context) (running : List Nat) :
    Inv { s with context := context, running := running } :=
  ⟨h.lock, h.holder, h.turn, h.guarded, h.knows, h.pending, h.free, h.held, h.answered, h.differ⟩

variable [DecidableEq ι]

/-- A step outside of the guarded statements. -/
theorem Inv.outside {s : State ι τ} (h : Inv s) {i : ι} {p : Point τ} {sources : List (Source τ)}
    {returned : List (Request τ × Option (Nat × String))}
    (hi : ¬ (s.point i).Inside) (hp : ¬ p.Inside) (hKnows : p.Knows s.acquired (s.turn i))
    (hCancelled : ∀ timer, IsCancelled sources timer ↔ IsCancelled s.sources timer)
    (hPending : PendingDiffer (Function.update s.point i p) sources s.acquired)
    (hAnswered : ∀ r result, (r, result) ∈ returned → Answered s.acquired r result)
    (hTurns : TurnsDiffer (Function.update s.point i p) s.turn returned) :
    Inv ({ s with sources := sources, returned := returned }.goto i p) where
  lock := h.lock.move (iff_of_false hp hi)
  holder := by
    refine (Function.forall_update_iff s.point fun j p => s.holder = some j ↔ p.Inside).mpr
      ⟨?_, fun j _ => h.holder j⟩
    exact iff_of_false (fun hHolder => hi ((h.holder i).mp hHolder)) hp
  turn j hj := h.turn j (of_update (fun hInside => absurd hInside hp) j hj)
  guarded := h.guarded
  knows := (Function.forall_update_iff s.point fun j p => p.Knows s.acquired (s.turn j)).mpr
    ⟨hKnows, fun j _ => h.knows j⟩
  pending := hPending
  free hFree := ⟨(h.free hFree).1, (h.free hFree).2.congr hCancelled⟩
  held := (Function.forall_update_iff s.point fun _ p => p.Describes s.timers_ sources s.acquired).mpr
    ⟨describes_of_outside hp _ _ _, fun j _ => (h.held j).congr hCancelled⟩
  answered := hAnswered
  differ := hTurns

/-- A step of the holder before its signal. -/
theorem Inv.inside {s : State ι τ} (h : Inv s) {i : ι} {p : Point τ} {timers_ : AList fun _ : String => Nat}
    {sources : List (Source τ)} (hi : (s.point i).Inside) (hp : p.Inside)
    (hKnows : p.Knows s.acquired (s.turn i)) (hOwing : p.Owing → (s.point i).Owing)
    (hLength : sources.length = s.sources.length) (hDescribes : p.Describes timers_ sources s.acquired) :
    Inv ({ s with timers_ := timers_, sources := sources }.goto i p) where
  lock := h.lock.move (iff_of_true hp hi)
  holder := (Function.forall_update_iff s.point fun j p => s.holder = some j ↔ p.Inside).mpr
    ⟨iff_of_true ((h.holder i).mpr hi) hp, fun j _ => h.holder j⟩
  turn := (Function.forall_update_iff s.point fun j p => p.Inside → s.turn j + 1 = s.acquired.length).mpr
    ⟨fun _ => h.turn i hi, fun j _ => h.turn j⟩
  guarded := h.guarded
  knows := (Function.forall_update_iff s.point fun j p => p.Knows s.acquired (s.turn j)).mpr
    ⟨hKnows, fun j _ => h.knows j⟩
  pending := h.pending.move (by simp [pending_of_inside hp]) hLength
  free hFree := absurd (h.lock.value_eq_zero hi) (Nat.ne_of_gt hFree)
  held := (Function.forall_update_iff s.point fun _ p => p.Describes timers_ sources s.acquired).mpr
    ⟨hDescribes, fun _ hji => describes_of_outside (h.others_outside hi hji) _ _ _⟩
  answered := h.answered
  differ := h.differ.move hOwing

theorem Inv.acquire {s : State ι τ} (h : Inv s) {i : ι} {p : Point τ} {call : Accepted τ}
    (hFree : 0 < s.semaphore_) (hp : p.Inside) (hGuarded : call.Guarded)
    (hKnows : ∀ acquired turn, p.Knows acquired turn)
    (hPending : PendingDiffer (Function.update s.point i p) s.sources (s.acquired ++ [call]))
    (hDescribes : p.Describes s.timers_ s.sources (s.acquired ++ [call])) :
    Inv ({ s with
      semaphore_ := s.semaphore_ - 1
      holder := some i
      acquired := s.acquired ++ [call]
      turn := Function.update s.turn i s.acquired.length }.goto i p) where
  lock := h.lock.acquire hFree hp
  holder := by
    refine (Function.forall_update_iff s.point fun j p => some i = some j ↔ p.Inside).mpr
      ⟨by simp [hp], ?_⟩
    intro j hji
    exact iff_of_false (fun hij => hji (Option.some.inj hij).symm) (h.lock.nobody_inside hFree j)
  turn j hj := by
    have hji : j = i := by
      by_contra hji
      exact h.lock.nobody_inside hFree j (by simpa [State.goto, hji] using hj)
    subst hji
    simp [State.goto]
  guarded := by
    simpa [State.goto, or_imp, forall_and, hGuarded] using h.guarded
  knows := by
    refine (Function.forall_update_iff s.point fun j p => p.Knows _ (Function.update s.turn i _ j)).mpr
      ⟨hKnows _ _, fun j hji => ?_⟩
    rw [Function.update_of_ne hji]
    exact (h.knows j).append call
  pending := hPending
  free hFree := by
    have hOne := h.lock.value_le_one
    simp only [State.goto] at hFree
    omega
  held := (Function.forall_update_iff s.point fun _ p => p.Describes s.timers_ s.sources _).mpr
    ⟨hDescribes, fun j _ => describes_of_outside (h.lock.nobody_inside hFree j) _ _ _⟩
  answered r result hMem := (h.answered r result hMem).append call
  differ := h.differ.acquire (fun _ => h.turn_lt) h.returned_turn_lt i p

/-- A free semaphore is acquired by a call that finds everything settled. -/
theorem Inv.wait {s s' : State ι τ} (h : Inv s) {i : ι} {p : Point τ} {call : Accepted τ}
    (hWait : s.wait i call p = some s') (hp : p.Inside) (hGuarded : call.Guarded)
    (hKnows : ∀ acquired turn, p.Knows acquired turn)
    (hPending : PendingDiffer (Function.update s.point i p) s.sources (s.acquired ++ [call]))
    (hDescribes : Begun s.timers_ s.sources (s.acquired ++ [call]) call →
      p.Describes s.timers_ s.sources (s.acquired ++ [call])) : Inv s' := by
  unfold State.wait at hWait
  split at hWait
  · cases hWait
  · cases hWait
    have hFree := Nat.pos_of_ne_zero ‹_›
    exact h.acquire hFree hp hGuarded hKnows hPending (hDescribes ⟨s.acquired, rfl, h.free hFree⟩)

theorem Inv.release {s : State ι τ} (h : Inv s) {i : ι} {p : Point τ} (hi : (s.point i).Inside)
    (hp : ¬ p.Inside) (hKnows : p.Knows s.acquired (s.turn i)) (hPending : p.pending = none)
    (hOwing : p.Owing → (s.point i).Owing) (hSettled : Settled s.timers_ s.sources s.acquired) :
    Inv (s.signal i p) where
  lock := h.lock.release hi hp
  holder := (Function.forall_update_iff s.point fun j p => none = some j ↔ p.Inside).mpr
    ⟨iff_of_false (by simp) hp, fun _ hji => iff_of_false (by simp) (h.others_outside hi hji)⟩
  turn j hj := h.turn j (of_update (fun hInside => absurd hInside hp) j hj)
  guarded := h.guarded
  knows := (Function.forall_update_iff s.point fun j p => p.Knows s.acquired (s.turn j)).mpr
    ⟨hKnows, fun j _ => h.knows j⟩
  pending := h.pending.move (by simp [hPending]) rfl
  free _ := hSettled
  held := (Function.forall_update_iff s.point fun _ p => p.Describes s.timers_ s.sources s.acquired).mpr
    ⟨describes_of_outside hp _ _ _, fun j _ => h.held j⟩
  answered := h.answered
  differ := h.differ.move hOwing

theorem Inv.goto {s : State ι τ} (h : Inv s) {i : ι} {q p : Point τ} (hPoint : s.point i = q)
    (hq : ¬ q.Inside) (hp : ¬ p.Inside) (hKnows : p.Knows s.acquired (s.turn i))
    (hPending : ∀ timer, p.pending = some timer → q.pending = some timer) (hOwing : p.Owing → q.Owing) :
    Inv (s.goto i p) := by
  subst hPoint
  exact h.outside hq hp hKnows (fun _ => Iff.rfl) (h.pending.move hPending rfl) h.answered
    (h.differ.move hOwing)

/-- The settings of a source are no part of what the serial run describes. -/
theorem Inv.setSource {s : State ι τ} (h : Inv s) {i : ι} {q p : Point τ} (hPoint : s.point i = q)
    (hq : ¬ q.Inside) (hp : ¬ p.Inside) (hKnows : p.Knows s.acquired (s.turn i))
    (hPending : ∀ timer, p.pending = some timer → q.pending = some timer) (hOwing : p.Owing → q.Owing)
    (timer : Nat) {f : Source τ → Source τ} (hf : ∀ source, (f source).cancelled = source.cancelled) :
    Inv ((s.setSource timer f).goto i p) := by
  subst hPoint
  exact h.outside hq hp hKnows (isCancelled_modify_of_kept hf timer)
    (h.pending.move hPending (List.length_modify _ _ _)) h.answered (h.differ.move hOwing)

theorem Inv.finish {s : State ι τ} {i : ι} (h : Inv (s.goto i .idle)) : Inv (s.finish i) := by
  unfold State.finish
  split
  · exact h.elsewhere _ _
  · exact h

theorem Inv.returnName {s : State ι τ} (h : Inv s) {i : ι} {r : Request τ} {name : Option String}
    (hPoint : s.point i = .returnName r name) :
    Inv ({ s with returned := s.returned ++ [(r, name.map fun name => (s.turn i, name))] }.finish i) := by
  have hKnows := h.knows i
  rw [hPoint] at hKnows
  apply Inv.finish
  refine h.outside (p := .idle) (by simp [hPoint, Point.Inside]) id trivial (fun _ => Iff.rfl)
    (h.pending.move nofun rfl) ?_ ?_
  · intro r' result hMem
    obtain hMem | hMem := List.mem_append.mp hMem
    · exact h.answered r' result hMem
    · cases List.mem_singleton.mp hMem
      exact hKnows
  · cases name with
    | none =>
      have hTurns : turns (s.returned ++ [(r, none)]) = turns s.returned := by simp [turns]
      have hMoved : TurnsDiffer (Function.update s.point i .idle) s.turn s.returned :=
        h.differ.move False.elim
      exact ⟨hMoved.owing, fun j hj => hTurns ▸ hMoved.fresh j hj, hTurns ▸ hMoved.once⟩
    | some name => exact h.differ.returns (by simp [hPoint, Point.Owing]) id r name

theorem Inv.execStatement {s s' : State ι τ} (h : Inv s) {i : ι} (hStep : execStatement s i = some s') :
    Inv s' := by
  have hKnows := h.knows i
  have hHeld := h.held i
  have hTurn := h.turn i
  unfold Interleaved.execStatement at hStep
  cases hp : s.point i with
  | testRequest r =>
    simp only [hp, Option.some.injEq] at hStep
    subst hStep
    cases hRefused : r.refused with
    | true => exact h.goto hp id id hRefused nofun id
    | false => exact h.goto hp id id hRefused nofun id
  | createSource r =>
    rw [hp] at hKnows
    simp only [hp, Option.some.injEq] at hStep
    subst hStep
    exact h.outside (hp ▸ id) id hKnows (isCancelled_create r.async) (h.pending.create i r _) h.answered
      (h.differ.move False.elim)
  | setTimer r timer =>
    rw [hp] at hKnows
    simp only [hp, Option.some.injEq] at hStep
    subst hStep
    exact h.setSource (p := .waitExec r timer) hp id id hKnows (fun _ => id) id timer fun _ => rfl
  | waitExec r timer =>
    rw [hp] at hKnows
    simp only [hp] at hStep
    exact h.wait hStep trivial hKnows (fun _ _ => trivial)
      (h.pending.execTask (by simp [hp, Point.pending]) rfl) id
  | readCount r timer =>
    rw [hp] at hHeld
    simp only [hp, Option.some.injEq] at hStep
    subst hStep
    exact h.inside (hp ▸ trivial) trivial trivial (fun _ => hp ▸ trivial) rfl ⟨hHeld, rfl⟩
  | store r timer name =>
    rw [hp] at hHeld hTurn
    obtain ⟨hBegun, rfl⟩ := hHeld
    simp only [hp, Option.some.injEq] at hStep
    subst hStep
    exact h.inside (hp ▸ trivial) trivial (hBegun.answer h.guarded (hTurn trivial))
      (fun _ => hp ▸ trivial) rfl (hBegun.stores h.guarded)
  | signalExec r timer name =>
    rw [hp] at hHeld hKnows
    simp only [hp, Option.some.injEq] at hStep
    subst hStep
    exact h.release (hp ▸ trivial) id hKnows rfl (fun _ => hp ▸ trivial) hHeld
  | setHandler r timer name =>
    rw [hp] at hKnows
    simp only [hp, Option.some.injEq] at hStep
    subst hStep
    exact h.setSource (p := .resume r timer name) hp id id hKnows nofun id timer fun _ => rfl
  | resume r timer name =>
    rw [hp] at hKnows
    simp only [hp, Option.some.injEq] at hStep
    subst hStep
    exact h.setSource (p := .returnName r (some name)) hp id id hKnows nofun id timer fun _ => rfl
  | returnName r name =>
    simp only [hp, Option.some.injEq] at hStep
    subst hStep
    exact h.returnName hp
  | _ => simp only [hp, reduceCtorEq] at hStep

theorem Inv.cancelStatement {s s' : State ι τ} (h : Inv s) {i : ι} (hStep : cancelStatement s i = some s') :
    Inv s' := by
  have hKnows := h.knows i
  have hHeld := h.held i
  unfold Interleaved.cancelStatement at hStep
  cases hp : s.point i with
  | testName name =>
    cases name with
    | none =>
      simp only [hp, Option.some.injEq] at hStep
      subst hStep
      exact h.goto hp id id trivial nofun id
    | some name =>
      simp only [hp, Option.some.injEq] at hStep
      subst hStep
      split
      · exact h.goto hp id id trivial nofun id
      · exact h.goto hp id id ‹_› nofun id
  | waitCancel name =>
    rw [hp] at hKnows
    simp only [hp] at hStep
    exact h.wait hStep trivial hKnows (fun _ _ => trivial)
      ((h.pending.move (p := .lookup name) nofun rfl).cancelTask name) id
  | lookup name =>
    rw [hp] at hHeld
    simp only [hp, Option.some.injEq] at hStep
    subst hStep
    cases hEntry : s.timers_.lookup name with
    | none => exact h.inside (hp ▸ trivial) trivial trivial False.elim rfl (Begun.finds_none hHeld hEntry)
    | some timer => exact h.inside (hp ▸ trivial) trivial trivial False.elim rfl ⟨hHeld, hEntry⟩
  | cancelSource name timer =>
    rw [hp] at hHeld
    simp only [hp, Option.some.injEq] at hStep
    subst hStep
    exact h.inside (hp ▸ trivial) trivial trivial False.elim (List.length_modify _ _ _)
      (hHeld.1.cancels h.guarded h.pending.bounded hHeld.2)
  | remove name =>
    rw [hp] at hHeld
    simp only [hp, Option.some.injEq] at hStep
    subst hStep
    exact h.inside (hp ▸ trivial) trivial trivial False.elim rfl (HalfCancelled.removes hHeld h.guarded)
  | signalCancel =>
    rw [hp] at hHeld
    simp only [hp, Option.some.injEq] at hStep
    subst hStep
    exact h.release (hp ▸ trivial) id trivial rfl False.elim hHeld
  | returnCancel =>
    simp only [hp, Option.some.injEq] at hStep
    subst hStep
    exact Inv.finish (h.goto hp id id trivial nofun id)
  | _ => simp only [hp, reduceCtorEq] at hStep

end Steps

end Invariant

end OCNote.Timer.Interleaved
