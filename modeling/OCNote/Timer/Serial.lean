import OCNote.Timer.Handles
import OCNote.Timer.Interleaved

/-! # The accepted calls one at a time

A serial run performs each accepted call as one step. Its sources are numbered in the
order in which the calls acquired the semaphore, those of the threads in the order of
their creation. -/

namespace OCNote.Timer.Interleaved
open OCNote.Support
set_option autoImplicit false

universe u

variable {τ : Type u}

def Accepted.event : Accepted τ → Event τ
  | .execTask r _ => .execTask r
  | .cancelTask name => .cancelTask (some name)

def Accepted.perform (t : Timer.State τ) : Accepted τ → Timer.State τ
  | .execTask r _ => (Timer.execTask t r).1
  | .cancelTask name => Timer.cancelTask t (some name)

/-- The call has passed its guard. -/
def Accepted.Guarded : Accepted τ → Prop
  | .execTask r _ => r.refused = false
  | .cancelTask name => name.length ≠ 0

def serial (calls : List (Accepted τ)) : Timer.State τ := calls.foldl Accepted.perform Timer.initial

/-- The sources in the order in which the calls that created them acquired the semaphore. -/
def registered (calls : List (Accepted τ)) : List Nat :=
  calls.filterMap fun
    | .execTask _ timer => some timer
    | .cancelTask _ => none

theorem serial_concat (calls : List (Accepted τ)) (c : Accepted τ) :
    serial (calls ++ [c]) = c.perform (serial calls) := by
  rw [serial, List.foldl_append]
  rfl

/-- A serial run is a run of the registry. -/
theorem timers_run_serial (calls : List (Accepted τ)) :
    (timers τ).run (calls.map Accepted.event) = some (serial calls) := by
  induction calls using List.reverseRecOn with
  | nil => rfl
  | append_singleton calls c ih =>
    rw [List.map_append, List.map_singleton, Machine.run_concat, ih, serial_concat]
    cases c <;> rfl

@[simp] theorem registered_execTask (calls : List (Accepted τ)) (r : Request τ) (timer : Nat) :
    registered (calls ++ [.execTask r timer]) = registered calls ++ [timer] := by
  simp [registered]

@[simp] theorem registered_cancelTask (calls : List (Accepted τ)) (name : String) :
    registered (calls ++ [.cancelTask name]) = registered calls := by
  simp [registered]

def IsCancelled (sources : List (Source τ)) (timer : Nat) : Prop :=
  sources[timer]?.map Source.cancelled = some true

/-- The entries are those of the serial run. -/
structure TimersMatch (timers_ : AList fun _ : String => Nat) (calls : List (Accepted τ)) : Prop where
  keys : timers_.keys = (serial calls).timers_.keys
  lookup : ∀ name, timers_.lookup name = ((serial calls).timers_.lookup name).bind ((registered calls)[·]?)

/-- The cancelled sources are those of the serial run. -/
def CancelledMatch (sources : List (Source τ)) (calls : List (Accepted τ)) : Prop :=
  ∀ timer, IsCancelled sources timer ↔ ∃ k : Nat, (registered calls)[k]? = some timer ∧
    (serial calls).sources[k]?.map Timer.Source.cancelled = some true

section Serial

variable {timers_ : AList fun _ : String => Nat} {sources : List (Source τ)} {calls : List (Accepted τ)}

theorem TimersMatch.initial : TimersMatch (∅ : AList fun _ : String => Nat) ([] : List (Accepted τ)) :=
  ⟨rfl, fun _ => rfl⟩

theorem CancelledMatch.initial : CancelledMatch ([] : List (Source τ)) [] := by
  intro timer
  simp [IsCancelled, registered]

theorem CancelledMatch.congr {sources' : List (Source τ)} (h : CancelledMatch sources calls)
    (hSame : ∀ timer, IsCancelled sources' timer ↔ IsCancelled sources timer) :
    CancelledMatch sources' calls := by
  intro timer
  rw [hSame timer, h timer]

theorem isCancelled_create (async : Bool) (timer : Nat) :
    IsCancelled (sources ++ [Source.create async]) timer ↔ IsCancelled sources timer := by
  obtain hOld | hNew := Nat.lt_or_ge timer sources.length
  · rw [IsCancelled, IsCancelled, List.getElem?_append_left hOld]
  · rw [IsCancelled, IsCancelled, List.getElem?_append_right hNew, List.getElem?_eq_none hNew]
    cases timer - sources.length <;> simp [Source.create]

/-- Every statement but `dispatch_source_cancel` leaves the mark of a source as it is. -/
theorem isCancelled_modify_of_kept {f : Source τ → Source τ}
    (hf : ∀ source, (f source).cancelled = source.cancelled) (timer other : Nat) :
    IsCancelled (sources.modify timer f) other ↔ IsCancelled sources other := by
  rw [IsCancelled, IsCancelled, List.getElem?_modify]
  split
  · simp [Function.comp_def, hf]
  · simp

theorem TimersMatch.lookup_eq_none (h : TimersMatch timers_ calls) (name : String) :
    timers_.lookup name = none ↔ (serial calls).timers_.lookup name = none := by
  rw [AList.lookup_eq_none, AList.lookup_eq_none, AList.mem_keys, AList.mem_keys, h.keys]

theorem TimersMatch.lookup_eq_some (h : TimersMatch timers_ calls) {name : String} {k : Nat}
    (hEntry : (serial calls).timers_.lookup name = some k) :
    ∃ timer, (registered calls)[k]? = some timer ∧ timers_.lookup name = some timer := by
  have hLookup := h.lookup name
  rw [hEntry] at hLookup
  cases hTimer : (registered calls)[k]? with
  | none =>
    have hNone := (h.lookup_eq_none name).mp (hLookup.trans hTimer)
    rw [hEntry] at hNone
    cases hNone
  | some timer => exact ⟨timer, rfl, hLookup.trans hTimer⟩

theorem TimersMatch.count_eq (h : TimersMatch timers_ calls) :
    count timers_ = count (serial calls).timers_ := by
  have hLength := congrArg List.length h.keys
  simpa [AList.keys, List.keys, count] using hLength

/-- The name is computed from the number of entries alone. -/
theorem TimersMatch.newName_eq (h : TimersMatch timers_ calls) :
    Nat.repr (count timers_) = newName (serial calls) := by
  rw [h.count_eq]
  rfl

theorem serial_execTask {r : Request τ} {timer : Nat} {task : τ} (hAccepted : r.refused = false)
    (hTask : r.task = some task) :
    serial (calls ++ [.execTask r timer]) = register (serial calls) r task := by
  rw [serial_concat]
  exact congrArg Prod.fst (execTask_of_accepted hAccepted hTask)

theorem serial_length (hGuarded : ∀ c ∈ calls, c.Guarded) :
    (serial calls).sources.length = (registered calls).length := by
  induction calls using List.reverseRecOn with
  | nil => rfl
  | append_singleton calls c ih =>
    have hBefore := ih (List.forall_mem_append.mp hGuarded).1
    cases c with
    | execTask r timer =>
      have hAccepted : r.refused = false := hGuarded (.execTask r timer) (by simp)
      obtain ⟨task, hTask⟩ := task_of_accepted hAccepted
      rw [serial_execTask hAccepted hTask]
      simp [register, hBefore]
    | cancelTask name =>
      rw [serial_concat, registered_cancelTask, ← hBefore]
      exact sources_cancelTask_length _ _

theorem TimersMatch.execTask (h : TimersMatch timers_ calls) (hGuarded : ∀ c ∈ calls, c.Guarded)
    {r : Request τ} (hAccepted : r.refused = false) (timer : Nat) :
    TimersMatch (timers_.insert (newName (serial calls)) timer) (calls ++ [.execTask r timer]) := by
  obtain ⟨task, hTask⟩ := task_of_accepted hAccepted
  have hSerial : serial (calls ++ [.execTask r timer]) = register (serial calls) r task :=
    serial_execTask hAccepted hTask
  constructor
  · rw [hSerial, register, AList.keys_insert, AList.keys_insert, h.keys]
  · intro name
    rw [hSerial, register, registered_execTask]
    obtain rfl | hName := eq_or_ne name (newName (serial calls))
    · simp [serial_length hGuarded]
    · rw [AList.lookup_insert_ne hName, AList.lookup_insert_ne hName]
      cases hEntry : (serial calls).timers_.lookup name with
      | none => exact (h.lookup_eq_none name).mpr hEntry
      | some k =>
        obtain ⟨old, hOld, hLookup⟩ := h.lookup_eq_some hEntry
        rw [hLookup]
        exact (List.getElem?_append_left (List.getElem?_eq_some_iff.mp hOld).1 ▸ hOld).symm

/-- A new source has not been cancelled. -/
theorem CancelledMatch.execTask (h : CancelledMatch sources calls) (hGuarded : ∀ c ∈ calls, c.Guarded)
    {r : Request τ} (hAccepted : r.refused = false) (timer : Nat) :
    CancelledMatch sources (calls ++ [.execTask r timer]) := by
  obtain ⟨task, hTask⟩ := task_of_accepted hAccepted
  have hLength := serial_length hGuarded
  intro other
  rw [h other, serial_execTask hAccepted hTask, registered_execTask, register]
  constructor
  · rintro ⟨k, hk, hCancelled⟩
    have hBound := (List.getElem?_eq_some_iff.mp hk).1
    refine ⟨k, ?_, ?_⟩
    · rw [List.getElem?_append_left hBound, hk]
    · rw [List.getElem?_append_left (hLength ▸ hBound), hCancelled]
  · rintro ⟨k, hk, hCancelled⟩
    obtain hOld | hNew := Nat.lt_or_ge k (registered calls).length
    · rw [List.getElem?_append_left hOld] at hk
      rw [List.getElem?_append_left (hLength ▸ hOld)] at hCancelled
      exact ⟨k, hk, hCancelled⟩
    · have hBound := (List.getElem?_eq_some_iff.mp hk).1
      obtain rfl : k = (serial calls).sources.length := by
        rw [List.length_append, List.length_singleton] at hBound
        omega
      simp at hCancelled

theorem serial_cancelTask_of_none {name : String} (hEntry : (serial calls).timers_.lookup name = none) :
    serial (calls ++ [.cancelTask name]) = serial calls := by
  rw [serial_concat]
  obtain ⟨hSame, _⟩ | ⟨n, k, hName, hFound, _⟩ := cancelTask_cases (serial calls) (some name)
  · exact hSame
  · cases hName
    rw [hEntry] at hFound
    cases hFound

theorem TimersMatch.cancelTask_of_none (h : TimersMatch timers_ calls) {name : String}
    (hEntry : (serial calls).timers_.lookup name = none) :
    TimersMatch timers_ (calls ++ [.cancelTask name]) := by
  constructor
  · rw [serial_cancelTask_of_none hEntry, h.keys]
  · intro other
    rw [serial_cancelTask_of_none hEntry, registered_cancelTask, h.lookup]

theorem CancelledMatch.cancelTask_of_none (h : CancelledMatch sources calls) {name : String}
    (hEntry : (serial calls).timers_.lookup name = none) :
    CancelledMatch sources (calls ++ [.cancelTask name]) := by
  intro other
  rw [serial_cancelTask_of_none hEntry, registered_cancelTask, h other]

theorem serial_cancelTask_of_some {name : String} (hName : name.length ≠ 0) {k : Nat}
    (hEntry : (serial calls).timers_.lookup name = some k) :
    serial (calls ++ [.cancelTask name]) = { serial calls with
      sources := (serial calls).sources.modify k Timer.Source.cancel
      timers_ := (serial calls).timers_.erase name } := by
  rw [serial_concat]
  obtain ⟨_, hNone⟩ | ⟨n, timer, hn, hFound, hCancel⟩ := cancelTask_cases (serial calls) (some name)
  · obtain hEmpty | hNone := hNone name rfl
    · exact absurd hEmpty hName
    · rw [hEntry] at hNone
      cases hNone
  · cases hn
    rw [hEntry] at hFound
    cases hFound
    exact hCancel

theorem TimersMatch.cancelTask (h : TimersMatch timers_ calls) {name : String} (hName : name.length ≠ 0)
    {k : Nat} (hEntry : (serial calls).timers_.lookup name = some k) :
    TimersMatch (timers_.erase name) (calls ++ [.cancelTask name]) := by
  have hSerial := serial_cancelTask_of_some hName hEntry
  constructor
  · rw [hSerial, AList.keys_erase, AList.keys_erase, h.keys]
  · intro other
    rw [hSerial, registered_cancelTask]
    obtain rfl | hOther := eq_or_ne other name
    · simp
    · rw [AList.lookup_erase_ne hOther, AList.lookup_erase_ne hOther, h.lookup]

theorem isCancelled_modify {timer other : Nat} (hTimer : timer < sources.length) :
    IsCancelled (sources.modify timer fun source => { source with cancelled := true }) other ↔
      other = timer ∨ IsCancelled sources other := by
  obtain rfl | hOther := eq_or_ne other timer
  · simp [IsCancelled, List.getElem?_eq_getElem hTimer]
  · simp [IsCancelled, Ne.symm hOther, hOther]

/-- The serial call cancels the one source that the thread has cancelled. -/
theorem CancelledMatch.cancelTask (h : CancelledMatch sources calls) (hGuarded : ∀ c ∈ calls, c.Guarded)
    {name : String} (hName : name.length ≠ 0) {k timer : Nat}
    (hEntry : (serial calls).timers_.lookup name = some k) (hTimer : (registered calls)[k]? = some timer)
    (hSource : timer < sources.length) :
    CancelledMatch (sources.modify timer fun source => { source with cancelled := true })
      (calls ++ [.cancelTask name]) := by
  intro other
  rw [isCancelled_modify hSource, h other, serial_cancelTask_of_some hName hEntry, registered_cancelTask]
  have hBound := (List.getElem?_eq_some_iff.mp hTimer).1
  constructor
  · rintro (rfl | ⟨j, hj, hCancelled⟩)
    · refine ⟨k, hTimer, ?_⟩
      simp [List.getElem?_eq_getElem (serial_length hGuarded ▸ hBound), Timer.Source.cancel]
    · refine ⟨j, hj, ?_⟩
      rw [List.getElem?_modify]
      split
      · obtain ⟨source, hSource, _⟩ := Option.map_eq_some_iff.mp hCancelled
        simp [hSource, Timer.Source.cancel]
      · simpa using hCancelled
  · rintro ⟨j, hj, hCancelled⟩
    rw [List.getElem?_modify] at hCancelled
    split at hCancelled
    · subst j
      rw [hTimer] at hj
      exact .inl (Option.some.inj hj).symm
    · exact .inr ⟨j, hj, by simpa using hCancelled⟩

end Serial

end OCNote.Timer.Interleaved
