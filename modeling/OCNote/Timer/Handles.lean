import Std.Data.String.ToNat
import OCNote.Timer.MBTimer

/-! # What a timer name refers to

A history variable records, for each source, how many entries `timers_` had when the
source was created, and which sources are due: created, and since then neither
cancelled under their name nor, for a one-shot, fired. On every run an entry of
`timers_` is the youngest due source of its name. -/

namespace OCNote.Timer
open OCNote.Support
set_option autoImplicit false

universe u

structure History where
  /-- `timers_.count` at the creation of each source. -/
  born : List Nat
  due : List Nat
  deriving DecidableEq

variable {τ : Type u}

def History.stop (h : History) (s : State τ) (name : Option String) : History :=
  { h with due := h.due.filter fun i => nameOf s i ≠ name }

def selfCancels (s : State τ) (i : Nat) : Bool :=
  match s.sources[i]? with
  | some source => !source.repeats
  | none => false

def History.note (h : History) (s : State τ) (e : Event τ) (_ : State τ) : History :=
  match e with
  | .execTask r =>
    if r.refused then h else ⟨h.born ++ [count s.timers_], h.due ++ [s.sources.length]⟩
  | .cancelTask name => h.stop s name
  | .cancelHandle i => h.stop s (nameOf s i)
  | .fire _ => h
  | .complete i => if selfCancels s i then h.stop s (nameOf s i) else h

def observed (τ : Type u) : Machine (State τ × History) (Event τ) :=
  (timers τ).withHistory ⟨[], []⟩ History.note

section Calls

theorem task_of_accepted {r : Request τ} (h : r.refused = false) : ∃ task, r.task = some task := by
  cases hTask : r.task with
  | none => simp [Request.refused, hTask] at h
  | some task => exact ⟨task, rfl⟩

theorem execTask_of_accepted {s : State τ} {r : Request τ} {task : τ} (h : r.refused = false)
    (hTask : r.task = some task) : execTask s r = (register s r task, some (newName s)) := by
  simp only [execTask, h, hTask]

theorem execTask_of_refused {s : State τ} {r : Request τ} (h : r.refused = true) :
    execTask s r = (s, none) := by
  simp only [execTask, h]

theorem nameOf_register_self (s : State τ) (r : Request τ) (task : τ) :
    nameOf (register s r task) s.sources.length = some (newName s) := by
  simp [nameOf, register]

theorem nameOf_register_of_lt {s : State τ} {r : Request τ} {task : τ} {i : Nat}
    (h : i < s.sources.length) : nameOf (register s r task) i = nameOf s i := by
  simp [nameOf, register, List.getElem?_append_left h]

theorem cancelTask_cases (s : State τ) (name : Option String) :
    (cancelTask s name = s ∧ ∀ n, name = some n → n.length = 0 ∨ s.timers_.lookup n = none) ∨
    ∃ n timer, name = some n ∧ s.timers_.lookup n = some timer ∧ cancelTask s name =
      { s with sources := s.sources.modify timer Source.cancel, timers_ := s.timers_.erase n } := by
  cases name with
  | none => exact .inl ⟨rfl, fun n h => by cases h⟩
  | some n =>
    by_cases hEmpty : n.length = 0
    · refine .inl ⟨by simp [cancelTask, hEmpty], fun m h => ?_⟩
      cases h
      exact .inl hEmpty
    · cases hEntry : s.timers_.lookup n with
      | none =>
        refine .inl ⟨by simp [cancelTask, hEmpty, hEntry], fun m h => ?_⟩
        cases h
        exact .inr hEntry
      | some timer => exact .inr ⟨n, timer, rfl, hEntry, by simp [cancelTask, hEmpty, hEntry]⟩

theorem nameOf_modify (s : State τ) (timer i : Nat) :
    (s.sources.modify timer Source.cancel)[i]?.map Source.name = nameOf s i := by
  rw [List.getElem?_modify, nameOf]
  split
  · cases s.sources[i]? <;> rfl
  · simp

@[simp] theorem nameOf_cancelTask (s : State τ) (name : Option String) (i : Nat) :
    nameOf (cancelTask s name) i = nameOf s i := by
  obtain ⟨hSame, _⟩ | ⟨n, timer, _, _, hCancel⟩ := cancelTask_cases s name
  · rw [hSame]
  · rw [hCancel]
    exact nameOf_modify s timer i

theorem cancelTask_running (s : State τ) (running : List Nat) (name : Option String) :
    cancelTask { s with running := running } name = { cancelTask s name with running := running } := by
  cases name with
  | none => rfl
  | some n =>
    simp only [cancelTask]
    split
    · rfl
    · split <;> rfl

end Calls

section Steps

theorem observed_step_cases {s s' : State τ} {h h' : History} {e : Event τ}
    (hStep : (observed τ).step (s, h) e = some (s', h')) :
    (s'.timers_ = s.timers_ ∧ s'.sources = s.sources ∧ h' = h) ∨
    (∃ r task, e = .execTask r ∧ r.refused = false ∧ s' = register s r task ∧
      h' = ⟨h.born ++ [count s.timers_], h.due ++ [s.sources.length]⟩) ∨
    ∃ name, s'.timers_ = (cancelTask s name).timers_ ∧ s'.sources = (cancelTask s name).sources ∧
      h' = h.stop s name := by
  obtain ⟨hStep, hNote⟩ := Machine.withHistory_step.mp hStep
  simp only at hStep hNote
  cases e with
  | execTask r =>
    simp only [timers, step, Option.some.injEq] at hStep
    cases hRefused : r.refused with
    | true =>
      rw [execTask_of_refused hRefused] at hStep
      subst hStep
      exact .inl ⟨rfl, rfl, by simp [hNote, History.note, hRefused]⟩
    | false =>
      obtain ⟨task, hTask⟩ := task_of_accepted hRefused
      rw [execTask_of_accepted hRefused hTask] at hStep
      exact .inr (.inl ⟨r, task, rfl, hRefused, hStep.symm, by
        simp [hNote, History.note, hRefused]⟩)
  | cancelTask name =>
    simp only [timers, step, Option.some.injEq] at hStep
    subst hStep
    exact .inr (.inr ⟨name, rfl, rfl, hNote⟩)
  | cancelHandle i =>
    obtain ⟨name, hName, rfl⟩ := Option.map_eq_some_iff.mp hStep
    exact .inr (.inr ⟨some name, rfl, rfl, by simp [hNote, History.note, hName]⟩)
  | fire i =>
    simp only [timers, step] at hStep
    split at hStep
    · cases hStep
      exact .inl ⟨rfl, rfl, hNote⟩
    · cases hStep
  | complete i =>
    simp only [timers, step] at hStep
    split at hStep
    · obtain ⟨source, hSource, rfl⟩ := Option.map_eq_some_iff.mp hStep
      cases hRepeats : source.repeats with
      | true =>
        exact .inl ⟨by simp [completeTask, hRepeats], by simp [completeTask, hRepeats],
          by simp [hNote, History.note, selfCancels, hSource, hRepeats]⟩
      | false =>
        refine .inr (.inr ⟨some source.name, ?_, ?_, ?_⟩)
        · simp [completeTask, hRepeats, cancelTask_running]
        · simp [completeTask, hRepeats, cancelTask_running]
        · simp [hNote, History.note, selfCancels, hSource, hRepeats, nameOf]
    · cases hStep

structure Inv (s : State τ) (h : History) : Prop where
  created : ∀ i ∈ h.due, i < s.sources.length
  /-- A source is named after the number of entries at its creation. -/
  named : h.born.map Nat.repr = s.sources.map Source.name
  found : ∀ n i, s.timers_.lookup n = some i →
    i ∈ h.due ∧ nameOf s i = some n ∧ ∀ j ∈ h.due, nameOf s j = some n → j ≤ i
  held : ∀ i ∈ h.due, ∀ n, nameOf s i = some n → ∃ j, s.timers_.lookup n = some j
  /-- Whatever stopped a source has stopped the older sources of its name as well. -/
  together : ∀ i ∈ h.due, ∀ j, i < j → j < s.sources.length → nameOf s j = nameOf s i → j ∈ h.due
  cancelled : ∀ i ∈ h.due, ∀ source, s.sources[i]? = some source → source.cancelled = false

theorem Inv.congr {s s' : State τ} {h : History} (hInv : Inv s h) (hTimers : s'.timers_ = s.timers_)
    (hSources : s'.sources = s.sources) : Inv s' h := by
  have hName : ∀ i, nameOf s' i = nameOf s i := fun i => by rw [nameOf, nameOf, hSources]
  constructor <;> simp only [hTimers, hSources, hName]
  · exact hInv.created
  · exact hInv.named
  · exact hInv.found
  · exact hInv.held
  · exact hInv.together
  · exact hInv.cancelled

theorem Inv.nameOf_eq {s : State τ} {h : History} (hInv : Inv s h) (i : Nat) :
    nameOf s i = h.born[i]?.map Nat.repr := by
  rw [nameOf, ← List.getElem?_map, ← hInv.named, List.getElem?_map]

theorem Inv.nameOf_eq_iff {s : State τ} {h : History} (hInv : Inv s h) (i j : Nat) :
    nameOf s i = nameOf s j ↔ h.born[i]? = h.born[j]? := by
  rw [hInv.nameOf_eq, hInv.nameOf_eq]
  exact (Option.map_injective fun m n => Nat.repr_inj.mp).eq_iff

theorem Inv.nonempty {s : State τ} {h : History} (hInv : Inv s h) {i : Nat} {n : String}
    (hName : nameOf s i = some n) : n.length ≠ 0 := by
  rw [hInv.nameOf_eq] at hName
  obtain ⟨c, _, rfl⟩ := Option.map_eq_some_iff.mp hName
  exact Nat.ne_of_gt Nat.length_repr_pos

theorem Inv.start : Inv (initial : State τ) ⟨[], []⟩ where
  created i hi := absurd hi List.not_mem_nil
  named := rfl
  found n i h := by simp [initial] at h
  held i hi := absurd hi List.not_mem_nil
  together i hi := absurd hi List.not_mem_nil
  cancelled i hi := absurd hi List.not_mem_nil

/-- The entry of the new name is the new source, every other entry is as before. -/
theorem Inv.found_register {s : State τ} {h : History} (hInv : Inv s h) (r : Request τ) (task : τ)
    {n : String} {i : Nat} (hEntry : (register s r task).timers_.lookup n = some i) :
    i ∈ h.due ++ [s.sources.length] ∧ nameOf (register s r task) i = some n ∧
      ∀ j ∈ h.due ++ [s.sources.length], nameOf (register s r task) j = some n → j ≤ i := by
  have hSelf := nameOf_register_self s r task
  have hOld : ∀ i ∈ h.due, nameOf (Timer.register s r task) i = nameOf s i :=
    fun i hi => nameOf_register_of_lt (hInv.created i hi)
  obtain rfl | hn := eq_or_ne n (newName s)
  · have hi : i = s.sources.length := by
      simpa [Timer.register, AList.lookup_insert, eq_comm] using hEntry
    subst hi
    refine ⟨by simp, hSelf, fun j hj _ => ?_⟩
    obtain hj | hj := List.mem_append.mp hj
    · exact Nat.le_of_lt (hInv.created j hj)
    · exact Nat.le_of_eq (List.mem_singleton.mp hj)
  · have hEntry : s.timers_.lookup n = some i := by
      simpa [Timer.register, AList.lookup_insert_ne hn] using hEntry
    obtain ⟨hDue, hName, hYoungest⟩ := hInv.found n i hEntry
    refine ⟨List.mem_append_left _ hDue, (hOld i hDue).trans hName, fun j hj hjName => ?_⟩
    obtain hj | hj := List.mem_append.mp hj
    · exact hYoungest j hj ((hOld j hj).symm.trans hjName)
    · rw [List.mem_singleton.mp hj, hSelf] at hjName
      exact absurd (Option.some.inj hjName).symm hn

theorem Inv.register {s : State τ} {h : History} (hInv : Inv s h) (r : Request τ) (task : τ) :
    Inv (register s r task) ⟨h.born ++ [count s.timers_], h.due ++ [s.sources.length]⟩ := by
  have hSelf := nameOf_register_self s r task
  have hOld : ∀ i ∈ h.due, nameOf (Timer.register s r task) i = nameOf s i :=
    fun i hi => nameOf_register_of_lt (hInv.created i hi)
  have hLength : (Timer.register s r task).sources.length = s.sources.length + 1 := by
    simp [Timer.register]
  constructor
  · intro i hi
    rw [hLength]
    obtain hi | hi := List.mem_append.mp hi
    · exact Nat.lt_succ_of_lt (hInv.created i hi)
    · rw [List.mem_singleton.mp hi]
      exact Nat.lt_succ_self _
  · simp [Timer.register, hInv.named, newName]
  · exact fun n i hEntry => hInv.found_register r task hEntry
  · intro i hi n hName
    obtain rfl | hn := eq_or_ne n (newName s)
    · exact ⟨_, AList.lookup_insert s.timers_⟩
    · obtain hi | hi := List.mem_append.mp hi
      · obtain ⟨j, hj⟩ := hInv.held i hi n ((hOld i hi).symm.trans hName)
        exact ⟨j, (AList.lookup_insert_ne hn).trans hj⟩
      · rw [List.mem_singleton.mp hi, hSelf] at hName
        exact absurd (Option.some.inj hName).symm hn
  · intro i hi j hij hj hName
    rw [hLength] at hj
    obtain hj | rfl := Nat.lt_succ_iff_lt_or_eq.mp hj
    · obtain hi | hi := List.mem_append.mp hi
      · rw [hOld i hi, nameOf_register_of_lt hj] at hName
        exact List.mem_append_left _ (hInv.together i hi j hij hj hName)
      · rw [List.mem_singleton.mp hi] at hij
        omega
    · simp
  · intro i hi source hSource
    obtain hi | hi := List.mem_append.mp hi
    · rw [Timer.register, List.getElem?_append_left (hInv.created i hi)] at hSource
      exact hInv.cancelled i hi source hSource
    · rw [List.mem_singleton.mp hi] at hSource
      simp only [Timer.register, List.getElem?_concat_length, Option.some.injEq] at hSource
      rw [← hSource]

theorem mem_stop {s : State τ} {h : History} {name : Option String} {i : Nat} :
    i ∈ (h.stop s name).due ↔ i ∈ h.due ∧ nameOf s i ≠ name := by
  simp [History.stop]

theorem lookup_cancelTask (s : State τ) (name : Option String) {n : String} (hn : n.length ≠ 0) :
    (cancelTask s name).timers_.lookup n = if name = some n then none else s.timers_.lookup n := by
  obtain ⟨hSame, hNone⟩ | ⟨m, timer, rfl, _, hCancel⟩ := cancelTask_cases s name
  · rw [hSame]
    split
    · obtain hEmpty | hNone := hNone n ‹_›
      · exact absurd hEmpty hn
      · exact hNone
    · rfl
  · rw [hCancel]
    obtain rfl | hm := eq_or_ne m n
    · simp
    · rw [if_neg (by simpa using hm)]
      exact AList.lookup_erase_ne (Ne.symm hm)

theorem lookup_of_lookup_cancelTask {s : State τ} {name : Option String} {n : String} {i : Nat}
    (h : (cancelTask s name).timers_.lookup n = some i) : s.timers_.lookup n = some i := by
  obtain ⟨hSame, _⟩ | ⟨m, timer, _, _, hCancel⟩ := cancelTask_cases s name
  · rwa [hSame] at h
  · rw [hCancel] at h
    obtain rfl | hm := eq_or_ne n m
    · simp at h
    · exact (AList.lookup_erase_ne hm).symm.trans h

theorem sources_cancelTask_length (s : State τ) (name : Option String) :
    (cancelTask s name).sources.length = s.sources.length := by
  obtain ⟨hSame, _⟩ | ⟨m, timer, _, _, hCancel⟩ := cancelTask_cases s name
  · rw [hSame]
  · simp [hCancel]

theorem sources_cancelTask_name (s : State τ) (name : Option String) :
    (cancelTask s name).sources.map Source.name = s.sources.map Source.name := by
  apply List.ext_getElem?
  intro i
  rw [List.getElem?_map, List.getElem?_map]
  exact nameOf_cancelTask s name i

theorem sources_cancelTask_of_ne {s : State τ} {name : Option String} {i : Nat}
    (h : ∀ n, name = some n → s.timers_.lookup n ≠ some i) :
    (cancelTask s name).sources[i]? = s.sources[i]? := by
  obtain ⟨hSame, _⟩ | ⟨m, timer, hName, hEntry, hCancel⟩ := cancelTask_cases s name
  · rw [hSame]
  · have hi : timer ≠ i := fun e => h m hName (e ▸ hEntry)
    simp [hCancel, hi]

theorem Inv.stop {s : State τ} {h : History} (hInv : Inv s h) (name : Option String) :
    Inv (cancelTask s name) (h.stop s name) := by
  constructor <;>
    try simp only [sources_cancelTask_length, nameOf_cancelTask, sources_cancelTask_name]
  · exact fun i hi => hInv.created i (mem_stop.mp hi).1
  · exact hInv.named
  · intro n i hEntry
    obtain ⟨hDue, hName, hYoungest⟩ := hInv.found n i (lookup_of_lookup_cancelTask hEntry)
    refine ⟨mem_stop.mpr ⟨hDue, fun hStop => ?_⟩, hName, fun j hj => hYoungest j (mem_stop.mp hj).1⟩
    rw [lookup_cancelTask s name (hInv.nonempty hName), if_pos (hStop.symm.trans hName)] at hEntry
    cases hEntry
  · intro i hi n hName
    obtain ⟨hDue, hKept⟩ := mem_stop.mp hi
    rw [lookup_cancelTask s name (hInv.nonempty hName), if_neg fun e => hKept (hName.trans e.symm)]
    exact hInv.held i hDue n hName
  · intro i hi j hij hj hName
    obtain ⟨hDue, hKept⟩ := mem_stop.mp hi
    exact mem_stop.mpr ⟨hInv.together i hDue j hij hj hName, hName ▸ hKept⟩
  · intro i hi source hSource
    obtain ⟨hDue, hKept⟩ := mem_stop.mp hi
    rw [sources_cancelTask_of_ne] at hSource
    · exact hInv.cancelled i hDue source hSource
    · intro n hn hEntry
      exact hKept ((hInv.found n i hEntry).2.1.trans hn.symm)

theorem Inv.step {s s' : State τ} {h h' : History} {e : Event τ} (hInv : Inv s h)
    (hStep : (observed τ).step (s, h) e = some (s', h')) : Inv s' h' := by
  rcases observed_step_cases hStep with
    ⟨hTimers, hSources, rfl⟩ | ⟨r, task, _, _, rfl, rfl⟩ | ⟨name, hTimers, hSources, rfl⟩
  · exact hInv.congr hTimers hSources
  · exact hInv.register r task
  · exact (hInv.stop name).congr hTimers hSources

theorem observed_invariant {p : State τ × History} (h : (observed τ).Reachable p) : Inv p.1 p.2 :=
  Machine.invariant (P := fun p => Inv p.1 p.2) Inv.start
    (fun _ _ _ hInv hStep => hInv.step hStep) h

end Steps

section Uniqueness

/-- Along the run `es` every accepted call returns a free name, no entry is overwritten,
and every due source is registered under its own name. -/
structure NamesUnique (es : List (Event τ)) : Prop where
  fresh : ∀ p r p', (observed τ).Takes es p (.execTask r) p' →
    ∀ name, (execTask p.1 r).2 = some name → p.1.timers_.lookup name = none
  kept : ∀ p r p', (observed τ).Takes es p (.execTask r) p' →
    ∀ n i, p.1.timers_.lookup n = some i → p'.1.timers_.lookup n = some i
  registered : ∀ p, (observed τ).Visits es p → ∀ i ∈ p.2.due,
    ∃ source, p.1.sources[i]? = some source ∧ source.cancelled = false ∧
      p.1.timers_.lookup source.name = some i

/-- No accepted call of the run is made while a source is due that was itself created
when `timers_` had the number of entries it has now. -/
def CountsDiffer (es : List (Event τ)) : Prop :=
  ∀ p r p', (observed τ).Takes es p (.execTask r) p' → r.refused = false →
    ∀ i ∈ p.2.due, p.2.born[i]? ≠ some (count p.1.timers_)

def NamesDiffer (s : State τ) (h : History) : Prop :=
  ∀ i ∈ h.due, ∀ j ∈ h.due, nameOf s i = nameOf s j → i = j

theorem Inv.nameOf_eq_newName {s : State τ} {h : History} (hInv : Inv s h) (i : Nat) :
    nameOf s i = some (newName s) ↔ h.born[i]? = some (count s.timers_) := by
  rw [hInv.nameOf_eq, newName, ← Option.map_some]
  exact (Option.map_injective fun m n => Nat.repr_inj.mp).eq_iff

theorem Inv.registered {s : State τ} {h : History} (hInv : Inv s h) (hDiffer : NamesDiffer s h)
    {i : Nat} (hi : i ∈ h.due) {source : Source τ} (hSource : s.sources[i]? = some source) :
    s.timers_.lookup source.name = some i := by
  have hName : nameOf s i = some source.name := by rw [nameOf, hSource]; rfl
  obtain ⟨j, hEntry⟩ := hInv.held i hi source.name hName
  obtain ⟨hj, hjName, _⟩ := hInv.found source.name j hEntry
  rw [hDiffer i hi j hj (hName.trans hjName.symm)]
  exact hEntry

/-- A call keeps the due names apart exactly when its own name is not due. -/
theorem NamesDiffer.step {s s' : State τ} {h h' : History} {e : Event τ} (hInv : Inv s h)
    (hDiffer : NamesDiffer s h) (hStep : (observed τ).step (s, h) e = some (s', h'))
    (hCount : ∀ r, e = .execTask r → r.refused = false →
      ∀ i ∈ h.due, h.born[i]? ≠ some (count s.timers_)) : NamesDiffer s' h' := by
  rcases observed_step_cases hStep with
    ⟨_, hSources, rfl⟩ | ⟨r, task, he, hAccepted, rfl, rfl⟩ | ⟨name, _, hSources, rfl⟩
  · intro i hi j hj
    rw [nameOf, nameOf, hSources]
    exact hDiffer i hi j hj
  · have hNew : ∀ i ∈ h.due, nameOf (register s r task) i ≠ some (newName s) := by
      intro i hi hName
      rw [nameOf_register_of_lt (hInv.created i hi)] at hName
      exact hCount r he hAccepted i hi ((hInv.nameOf_eq_newName i).mp hName)
    have hSelf := nameOf_register_self s r task
    intro i hi j hj hName
    rcases List.mem_append.mp hi with hi | hi <;> rcases List.mem_append.mp hj with hj | hj
    · rw [nameOf_register_of_lt (hInv.created i hi), nameOf_register_of_lt (hInv.created j hj)] at hName
      exact hDiffer i hi j hj hName
    · rw [List.mem_singleton.mp hj, hSelf] at hName
      exact absurd hName (hNew i hi)
    · rw [List.mem_singleton.mp hi, hSelf] at hName
      exact absurd hName.symm (hNew j hj)
    · rw [List.mem_singleton.mp hi, List.mem_singleton.mp hj]
  · intro i hi j hj hName
    have hSame : ∀ k, nameOf s' k = nameOf s k := fun k => by
      rw [nameOf, hSources]
      exact nameOf_cancelTask s name k
    rw [hSame, hSame] at hName
    exact hDiffer i (mem_stop.mp hi).1 j (mem_stop.mp hj).1 hName

theorem NamesDiffer.of_countsDiffer {es : List (Event τ)} (hCounts : CountsDiffer es)
    {p : State τ × History} (h : (observed τ).Visits es p) : NamesDiffer p.1 p.2 := by
  refine (Machine.visits_induction (P := fun p => Inv p.1 p.2 ∧ NamesDiffer p.1 p.2)
    ⟨Inv.start, fun i hi => absurd hi List.not_mem_nil⟩ ?_ h).2
  rintro p e p' hTakes ⟨hInv, hDiffer⟩
  obtain ⟨_, _, _, _, hStep⟩ := id hTakes
  exact ⟨hInv.step hStep, hDiffer.step hInv hStep fun r he => hCounts p r p' (he ▸ hTakes)⟩

/-- Where the counts differ, an accepted call finds its name free. -/
theorem CountsDiffer.lookup_newName {es : List (Event τ)} (hCounts : CountsDiffer es)
    {p p' : State τ × History} {r : Request τ} (hTakes : (observed τ).Takes es p (.execTask r) p')
    (hAccepted : r.refused = false) : p.1.timers_.lookup (newName p.1) = none := by
  have hInv := observed_invariant hTakes.visits.reachable
  by_contra hTaken
  obtain ⟨i, hEntry⟩ := Option.ne_none_iff_exists'.mp hTaken
  obtain ⟨hi, hName, _⟩ := hInv.found _ i hEntry
  exact hCounts p r p' hTakes hAccepted i hi ((hInv.nameOf_eq_newName i).mp hName)

theorem NamesUnique.countsDiffer {es : List (Event τ)} (h : NamesUnique es) : CountsDiffer es := by
  intro p r p' hTakes hAccepted i hi hCount
  have hInv := observed_invariant hTakes.visits.reachable
  obtain ⟨task, hTask⟩ := task_of_accepted hAccepted
  have hFree := h.fresh p r p' hTakes (newName p.1) (by rw [execTask_of_accepted hAccepted hTask])
  obtain ⟨source, hSource, _, hEntry⟩ := h.registered p hTakes.visits i hi
  have hName : some source.name = some (newName p.1) := by
    rw [← (hInv.nameOf_eq_newName i).mpr hCount, nameOf, hSource]
    rfl
  rw [Option.some.inj hName, hFree] at hEntry
  cases hEntry

theorem NamesUnique.of_countsDiffer {es : List (Event τ)} (hCounts : CountsDiffer es) :
    NamesUnique es := by
  constructor
  · intro p r p' hTakes name hName
    cases hRefused : r.refused with
    | true => simp [execTask_of_refused hRefused] at hName
    | false =>
      obtain ⟨task, hTask⟩ := task_of_accepted hRefused
      rw [execTask_of_accepted hRefused hTask] at hName
      cases hName
      exact hCounts.lookup_newName hTakes hRefused
  · intro p r p' hTakes n i hEntry
    obtain ⟨_, _, _, _, hStep⟩ := id hTakes
    obtain ⟨hStep, _⟩ := Machine.withHistory_step.mp hStep
    simp only [timers, step, Option.some.injEq] at hStep
    rw [← hStep]
    cases hRefused : r.refused with
    | true => rwa [execTask_of_refused hRefused]
    | false =>
      obtain ⟨task, hTask⟩ := task_of_accepted hRefused
      rw [execTask_of_accepted hRefused hTask]
      have hn : n ≠ newName p.1 := by
        rintro rfl
        rw [hCounts.lookup_newName hTakes hRefused] at hEntry
        cases hEntry
      exact (AList.lookup_insert_ne hn).trans hEntry
  · intro p hVisits i hi
    have hInv := observed_invariant hVisits.reachable
    obtain ⟨source, hSource⟩ : ∃ source, p.1.sources[i]? = some source :=
      ⟨_, List.getElem?_eq_getElem (hInv.created i hi)⟩
    exact ⟨source, hSource, hInv.cancelled i hi _ hSource,
      hInv.registered (NamesDiffer.of_countsDiffer hCounts hVisits) hi hSource⟩

/-- Names identify timers on exactly the runs on which no call repeats the entry count
at which a timer that is still due was created. -/
theorem namesUnique_iff_countsDiffer (es : List (Event τ)) : NamesUnique es ↔ CountsDiffer es := by
  constructor
  · exact NamesUnique.countsDiffer
  · exact NamesUnique.of_countsDiffer

def everySecond : Request Unit := ⟨some (), 0, 1, true, false⟩

/-- Two timers, the first one cancelled: the third call is given the name of the second,
whose source it overwrites. -/
theorem third_call_takes_a_live_name :
    ¬ NamesUnique [.execTask everySecond, .execTask everySecond, .cancelTask (some "0"),
      .execTask everySecond] := by
  intro h
  have hTakes : (observed Unit).Takes
      [.execTask everySecond, .execTask everySecond, .cancelTask (some "0"), .execTask everySecond]
      ((observed Unit).after
        [.execTask everySecond, .execTask everySecond, .cancelTask (some "0")] rfl)
      (.execTask everySecond)
      ((observed Unit).after [.execTask everySecond, .execTask everySecond, .cancelTask (some "0"),
        .execTask everySecond] rfl) :=
    ⟨_, [], rfl, (Option.some_get _).symm, rfl⟩
  have hFree := h.fresh _ _ _ hTakes "1" rfl
  cases hFree

end Uniqueness

section Ownership

/-- The step is a cancel by the `i`-th caller, or the self-cancel of its one-shot. -/
def OwnCancel (s : State τ) (e : Event τ) (i : Nat) : Prop :=
  e = .cancelHandle i ∨ (e = .complete i ∧ selfCancels s i = true)

/-- Between `s` and `s'` no source but `i` is cancelled or loses its entry, and nothing
changes at all if source `i` was cancelled or not registered. -/
structure OwnOnly (i : Nat) (s s' : State τ) : Prop where
  others : ∀ j, j ≠ i → s'.sources[j]? = s.sources[j]? ∧
    ∀ n, s.timers_.lookup n = some j → s'.timers_.lookup n = some j
  idle : ((∃ source, s.sources[i]? = some source ∧ source.cancelled = true) ∨
      ∀ n, s.timers_.lookup n ≠ some i) → s'.timers_ = s.timers_ ∧ s'.sources = s.sources

def HandlesOwn (es : List (Event τ)) : Prop :=
  ∀ p e p' i, (observed τ).Takes es p e p' → OwnCancel p.1 e i → OwnOnly i p.1 p'.1

/-- No own cancel of the run comes while a younger source is due that was created at the
same number of entries. -/
def NoYoungerDue (es : List (Event τ)) : Prop :=
  ∀ p e p' i, (observed τ).Takes es p e p' → OwnCancel p.1 e i →
    ∀ j ∈ p.2.due, i < j → p.2.born[j]? ≠ p.2.born[i]?

theorem ownCancel_step {s s' : State τ} {e : Event τ} {i : Nat} (hOwn : OwnCancel s e i)
    (hStep : step s e = some s') : ∃ name, nameOf s i = some name ∧
      s'.timers_ = (cancelTask s (some name)).timers_ ∧
      s'.sources = (cancelTask s (some name)).sources := by
  obtain rfl | ⟨rfl, hSelf⟩ := hOwn
  · obtain ⟨name, hName, rfl⟩ := Option.map_eq_some_iff.mp hStep
    exact ⟨name, hName, rfl, rfl⟩
  · simp only [step] at hStep
    split at hStep
    · obtain ⟨source, hSource, rfl⟩ := Option.map_eq_some_iff.mp hStep
      have hRepeats : source.repeats = false := by simpa [selfCancels, hSource] using hSelf
      refine ⟨source.name, by rw [nameOf, hSource]; rfl, ?_, ?_⟩ <;>
        simp [completeTask, hRepeats, cancelTask_running]
    · cases hStep

/-- The entry an own cancel finds is its own, unless a younger due source has the name. -/
theorem Inv.lookup_own {s : State τ} {h : History} (hInv : Inv s h) {i k : Nat} {name : String}
    (hName : nameOf s i = some name)
    (hOlder : ∀ j ∈ h.due, i < j → h.born[j]? ≠ h.born[i]?)
    (hEntry : s.timers_.lookup name = some k) : k = i := by
  obtain ⟨hk, hkName, hYoungest⟩ := hInv.found name k hEntry
  have hSame : nameOf s k = nameOf s i := hkName.trans hName.symm
  obtain hki | hki | hki := Nat.lt_trichotomy k i
  · have hi : i < s.sources.length := by
      obtain ⟨source, hSource, _⟩ := Option.map_eq_some_iff.mp hName
      exact (List.getElem?_eq_some_iff.mp hSource).1
    have hLe := hYoungest i (hInv.together k hk i hki hi hSame.symm) hName
    omega
  · exact hki
  · exact absurd ((hInv.nameOf_eq_iff k i).mp hSame) (hOlder k hk hki)

theorem Inv.ownOnly_iff {s s' : State τ} {h : History} (hInv : Inv s h) {i : Nat} {name : String}
    (hName : nameOf s i = some name)
    (hTimers : s'.timers_ = (cancelTask s (some name)).timers_)
    (hSources : s'.sources = (cancelTask s (some name)).sources) :
    OwnOnly i s s' ↔ ∀ j ∈ h.due, i < j → h.born[j]? ≠ h.born[i]? := by
  constructor
  · intro hOwn j hj hij hBorn
    have hjName : nameOf s j = some name := ((hInv.nameOf_eq_iff j i).mpr hBorn).trans hName
    obtain ⟨k, hEntry⟩ := hInv.held j hj name hjName
    have hjk := (hInv.found name k hEntry).2.2 j hj hjName
    have hLost := (hOwn.others k (by omega)).2 name hEntry
    rw [hTimers, lookup_cancelTask s _ (hInv.nonempty hName), if_pos rfl] at hLost
    cases hLost
  · intro hOlder
    have hFinds := fun k => hInv.lookup_own (k := k) hName hOlder
    refine ⟨fun j hji => ⟨?_, fun n hEntry => ?_⟩, fun hIdle => ?_⟩
    · rw [hSources, sources_cancelTask_of_ne]
      rintro n hn hEntry
      cases hn
      exact hji (hFinds j hEntry)
    · rw [hTimers, lookup_cancelTask s _ (hInv.nonempty (hInv.found n j hEntry).2.1), if_neg]
      · exact hEntry
      · rintro hn
        cases hn
        exact hji (hFinds j hEntry)
    · have hNone : s.timers_.lookup name = none := by
        by_contra hSome
        obtain ⟨k, hEntry⟩ := Option.ne_none_iff_exists'.mp hSome
        obtain rfl := hFinds k hEntry
        obtain ⟨source, hSource, hCancelled⟩ | hAbsent := hIdle
        · rw [hInv.cancelled k (hInv.found name k hEntry).1 source hSource] at hCancelled
          cases hCancelled
        · exact hAbsent name hEntry
      obtain ⟨hSame, _⟩ | ⟨n, timer, hn, hEntry, _⟩ := cancelTask_cases s (some name)
      · rw [hTimers, hSources, hSame]
        exact ⟨rfl, rfl⟩
      · cases hn
        rw [hNone] at hEntry
        cases hEntry

/-- A handle stops its own timer only on exactly the runs on which no own cancel comes
while a younger due timer was created at the same number of entries. -/
theorem handlesOwn_iff_noYoungerDue (es : List (Event τ)) : HandlesOwn es ↔ NoYoungerDue es := by
  have hEach : ∀ p e p' i, (observed τ).Takes es p e p' → OwnCancel p.1 e i →
      (OwnOnly i p.1 p'.1 ↔ ∀ j ∈ p.2.due, i < j → p.2.born[j]? ≠ p.2.born[i]?) := by
    intro p e p' i hTakes hOwn
    have hInv := observed_invariant hTakes.visits.reachable
    obtain ⟨_, _, _, _, hStep⟩ := hTakes
    obtain ⟨name, hName, hTimers, hSources⟩ :=
      ownCancel_step hOwn (Machine.withHistory_step.mp hStep).1
    exact hInv.ownOnly_iff hName hTimers hSources
  constructor
  · intro h p e p' i hTakes hOwn
    exact (hEach p e p' i hTakes hOwn).mp (h p e p' i hTakes hOwn)
  · intro h p e p' i hTakes hOwn
    exact (hEach p e p' i hTakes hOwn).mpr (h p e p' i hTakes hOwn)

/-- The first caller cancels twice; in between, the second caller was given the same name
and loses its timer. -/
theorem stale_handle_stops_another_timer :
    ¬ HandlesOwn [.execTask everySecond, .cancelHandle 0, .execTask everySecond,
      .cancelHandle 0] := by
  intro h
  have hTakes : (observed Unit).Takes
      [.execTask everySecond, .cancelHandle 0, .execTask everySecond, .cancelHandle 0]
      ((observed Unit).after [.execTask everySecond, .cancelHandle 0, .execTask everySecond] rfl)
      (.cancelHandle 0)
      ((observed Unit).after
        [.execTask everySecond, .cancelHandle 0, .execTask everySecond, .cancelHandle 0] rfl) :=
    ⟨_, [], rfl, (Option.some_get _).symm, rfl⟩
  have hKept := ((h _ _ _ 0 hTakes (.inl rfl)).others 1 (by decide)).2 "0" rfl
  cases hKept

end Ownership

end OCNote.Timer
