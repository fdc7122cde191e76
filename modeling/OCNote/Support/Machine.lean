import Mathlib.Data.List.Induction
import Mathlib.Tactic.Common

/-! # Machines whose labels carry every choice

A machine has one start state and a partial step function. All nondeterminism
(which thread moves, how a timed wait ends) sits in the labels, so a run is a list
of labels and can be evaluated. Statements about "every interleaving" are statements about
every list of labels. -/

namespace OCNote.Support
set_option autoImplicit false

universe u v w

structure Machine (σ : Type u) (ε : Type v) where
  start : σ
  step : σ → ε → Option σ

namespace Machine

variable {σ : Type u} {ε : Type v} (M : Machine σ ε)

def runFrom (s : σ) : List ε → Option σ
  | [] => some s
  | e :: es => (M.step s e).bind fun s' => runFrom s' es

def run (es : List ε) : Option σ := M.runFrom M.start es

def Reachable (s : σ) : Prop := ∃ es, M.run es = some s

def Stuck (s : σ) : Prop := ∀ e, M.step s e = none

def Visits (es : List ε) (s : σ) : Prop := ∃ pre post, es = pre ++ post ∧ M.run pre = some s

/-- Somewhere in the run `es` the label `e` leads from `s` to `s'`. -/
def Takes (es : List ε) (s : σ) (e : ε) (s' : σ) : Prop :=
  ∃ pre post, es = pre ++ e :: post ∧ M.run pre = some s ∧ M.step s e = some s'

theorem runFrom_append (s : σ) (es fs : List ε) :
    M.runFrom s (es ++ fs) = (M.runFrom s es).bind fun s' => M.runFrom s' fs := by
  induction es generalizing s with
  | nil => rfl
  | cons e es ih =>
    simp only [List.cons_append, runFrom]
    cases M.step s e with
    | none => rfl
    | some s' => exact ih s'

theorem run_concat (es : List ε) (e : ε) :
    M.run (es ++ [e]) = (M.run es).bind fun s => M.step s e := by
  rw [run, runFrom_append]
  simp only [runFrom, Option.bind_fun_some]
  rfl

theorem reachable_start : M.Reachable M.start := ⟨[], rfl⟩

def after (es : List ε) (h : (M.run es).isSome = true) : σ := (M.run es).get h

theorem reachable_after (es : List ε) (h : (M.run es).isSome = true) : M.Reachable (M.after es h) :=
  ⟨es, (Option.some_get h).symm⟩

variable {M}

theorem Reachable.runFrom {s s' : σ} {es : List ε} (h : M.Reachable s)
    (hRun : M.runFrom s es = some s') : M.Reachable s' := by
  obtain ⟨pre, hPre⟩ := h
  refine ⟨pre ++ es, ?_⟩
  rw [run, runFrom_append]
  change (M.run pre).bind _ = _
  rw [hPre]
  exact hRun

theorem run_concat_eq_some {es : List ε} {e : ε} {s' : σ} (h : M.run (es ++ [e]) = some s') :
    ∃ s, M.run es = some s ∧ M.step s e = some s' := by
  rw [run_concat] at h
  exact Option.bind_eq_some_iff.mp h

/-- A part of the state that a run reaches can be read off by evaluating the run. -/
theorem read_of_run {es : List ε} {s : σ} (h : M.run es = some s) {β : Type w} {f : σ → β} {x : β}
    (hRead : (M.run es).map f = some x) : f s = x := by
  rw [h] at hRead
  exact Option.some.inj hRead

theorem run_induction {P : List ε → σ → Prop} (h0 : P [] M.start)
    (hStep : ∀ es s e s', M.run es = some s → P es s → M.step s e = some s' → P (es ++ [e]) s')
    (es : List ε) : ∀ s, M.run es = some s → P es s := by
  induction es using List.reverseRecOn with
  | nil =>
    intro s h
    cases h
    exact h0
  | append_singleton es e ih =>
    intro s' h
    obtain ⟨s, hRun, hs⟩ := run_concat_eq_some h
    exact hStep es s e s' hRun (ih s hRun) hs

theorem invariant {P : σ → Prop} (h0 : P M.start)
    (hStep : ∀ s e s', P s → M.step s e = some s' → P s') {s : σ} (h : M.Reachable s) : P s := by
  obtain ⟨es, hRun⟩ := h
  exact run_induction (P := fun _ s => P s) h0 (fun _ s e s' _ hP hs => hStep s e s' hP hs) es s hRun

theorem Visits.reachable {es : List ε} {s : σ} (h : M.Visits es s) : M.Reachable s := by
  obtain ⟨pre, _, _, hRun⟩ := h
  exact ⟨pre, hRun⟩

theorem Takes.append {es fs : List ε} {s s' : σ} {e : ε} (h : M.Takes es s e s') :
    M.Takes (es ++ fs) s e s' := by
  obtain ⟨pre, post, rfl, hRun, hStep⟩ := h
  exact ⟨pre, post ++ fs, by simp, hRun, hStep⟩

theorem Takes.visits {es : List ε} {s s' : σ} {e : ε} (h : M.Takes es s e s') : M.Visits es s := by
  obtain ⟨pre, post, hEs, hRun, _⟩ := h
  exact ⟨pre, e :: post, hEs, hRun⟩

theorem Takes.visits_after {es : List ε} {s s' : σ} {e : ε} (h : M.Takes es s e s') :
    M.Visits es s' := by
  obtain ⟨pre, post, hEs, hRun, hStep⟩ := h
  refine ⟨pre ++ [e], post, by simpa using hEs, ?_⟩
  rw [run_concat, hRun]
  exact hStep

/-- A property kept by the steps a given run takes holds of every state on that run. -/
theorem visits_induction {es : List ε} {P : σ → Prop} (h0 : P M.start)
    (hStep : ∀ s e s', M.Takes es s e s' → P s → P s') {s : σ} (h : M.Visits es s) : P s := by
  obtain ⟨pre, post, hEs, hRun⟩ := h
  induction pre using List.reverseRecOn generalizing post s with
  | nil =>
    cases hRun
    exact h0
  | append_singleton pre e ih =>
    obtain ⟨t, hPre, ht⟩ := run_concat_eq_some hRun
    have hEs' : es = pre ++ e :: post := by rw [hEs]; simp
    exact hStep t e s ⟨pre, post, hEs', hPre, ht⟩ (ih (e :: post) hEs' hPre)

/-- The machine together with a history variable, which no step reads. -/
def withHistory (M : Machine σ ε) {γ : Type w} (initial : γ) (note : γ → σ → ε → σ → γ) :
    Machine (σ × γ) ε where
  start := (M.start, initial)
  step p e := (M.step p.1 e).map fun s' => (s', note p.2 p.1 e s')

section History

variable {γ : Type w} {initial : γ} {note : γ → σ → ε → σ → γ}

theorem withHistory_step {p p' : σ × γ} {e : ε} :
    (M.withHistory initial note).step p e = some p' ↔
      M.step p.1 e = some p'.1 ∧ p'.2 = note p.2 p.1 e p'.1 := by
  simp only [withHistory, Option.map_eq_some_iff]
  constructor
  · rintro ⟨s', hStep, rfl⟩
    exact ⟨hStep, rfl⟩
  · rintro ⟨hStep, hNote⟩
    exact ⟨p'.1, hStep, by rw [← hNote]⟩

theorem withHistory_run (initial : γ) (note : γ → σ → ε → σ → γ) (es : List ε) :
    ((M.withHistory initial note).run es).map Prod.fst = M.run es := by
  have hFrom : ∀ p : σ × γ, ((M.withHistory initial note).runFrom p es).map Prod.fst =
      M.runFrom p.1 es := by
    induction es with
    | nil => exact fun _ => rfl
    | cons e es ih =>
      intro p
      simp only [runFrom, withHistory, Option.bind_map, Option.map_bind]
      cases M.step p.1 e with
      | none => rfl
      | some s' => exact ih _
  exact hFrom _

theorem withHistory_visits (initial : γ) (note : γ → σ → ε → σ → γ) {es : List ε} {s : σ} :
    M.Visits es s ↔ ∃ p, (M.withHistory initial note).Visits es p ∧ p.1 = s := by
  constructor
  · rintro ⟨pre, post, hEs, hRun⟩
    rw [← withHistory_run initial note, Option.map_eq_some_iff] at hRun
    obtain ⟨p, hRun, hFst⟩ := hRun
    exact ⟨p, ⟨pre, post, hEs, hRun⟩, hFst⟩
  · rintro ⟨p, ⟨pre, post, hEs, hRun⟩, rfl⟩
    exact ⟨pre, post, hEs, by rw [← withHistory_run initial note, hRun]; rfl⟩

end History

/-- The machine with only some of its labels. -/
def restrict (M : Machine σ ε) (allowed : ε → Bool) : Machine σ ε where
  start := M.start
  step s e := if allowed e = true then M.step s e else none

theorem restrict_step {allowed : ε → Bool} {s s' : σ} {e : ε} :
    (M.restrict allowed).step s e = some s' ↔ allowed e = true ∧ M.step s e = some s' :=
  Option.ite_none_right_eq_some

/-- Whatever steps are taken from `s`, the machine goes on until it reaches `P`. -/
inductive Inevitably (M : Machine σ ε) (P : σ → Prop) : σ → Prop
  | now {s : σ} (h : P s) : Inevitably M P s
  | later {s : σ} (hEnabled : ∃ e s', M.step s e = some s')
      (hAll : ∀ e s', M.step s e = some s' → Inevitably M P s') : Inevitably M P s

/-- An invariant under which the machine is never stuck short of `P`, with a variant that
every step decreases. -/
theorem inevitably_of_variant {P : σ → Prop} (invariant : σ → Prop) (variant : σ → Nat)
    (hEnabled : ∀ s, invariant s → ¬ P s → ∃ e s', M.step s e = some s')
    (hStep : ∀ s e s', invariant s → ¬ P s → M.step s e = some s' →
      P s' ∨ (invariant s' ∧ variant s' < variant s)) {s : σ} (hs : invariant s) : M.Inevitably P s := by
  induction hn : variant s using Nat.strongRecOn generalizing s with
  | ind n ih =>
    by_cases hP : P s
    · exact .now hP
    · refine .later (hEnabled s hs hP) fun e s' hNext => ?_
      obtain hP' | ⟨hs', hLess⟩ := hStep s e s' hs hP hNext
      · exact .now hP'
      · exact ih (variant s') (hn ▸ hLess) hs' rfl

theorem Inevitably.reaches {P : σ → Prop} {s : σ} (h : M.Inevitably P s) (hReach : M.Reachable s) :
    ∃ s', M.Reachable s' ∧ P s' := by
  induction h with
  | now hP => exact ⟨_, hReach, hP⟩
  | later hEnabled _ ih =>
    obtain ⟨e, s', hStep⟩ := hEnabled
    exact ih e s' hStep (hReach.runFrom (by rw [Machine.runFrom, hStep]; rfl : M.runFrom _ [e] = some s'))

end Machine

end OCNote.Support
