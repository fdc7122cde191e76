import Mathlib.Data.List.AList
import OCNote.Support.Machine

/-! # The timer registry MBTimer

One call of a class method is one step. A handler is two steps, the start of its task
and the return from it, so that a task may register and cancel timers while it runs.
A timer source fires only while `timers_`, the holder of its one strong reference,
still maps its name to it. -/

namespace OCNote.Timer
open OCNote.Support
set_option autoImplicit false

universe u

/-- A dispatch source; its position in `State.sources` is its identity. -/
structure Source (τ : Type u) where
  task : τ
  start : Rat
  interval : Rat
  repeats : Bool
  async : Bool
  name : String
  cancelled : Bool

structure State (τ : Type u) where
  timers_ : AList fun _ : String => Nat
  sources : List (Source τ)
  running : List Nat

structure Request (τ : Type u) where
  task : Option τ
  start : Rat
  interval : Rat
  repeats : Bool
  async : Bool

inductive Event (τ : Type u) where
  | execTask (request : Request τ)
  | cancelTask (name : Option String)
  | cancelHandle (i : Nat)
  | fire (i : Nat)
  /-- The task of source `i` has returned. -/
  | complete (i : Nat)

section Model

variable {τ : Type u}

def initial : State τ := ⟨∅, [], []⟩

def count (timers_ : AList fun _ : String => Nat) : Nat := timers_.entries.length

/-- `!task || start < 0 || (interval <= 0 && repeats)` -/
def Request.refused (r : Request τ) : Bool :=
  r.task.isNone || decide (r.start < 0) || (decide (r.interval ≤ 0) && r.repeats)

/-- `[NSString stringWithFormat:@"%zd", timers_.count]` -/
def newName (s : State τ) : String := Nat.repr (count s.timers_)

/-- The accepted part of a call, from the creation of the source to `dispatch_resume`. -/
def register (s : State τ) (r : Request τ) (task : τ) : State τ :=
  { s with
    timers_ := s.timers_.insert (newName s) s.sources.length
    sources := s.sources ++
      [⟨task, r.start, r.interval, r.repeats, r.async, newName s, false⟩] }

def execTask (s : State τ) (r : Request τ) : State τ × Option String :=
  match r.refused, r.task with
  | false, some task => (register s r task, some (newName s))
  | _, _ => (s, none)

/-- The variant with a target and a selector wraps them in a block. -/
def execTaskSelector {target selector : Type u} (s : State τ) (perform : target → selector → τ)
    (object : Option target) (action : Option selector) (start interval : Rat)
    (repeats async : Bool) : State τ × Option String :=
  match object, action with
  | some object, some action => execTask s ⟨some (perform object action), start, interval, repeats, async⟩
  | _, _ => (s, none)

def Source.cancel (source : Source τ) : Source τ := { source with cancelled := true }

def cancelTask (s : State τ) (name : Option String) : State τ :=
  match name with
  | none => s
  | some name =>
    if name.length = 0 then s
    else
      match s.timers_.lookup name with
      | none => s
      | some timer =>
        { s with
          sources := s.sources.modify timer Source.cancel
          timers_ := s.timers_.erase name }

def nameOf (s : State τ) (i : Nat) : Option String := s.sources[i]?.map Source.name

/-- The return from the task, `if (!repeats) [self cancelTask:name]`. -/
def completeTask (s : State τ) (source : Source τ) (i : Nat) : State τ :=
  let s := { s with running := s.running.erase i }
  if source.repeats then s else cancelTask s (some source.name)

def step (s : State τ) : Event τ → Option (State τ)
  | .execTask r => some (execTask s r).1
  | .cancelTask name => some (cancelTask s name)
  | .cancelHandle i => (nameOf s i).map fun name => cancelTask s (some name)
  | .fire i =>
    if (nameOf s i).bind s.timers_.lookup = some i ∧ i ∉ s.running then
      some { s with running := i :: s.running }
    else none
  | .complete i =>
    if i ∈ s.running then s.sources[i]?.map fun source => completeTask s source i else none

end Model

def timers (τ : Type u) : Machine (State τ) (Event τ) := ⟨initial, step⟩

end OCNote.Timer
