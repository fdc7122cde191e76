import Mathlib.Logic.Function.Basic
import OCNote.Support.Machine

/-! # The permanent thread MBPermanentThread

Client threads call methods of one object; its inner thread runs a run loop. A perform
request is a message in the mailbox of the inner thread, which is drained, one message or
several in a pass, only inside `runMode:beforeDate:`. The nil check of `innerThread`, its
second read, the post and the wait are separate steps of a client. -/

namespace OCNote.PermanentThread
open OCNote.Support
set_option autoImplicit false
set_option linter.style.nameCheck false

universe u v

inductive Call (τ : Type u) where
  | run
  | excuteTaskBlock (task : Option τ)
  | stop
  deriving DecidableEq, Repr

/-- What a client does next: a call, or giving up its reference to the object. -/
inductive Statement (τ : Type u) where
  | call (c : Call τ)
  | release

inductive Message (ι : Type v) (τ : Type u) where
  | excuteTaskBlock (task : τ) (sender : ι)
  | stop (sender : ι)
  deriving DecidableEq, Repr

inductive Point where
  | ready
  | checked
  /-- The second read is done; the flag tells that it was not nil. -/
  | target (innerThread : Bool)
  | waiting
  | performed
  | raised
  deriving DecidableEq, Repr

inductive Loop where
  | unstarted
  | test
  /-- Inside `runMode:beforeDate:`, with or without a message handled. -/
  | pass (handled : Bool)
  | left
  deriving DecidableEq, Repr

inductive Thread (ι : Type v) where
  | inner
  | client (i : ι)
  deriving DecidableEq, Repr

structure State (ι : Type v) (τ : Type u) where
  /-- Whether the property is not nil. -/
  innerThread : Bool
  stopped : Bool
  references : Nat
  loop : Loop
  mailbox : List (Message ι τ)
  executed : List (Thread ι × τ)
  todo : ι → List (Statement τ)
  point : ι → Point
  /-- Every message so far, and those performed; no statement reads them. -/
  posted : List (Message ι τ)
  performed : List (Message ι τ)

inductive Action (ι : Type v) where
  | client (i : ι)
  | test
  | perform
  | endPass

section Model

variable {ι : Type v} {τ : Type u} [DecidableEq ι]

def State.goto (s : State ι τ) (i : ι) (p : Point) : State ι τ :=
  { s with point := Function.update s.point i p }

def State.finish (s : State ι τ) (i : ι) : State ι τ :=
  { s.goto i .ready with todo := Function.update s.todo i (s.todo i).tail }

def State.post (s : State ι τ) (m : Message ι τ) : State ι τ :=
  { s with mailbox := s.mailbox ++ [m], posted := s.posted ++ [m] }

/-- The three methods test `innerThread` and read it again where they use it. -/
def guarded (s : State ι τ) (i : ι) (refused : Bool) (use : Bool → Option (State ι τ)) :
    Option (State ι τ) :=
  match s.point i with
  | .ready => some (if refused then s.finish i else s.goto i .checked)
  | .checked => some (s.goto i (.target s.innerThread))
  | .target innerThread => use innerThread
  | .performed => some (s.finish i)
  | .waiting | .raised => none

/-- Starting a thread a second time raises; a message to nil does nothing. -/
def run (s : State ι τ) (i : ι) : Option (State ι τ) :=
  guarded s i (!s.innerThread) fun innerThread =>
    if !innerThread then some (s.finish i)
    else if s.loop = .unstarted then some ({ s with loop := .test }.finish i)
    else some (s.goto i .raised)

/-- A perform request to a nil thread is left open: its caller takes no further step. -/
def excuteTaskBlock (s : State ι τ) (i : ι) (task : Option τ) : Option (State ι τ) :=
  guarded s i (!s.innerThread || task.isNone) fun innerThread =>
    if !innerThread then none
    else task.map fun task => (s.post (.excuteTaskBlock task i)).finish i

def stop (s : State ι τ) (i : ι) : Option (State ι τ) :=
  guarded s i (!s.innerThread) fun innerThread =>
    if !innerThread then none else some ((s.post (.stop i)).goto i .waiting)

def client (s : State ι τ) (i : ι) : Option (State ι τ) :=
  match s.todo i with
  | [] => none
  | .release :: _ =>
    if s.point i = .ready then some ({ s with references := s.references - 1 }.finish i) else none
  | .call .run :: _ => run s i
  | .call (.excuteTaskBlock task) :: _ => excuteTaskBlock s i task
  | .call .stop :: _ => stop s i

omit [DecidableEq ι] in
def __excuteTaskBlock (s : State ι τ) (task : τ) : State ι τ :=
  { s with executed := s.executed ++ [(.inner, task)] }

/-- The stop of the run loop asks for the end of a pass that ends after a message anyway. -/
def __stop (s : State ι τ) : State ι τ := { s with stopped := true, innerThread := false }

/-- The object lives while a client holds it or a pending message retains it. -/
def State.weakSelf (s : State ι τ) : Bool := decide (0 < s.references) || !s.mailbox.isEmpty

def test (s : State ι τ) : Option (State ι τ) :=
  if s.loop = .test then
    some { s with loop := if s.weakSelf && !s.stopped then .pass false else .left }
  else none

def deliver (s : State ι τ) : Message ι τ → State ι τ
  | .excuteTaskBlock task _ => __excuteTaskBlock s task
  | .stop sender => (__stop s).goto sender .performed

def perform (s : State ι τ) : Option (State ι τ) :=
  match s.loop, s.mailbox with
  | .pass _, m :: rest =>
    some (deliver { s with mailbox := rest, performed := s.performed ++ [m], loop := .pass true } m)
  | _, _ => none

/-- A pass without a deadline ends only after a message. -/
def endPass (s : State ι τ) : Option (State ι τ) :=
  if s.loop = .pass true then some { s with loop := .test } else none

def step (s : State ι τ) : Action ι → Option (State ι τ)
  | .client i => client s i
  | .test => test s
  | .perform => perform s
  | .endPass => endPass s

def initial (program : ι → List (Statement τ)) : State ι τ where
  innerThread := true
  stopped := false
  references := 1
  loop := .unstarted
  mailbox := []
  executed := []
  todo := program
  point := fun _ => .ready
  posted := []
  performed := []

def permanentThread (program : ι → List (Statement τ)) : Machine (State ι τ) (Action ι) :=
  ⟨initial program, step⟩

end Model

end OCNote.PermanentThread
