import Mathlib.Logic.Function.Basic
import OCNote.Timer.MBTimer

/-! # The statements of MBTimer on any number of threads

Each statement of the two methods is a step of the thread that executes it. A thread runs
code of its own or the handler of a source: the task block, which may call the methods,
and then the cancellation of a timer that does not repeat. -/

namespace OCNote.Timer.Interleaved
open OCNote.Support
set_option autoImplicit false

universe u v

/-- The block given to `dispatch_source_set_event_handler`, with what it captures. -/
structure Handler (τ : Type u) where
  task : τ
  repeats : Bool
  name : String

/-- A dispatch source; its position in `State.sources` is its identity. -/
structure Source (τ : Type u) where
  async : Bool
  startInterval : Option (Rat × Rat)
  handler : Option (Handler τ)
  resumed : Bool
  cancelled : Bool

/-- The statement that a thread executes next, with the variables of its call. -/
inductive Point (τ : Type u) where
  | idle
  /-- `execTask` -/
  | testRequest (request : Request τ)
  | createSource (request : Request τ)
  | setTimer (request : Request τ) (timer : Nat)
  | waitExec (request : Request τ) (timer : Nat)
  | readCount (request : Request τ) (timer : Nat)
  | store (request : Request τ) (timer : Nat) (name : String)
  | signalExec (request : Request τ) (timer : Nat) (name : String)
  | setHandler (request : Request τ) (timer : Nat) (name : String)
  | resume (request : Request τ) (timer : Nat) (name : String)
  | returnName (request : Request τ) (name : Option String)
  /-- `cancelTask` -/
  | testName (name : Option String)
  | waitCancel (name : String)
  | lookup (name : String)
  | cancelSource (name : String) (timer : Nat)
  | remove (name : String)
  | signalCancel
  | returnCancel

inductive Context where
  | plain
  /-- The task block of the source runs. -/
  | task (source : Nat)
  /-- The task block has returned; its handler cancels the timer. -/
  | selfCancel (source : Nat)
  deriving DecidableEq, Repr

/-- A call that has passed its guard and acquired the semaphore. -/
inductive Accepted (τ : Type u) where
  | execTask (request : Request τ) (timer : Nat)
  | cancelTask (name : String)

structure State (ι : Type v) (τ : Type u) where
  semaphore_ : Nat
  timers_ : AList fun _ : String => Nat
  sources : List (Source τ)
  /-- The sources whose handlers are in progress. -/
  running : List Nat
  point : ι → Point τ
  context : ι → Context
  /-- The thread whose wait has returned and whose signal has not run. This and the
  fields below are read by no statement. -/
  holder : Option ι
  acquired : List (Accepted τ)
  /-- How many calls had acquired the semaphore before the thread last did. -/
  turn : ι → Nat
  /-- The results of `execTask`, a name together with the turn of its call. -/
  returned : List (Request τ × Option (Nat × String))

inductive Action (ι : Type v) (τ : Type u) where
  | execTask (i : ι) (request : Request τ)
  | cancelTask (i : ι) (name : Option String)
  | fire (i : ι) (source : Nat)
  | taskReturns (i : ι)
  | statement (i : ι)

/-- `dispatch_source_create` -/
def Source.create {τ : Type u} (async : Bool) : Source τ where
  async := async
  startInterval := none
  handler := none
  resumed := false
  cancelled := false

section Model

variable {ι : Type v} {τ : Type u} [DecidableEq ι]

def State.goto (s : State ι τ) (i : ι) (p : Point τ) : State ι τ :=
  { s with point := Function.update s.point i p }

/-- A call returns; a self-cancellation ends the handler. -/
def State.finish (s : State ι τ) (i : ι) : State ι τ :=
  match s.context i with
  | .selfCancel source =>
    { s.goto i .idle with context := Function.update s.context i .plain, running := s.running.erase source }
  | _ => s.goto i .idle

omit [DecidableEq ι] in
def State.setSource (s : State ι τ) (timer : Nat) (f : Source τ → Source τ) : State ι τ :=
  { s with sources := s.sources.modify timer f }

/-- `dispatch_semaphore_wait` without a limit, by a call that is accepted here. -/
def State.wait (s : State ι τ) (i : ι) (call : Accepted τ) (p : Point τ) : Option (State ι τ) :=
  if s.semaphore_ = 0 then none
  else
    some ({ s with
      semaphore_ := s.semaphore_ - 1
      holder := some i
      acquired := s.acquired ++ [call]
      turn := Function.update s.turn i s.acquired.length }.goto i p)

def State.signal (s : State ι τ) (i : ι) (p : Point τ) : State ι τ :=
  { s with semaphore_ := s.semaphore_ + 1, holder := none }.goto i p

def execStatement (s : State ι τ) (i : ι) : Option (State ι τ) :=
  match s.point i with
  | .testRequest r => some (s.goto i (if r.refused then .returnName r none else .createSource r))
  | .createSource r =>
    some ({ s with sources := s.sources ++ [Source.create r.async] }.goto i
      (.setTimer r s.sources.length))
  | .setTimer r timer =>
    some ((s.setSource timer fun source => { source with startInterval := some (r.start, r.interval) }).goto i
      (.waitExec r timer))
  | .waitExec r timer => s.wait i (.execTask r timer) (.readCount r timer)
  | .readCount r timer => some (s.goto i (.store r timer (Nat.repr (count s.timers_))))
  | .store r timer name =>
    some ({ s with timers_ := s.timers_.insert name timer }.goto i (.signalExec r timer name))
  | .signalExec r timer name => some (s.signal i (.setHandler r timer name))
  | .setHandler r timer name =>
    some ((s.setSource timer fun source =>
      { source with handler := r.task.map fun task => ⟨task, r.repeats, name⟩ }).goto i (.resume r timer name))
  | .resume r timer name =>
    some ((s.setSource timer fun source => { source with resumed := true }).goto i (.returnName r (some name)))
  | .returnName r name =>
    some ({ s with returned := s.returned ++ [(r, name.map fun name => (s.turn i, name))] }.finish i)
  | _ => none

def cancelStatement (s : State ι τ) (i : ι) : Option (State ι τ) :=
  match s.point i with
  | .testName none => some (s.goto i .returnCancel)
  | .testName (some name) => some (s.goto i (if name.length = 0 then .returnCancel else .waitCancel name))
  | .waitCancel name => s.wait i (.cancelTask name) (.lookup name)
  | .lookup name =>
    some (s.goto i (match s.timers_.lookup name with
      | none => .signalCancel
      | some timer => .cancelSource name timer))
  | .cancelSource name timer =>
    some ((s.setSource timer fun source => { source with cancelled := true }).goto i (.remove name))
  | .remove name => some ({ s with timers_ := s.timers_.erase name }.goto i .signalCancel)
  | .signalCancel => some (s.signal i .returnCancel)
  | .returnCancel => some (s.finish i)
  | _ => none

omit [DecidableEq ι] in
def State.isIdle (s : State ι τ) (i : ι) : Bool :=
  match s.point i with
  | .idle => true
  | _ => false

/-- A source that has been resumed may fire as long as it is not cancelled, on a thread
that serves its queue. One that has been released by an overwritten entry is not excluded. -/
def fire (serves : ι → Bool → Bool) (s : State ι τ) (i : ι) (timer : Nat) : Option (State ι τ) :=
  match s.sources[timer]? with
  | none => none
  | some source =>
    if s.isIdle i && s.context i == .plain && serves i source.async && source.handler.isSome &&
        source.resumed && !source.cancelled && !s.running.contains timer then
      some { s with context := Function.update s.context i (.task timer), running := timer :: s.running }
    else none

def taskReturns (s : State ι τ) (i : ι) : Option (State ι τ) :=
  match s.isIdle i, s.context i with
  | true, .task timer =>
    (s.sources[timer]?.bind Source.handler).map fun handler =>
      if handler.repeats then
        { s with context := Function.update s.context i .plain, running := s.running.erase timer }
      else
        { s.goto i (.testName (some handler.name)) with
          context := Function.update s.context i (.selfCancel timer) }
  | _, _ => none

/-- `execTask` and `cancelTask` are called by any code, the task blocks included. -/
def call (s : State ι τ) (i : ι) (p : Point τ) : Option (State ι τ) :=
  if s.isIdle i then some (s.goto i p) else none

def step (serves : ι → Bool → Bool) (s : State ι τ) : Action ι τ → Option (State ι τ)
  | .execTask i r => call s i (.testRequest r)
  | .cancelTask i name => call s i (.testName name)
  | .fire i timer => fire serves s i timer
  | .taskReturns i => taskReturns s i
  | .statement i => (execStatement s i).or (cancelStatement s i)

omit [DecidableEq ι] in
/-- After `initialize`. -/
def initial : State ι τ where
  semaphore_ := 1
  timers_ := ∅
  sources := []
  running := []
  point := fun _ => .idle
  context := fun _ => .plain
  holder := none
  acquired := []
  turn := fun _ => 0
  returned := []

def threads (serves : ι → Bool → Bool) : Machine (State ι τ) (Action ι τ) := ⟨initial, step serves⟩

end Model

end OCNote.Timer.Interleaved
