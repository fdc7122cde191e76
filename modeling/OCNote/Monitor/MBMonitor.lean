import Mathlib.Logic.Function.Basic
import OCNote.Support.Machine

/-! # The stall monitor MBMonitor

The main thread calls `beginMonitor` and `endMonitor` and runs the callbacks of the
observer; each statement is a step. A worker is the block that `beginMonitor` hands to a
global queue. A timed wait ends by a signal or by the timeout. -/

namespace OCNote.Monitor
open OCNote.Support
set_option autoImplicit false

def kCFRunLoopBeforeSources : Nat := 4

def kCFRunLoopAfterWaiting : Nat := 64

inductive MainPoint where
  | idle
  /-- `beginMonitor` -/
  | scheduleTimer
  | testRunning
  | createSemaphore
  | createObserver
  | addObserver
  | startWorker
  /-- `endMonitor` -/
  | invalidateTimer
  | testStopped
  | removeObserver
  | releaseObserver
  | clearObserver
  /-- `runLoopObserverCallBack` -/
  | storeActivity (activity : Nat)
  | readSemaphore
  | signal (semaphore : Option Nat)
  deriving DecidableEq, Repr

inductive WorkerPoint where
  | readSemaphore
  | wait (semaphore : Option Nat)
  | testObserver
  | clearTimeoutCount
  | clearSemaphore
  | clearActivity
  | testActivity
  | resetTimeoutCount
  | returned
  deriving DecidableEq, Repr

structure State where
  main : MainPoint
  workers : List WorkerPoint
  semaphores : List Nat
  timeoutCount : Int
  runLoopObserver : Option Nat
  dispatchSemaphore : Option Nat
  runLoopActivity : Nat
  cpuMonitorTimer : Option Nat
  timers : Nat
  validTimers : List Nat
  observers : Nat
  addedObservers : List Nat
  triggers : Nat
  /-- A null semaphore has been used. -/
  crashed : Bool
  deriving DecidableEq, Repr

inductive Action where
  | beginMonitor
  | endMonitor
  | callBack (activity : Nat)
  | main
  | worker (i : Nat)
  | timeout (i : Nat)
  deriving DecidableEq, Repr

def State.goto (s : State) (p : MainPoint) : State := { s with main := p }

def State.workerGoto (s : State) (i : Nat) (p : WorkerPoint) : State :=
  { s with workers := s.workers.set i p }

def mainStep (s : State) : Option State :=
  match s.main with
  | .idle => none
  | .scheduleTimer =>
    some ({ s with
      cpuMonitorTimer := some s.timers
      validTimers := s.validTimers ++ [s.timers]
      timers := s.timers + 1 }.goto .testRunning)
  | .testRunning => some (s.goto (if s.runLoopObserver.isSome then .idle else .createSemaphore))
  | .createSemaphore =>
    some ({ s with
      dispatchSemaphore := some s.semaphores.length
      semaphores := s.semaphores ++ [0] }.goto .createObserver)
  | .createObserver =>
    some ({ s with
      runLoopObserver := some s.observers
      observers := s.observers + 1 }.goto .addObserver)
  | .addObserver =>
    some ({ s with addedObservers := s.addedObservers ++ s.runLoopObserver.toList }.goto .startWorker)
  | .startWorker => some ({ s with workers := s.workers ++ [WorkerPoint.readSemaphore] }.goto .idle)
  | .invalidateTimer =>
    some ({ s with
      validTimers := s.validTimers.filter fun timer => s.cpuMonitorTimer ≠ some timer }.goto .testStopped)
  | .testStopped => some (s.goto (if s.runLoopObserver.isSome then .removeObserver else .idle))
  | .removeObserver =>
    some ({ s with
      addedObservers := s.addedObservers.filter fun observer => s.runLoopObserver ≠ some observer }.goto
        .releaseObserver)
  | .releaseObserver => some (s.goto .clearObserver)
  | .clearObserver => some ({ s with runLoopObserver := none }.goto .idle)
  | .storeActivity activity => some ({ s with runLoopActivity := activity }.goto .readSemaphore)
  | .readSemaphore => some (s.goto (.signal s.dispatchSemaphore))
  | .signal none => some { s with crashed := true }
  | .signal (some semaphore) =>
    some ({ s with semaphores := s.semaphores.modify semaphore (· + 1) }.goto .idle)

/-- The statements of worker `i`; its wait ends here by a signal. -/
def workerStep (s : State) (i : Nat) : Option State :=
  match s.workers[i]? with
  | none => none
  | some .readSemaphore => some (s.workerGoto i (.wait s.dispatchSemaphore))
  | some (.wait none) => some { s with crashed := true }
  | some (.wait (some semaphore)) =>
    if 0 < s.semaphores.getD semaphore 0 then
      some ({ s with semaphores := s.semaphores.modify semaphore (· - 1) }.workerGoto i .resetTimeoutCount)
    else none
  | some .testObserver =>
    some (s.workerGoto i (if s.runLoopObserver.isSome then .testActivity else .clearTimeoutCount))
  | some .clearTimeoutCount => some ({ s with timeoutCount := 0 }.workerGoto i .clearSemaphore)
  | some .clearSemaphore => some ({ s with dispatchSemaphore := none }.workerGoto i .clearActivity)
  | some .clearActivity => some ({ s with runLoopActivity := 0 }.workerGoto i .returned)
  | some .testActivity =>
    if s.runLoopActivity = kCFRunLoopBeforeSources ∨ s.runLoopActivity = kCFRunLoopAfterWaiting then
      some ({ s with triggers := s.triggers + 1 }.workerGoto i .resetTimeoutCount)
    else some (s.workerGoto i .resetTimeoutCount)
  | some .resetTimeoutCount => some ({ s with timeoutCount := 0 }.workerGoto i .readSemaphore)
  | some .returned => none

def timeoutStep (s : State) (i : Nat) : Option State :=
  match s.workers[i]? with
  | some (.wait (some _)) => some (s.workerGoto i .testObserver)
  | _ => none

/-- A call or a callback begins when the main thread is idle, a callback only with an
observer on the main run loop. -/
def call (s : State) (p : MainPoint) : Option State := if s.main = .idle then some (s.goto p) else none

def step (s : State) (a : Action) : Option State :=
  if s.crashed then none
  else
    match a with
    | .beginMonitor => call s .scheduleTimer
    | .endMonitor => call s .invalidateTimer
    | .callBack activity => if s.addedObservers = [] then none else call s (.storeActivity activity)
    | .main => mainStep s
    | .worker i => workerStep s i
    | .timeout i => timeoutStep s i

def initial : State where
  main := .idle
  workers := []
  semaphores := []
  timeoutCount := 0
  runLoopObserver := none
  dispatchSemaphore := none
  runLoopActivity := 0
  cpuMonitorTimer := none
  timers := 0
  validTimers := []
  observers := 0
  addedObservers := []
  triggers := 0
  crashed := false

def monitor : Machine State Action := ⟨initial, step⟩

end OCNote.Monitor
