import Mathlib.Logic.Function.Basic
import OCNote.Support.BarrierQueue
import OCNote.Support.Machine

/-! # The user data centre UserCenter

A dictionary behind a private concurrent queue. A read is a plain block whose caller
waits for it, a write is a barrier block whose caller returns at once. The submission,
the start, the dictionary access and the completion of a block are separate steps. -/

namespace OCNote.UserCenter
open OCNote.Support
set_option autoImplicit false

universe u v w

inductive Operation (κ : Type u) (ο : Type v) where
  | objectForKey (key : κ)
  | setObject (obj : ο) (key : κ)
  deriving DecidableEq, Repr

structure Block (κ : Type u) (ο : Type v) where
  operation : Operation κ ο
  accessed : Bool
  /-- `__block id obj` of a read. -/
  obj : Option ο

/-- A value that `objectForKey:` gave to its caller, and the block that read it. -/
structure Return (ι : Type w) (ο : Type v) where
  client : ι
  block : Nat
  obj : Option ο

structure State (ι : Type w) (κ : Type u) (ο : Type v) where
  concurrent_queue : BarrierQueue (Block κ ο)
  userCenterDic : κ → Option ο
  reading : ι → Option Nat
  /-- What has been returned so far; no statement reads it. -/
  returned : List (Return ι ο)

inductive Action (ι : Type w) (κ : Type u) (ο : Type v) where
  | objectForKey (client : ι) (key : κ)
  | setObject (client : ι) (obj : ο) (key : κ)
  | start (block : Nat)
  | access (block : Nat)
  | finish (block : Nat)
  | returns (client : ι)

section Model

variable {ι : Type w} {κ : Type u} {ο : Type v} [DecidableEq ι] [DecidableEq κ]

def Operation.apply (dic : κ → Option ο) : Operation κ ο → κ → Option ο
  | .objectForKey _ => dic
  | .setObject obj key => Function.update dic key (some obj)

omit [DecidableEq κ] in
def Block.access (dic : κ → Option ο) (block : Block κ ο) : Block κ ο :=
  match block.operation with
  | .objectForKey key => { block with accessed := true, obj := dic key }
  | .setObject _ _ => { block with accessed := true }

omit [DecidableEq κ] in
/-- `dispatch_sync`: the caller waits until the block it submitted is finished. -/
def objectForKey (s : State ι κ ο) (client : ι) (key : κ) : Option (State ι κ ο) :=
  if s.reading client = none then
    some { s with
      concurrent_queue := s.concurrent_queue.submit false ⟨.objectForKey key, false, none⟩
      reading := Function.update s.reading client (some s.concurrent_queue.jobs.length) }
  else none

omit [DecidableEq ι] [DecidableEq κ] in
/-- `dispatch_barrier_async` -/
def setObject (s : State ι κ ο) (client : ι) (obj : ο) (key : κ) : Option (State ι κ ο) :=
  if s.reading client = none then
    some { s with
      concurrent_queue := s.concurrent_queue.submit true ⟨.setObject obj key, false, none⟩ }
  else none

omit [DecidableEq ι] in
def access (s : State ι κ ο) (n : Nat) : Option (State ι κ ο) :=
  match s.concurrent_queue.jobs[n]? with
  | none => none
  | some job =>
    if job.body.accessed then none
    else
      (s.concurrent_queue.work n (Block.access s.userCenterDic)).map fun queue =>
        { s with
          concurrent_queue := queue
          userCenterDic := job.body.operation.apply s.userCenterDic }

omit [DecidableEq ι] [DecidableEq κ] in
def finish (s : State ι κ ο) (n : Nat) : Option (State ι κ ο) :=
  match s.concurrent_queue.jobs[n]? with
  | none => none
  | some job =>
    if job.body.accessed then
      (s.concurrent_queue.finish n).map fun queue => { s with concurrent_queue := queue }
    else none

omit [DecidableEq κ] in
def returns (s : State ι κ ο) (client : ι) : Option (State ι κ ο) :=
  match s.reading client with
  | none => none
  | some n =>
    match s.concurrent_queue.jobs[n]? with
    | none => none
    | some job =>
      if job.phase = .finished then
        some { s with
          reading := Function.update s.reading client none
          returned := s.returned ++ [⟨client, n, job.body.obj⟩] }
      else none

def step (s : State ι κ ο) : Action ι κ ο → Option (State ι κ ο)
  | .objectForKey client key => objectForKey s client key
  | .setObject client obj key => setObject s client obj key
  | .start n => (s.concurrent_queue.start n).map fun queue => { s with concurrent_queue := queue }
  | .access n => access s n
  | .finish n => finish s n
  | .returns client => returns s client

def userCenter (ι : Type w) (κ : Type u) (ο : Type v) [DecidableEq ι] [DecidableEq κ] :
    Machine (State ι κ ο) (Action ι κ ο) where
  start := ⟨.empty, fun _ => none, fun _ => none, []⟩
  step := step

end Model

end OCNote.UserCenter
