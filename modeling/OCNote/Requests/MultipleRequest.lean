import OCNote.Dispatch.GroupClient

/-! # A summary after several requests

`MultipleRequestController` starts requests and wants to do something when they are all over. It does so
with a dispatch group in two ways: each completion handler leaves the group that was entered before the
request, or the requests are started with `dispatch_group_async`. -/

namespace OCNote.Requests
open OCNote.Support OCNote.Dispatch
set_option autoImplicit false

inductive Style where
  /-- `test_dispatch_group_enter` -/
  | enterLeave
  /-- `test_dispatch_group_notify` -/
  | groupAsync
  deriving DecidableEq, Repr

/-- The statements of the two methods. `dispatch_group_async` is an enter before the block is handed
over and a leave after it has run. -/
inductive Statement (k : Nat) where
  | enter (j : Fin k)
  | async (j : Fin k)
  | notify
  deriving DecidableEq, Repr

inductive LogLine (k : Nat) where
  /-- A request has begun, and it has ended. -/
  | begins (j : Fin k)
  | ends (j : Fin k)
  | summary
  | success
  deriving DecidableEq, Repr

inductive Label (k : Nat) where
  | main
  /-- The block of a request runs, as far as `[dataTask resume]`. -/
  | runs (j : Fin k)
  /-- The completion handler of a request. -/
  | ends (j : Fin k)
  /-- The block of a request has returned to `dispatch_group_async`. -/
  | returns (j : Fin k)
  | summary
  | success
  | group (e : Group.Event (Option (Fin k)))

structure App (k : Nat) where
  /-- The main thread is `none`; `some j` is the one that leaves the group for a request. -/
  group : Group.State (Option (Fin k))
  /-- How many statements the main thread has come to. -/
  line : Nat
  /-- The requests for which the group is left. -/
  left : Fin k → Bool
  log : List (LogLine k)

variable {k : Nat}

def statement (k line : Nat) : Option (Statement k) :=
  if h : line / 2 < k then some (if line % 2 = 0 then .enter ⟨line / 2, h⟩ else .async ⟨line / 2, h⟩)
  else if line = 2 * k then some .notify
  else none

/-- What a step means for the group. -/
def groupEvent (style : Style) (s : App k) : Label k → Option (Group.Event (Option (Fin k)))
  | .main =>
    match statement k s.line with
    | some (.enter _) => some (.call none .enter)
    | some .notify => some (.call none .notify)
    | _ => none
  | .ends j => if style = .enterLeave then some (.call (some j) .leave) else none
  | .returns j => some (.call (some j) .leave)
  | .group e => some e
  | _ => none

/-- What a step means for the rest. -/
def advance (style : Style) (s : App k) : Label k → Option (App k)
  | .main => if (s.group.point none).idle = true ∧ s.line ≤ 2 * k then some { s with line := s.line + 1 } else none
  | .runs j => if j.val < s.line / 2 ∧ .begins j ∉ s.log then some { s with log := s.log ++ [.begins j] } else none
  | .ends j =>
    if .begins j ∈ s.log ∧ .ends j ∉ s.log then
      some { s with log := s.log ++ [.ends j], left := if style = .enterLeave then Function.update s.left j true else s.left }
    else none
  | .returns j =>
    if style = .groupAsync ∧ .begins j ∈ s.log ∧ s.left j = false then some { s with left := Function.update s.left j true }
    else none
  | .summary => if 0 ∈ s.group.submitted ∧ .summary ∉ s.log then some { s with log := s.log ++ [.summary] } else none
  | .success => if .summary ∈ s.log ∧ .success ∉ s.log then some { s with log := s.log ++ [.success] } else none
  | .group (.call _ _) => none
  | .group _ => some s

def step (style : Style) (s : App k) (l : Label k) : Option (App k) :=
  if s.group.crashed.isSome then none else
  (advance style s l).bind fun s' =>
    match groupEvent style s l with
    | some e => (Group.step s.group e).map fun g => { s' with group := g }
    | none => some s'

def requests (style : Style) (k : Nat) : Machine (App k) (Label k) where
  start := { group := Group.group_create_with_count (Option (Fin k)) 0#32, line := 0, left := fun _ => false, log := [] }
  step := step style

/-- The requests for a sound, a picture and a film. -/
def test_dispatch_group_enter : Machine (App 3) (Label 3) := requests .enterLeave 3

def test_dispatch_group_notify : Machine (App 3) (Label 3) := requests .groupAsync 3

/-- What has happened before the group is left for a request. -/
def Style.awaited (style : Style) (j : Fin k) : LogLine k :=
  match style with
  | enterLeave => .ends j
  | groupAsync => .begins j

end OCNote.Requests
