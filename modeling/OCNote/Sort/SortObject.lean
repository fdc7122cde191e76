import OCNote.Support.CInt
import OCNote.Support.Loop

/-! # The exchange sorts of SortObject

The array holds objects of any type; `intValue` is what the sorts read of them. `end` is
an `NSUInteger`, and so is `begin` in the insertion sort; in the others `begin` is an
`int`. The bubble sorts record each comparison and exchange in the order it is made, the
selection sort its rounds. -/

namespace OCNote.Sort
open OCNote.Support
set_option autoImplicit false

structure RangeException where
  index : Nat
  count : Nat
  deriving DecidableEq, Repr

inductive SortEvent where
  | pass (endIndex : Nat)
  | compare (begin : Nat)
  | exchange (begin : Nat)
  deriving DecidableEq, Repr

structure Memory (α : Type) where
  array : List α
  events : List SortEvent
  deriving DecidableEq, Repr

section Access

variable {α : Type}

def objectAt (array : List α) (index : Nat) : Except (Halt RangeException) α :=
  match array[index]? with
  | some x => .ok x
  | none => .error (.raised ⟨index, array.length⟩)

/-- NSMutableArray replaces below its count and appends at its count. -/
def setObject (array : List α) (index : Nat) (x : α) : Except (Halt RangeException) (List α) :=
  if index < array.length then .ok (array.set index x)
  else if index = array.length then .ok (array ++ [x])
  else .error (.raised ⟨index, array.length⟩)

/-- The three statements that exchange two objects through `temp`. -/
def exchange (array : List α) (i j : Nat) : Except (Halt RangeException) (List α) := do
  let temp ← objectAt array i
  let array ← setObject array i (← objectAt array j)
  setObject array j temp

/-- `array.count - 1` -/
def lastIndex (array : List α) : Nat := toNSUInteger (array.length - 1)

@[simp] theorem objectAt_of_getElem? {array : List α} {index : Nat} {x : α}
    (h : array[index]? = some x) : objectAt array index = .ok x := by
  rw [objectAt, h]

theorem setObject_of_lt {array : List α} {index : Nat} {x : α} (h : index < array.length) :
    setObject array index x = .ok (array.set index x) := if_pos h

theorem exchange_eq {array : List α} {i j : Nat} {x y : α} (hx : array[i]? = some x)
    (hy : array[j]? = some y) : exchange array i j = .ok ((array.set i y).set j x) := by
  obtain ⟨hi, _⟩ := List.getElem?_eq_some_iff.mp hx
  obtain ⟨hj, _⟩ := List.getElem?_eq_some_iff.mp hy
  have hj' : j < (array.set i y).length := by rwa [List.length_set]
  simp [exchange, objectAt_of_getElem? hx, objectAt_of_getElem? hy, setObject_of_lt hi, setObject_of_lt hj',
    bind, Except.bind]

theorem exchange_perm {array : List α} {i j : Nat} {x y : α} (hx : array[i]? = some x)
    (hy : array[j]? = some y) : ((array.set i y).set j x).Perm array := by
  obtain ⟨hi, rfl⟩ := List.getElem?_eq_some_iff.mp hx
  obtain ⟨hj, rfl⟩ := List.getElem?_eq_some_iff.mp hy
  exact List.set_set_perm hi hj

theorem exchange_getElem? {array : List α} {i j : Nat} {x y : α} (hx : array[i]? = some x)
    (hy : array[j]? = some y) (k : Nat) : ((array.set i y).set j x)[k]? =
      if k = j then some x else if k = i then some y else array[k]? := by
  obtain ⟨hi, _⟩ := List.getElem?_eq_some_iff.mp hx
  obtain ⟨hj, _⟩ := List.getElem?_eq_some_iff.mp hy
  rw [List.getElem?_set, List.getElem?_set]
  simp only [List.length_set, hi, hj, if_true, eq_comm (a := k)]

end Access

/-- The variables of one pass; `mark` is what the variant remembers of its exchanges. -/
structure Frame (α : Type) (β : Type) where
  array : List α
  events : List SortEvent
  mark : β
  begin : Int

section Sorts

variable {α β : Type} (intValue : α → Int32)

def compareAndExchange (note : Nat → β → β) (f : Frame α β) :
    Except (Halt RangeException) (Flow (Frame α β)) := do
  let begin := toNSUInteger f.begin
  let before := toNSUInteger (toInt32 (f.begin - 1))
  let events := f.events ++ [.compare begin]
  if intValue (← objectAt f.array begin) < intValue (← objectAt f.array before) then
    let temp ← objectAt f.array begin
    let array ← setObject f.array begin (← objectAt f.array before)
    let array ← setObject array before temp
    pure (.next { f with
      array := array, events := events ++ [.exchange begin], mark := note begin f.mark })
  else
    pure (.next { f with events := events })

/-- `for (int begin = 1; begin <= end; begin++)` -/
def bubblePass (note : Nat → β → β) (mark : β) (fuel : Nat) (endIndex : Nat) (m : Memory α) :
    Except (Halt RangeException) (Frame α β) :=
  loop (fun f => .ok (decide (toNSUInteger f.begin ≤ endIndex)))
    (compareAndExchange intValue note)
    (fun f => { f with begin := toInt32 (f.begin + 1) })
    fuel ⟨m.array, m.events ++ [.pass endIndex], mark, 1⟩

/-- `for (NSUInteger end = array.count-1; end > 0; end--)`, where `leaves` tells from
the mark of a pass whether the loop is left. -/
def bubbleSortLoop (note : Nat → β → β) (mark : β) (leaves : β → Bool) (fuel : Nat)
    (array : List α) : Except (Halt RangeException) (Memory α × Nat) :=
  loop (fun s => .ok (decide (s.2 > 0)))
    (fun s => do
      let f ← bubblePass intValue note mark fuel s.2 s.1
      if leaves f.mark then pure (.leave (⟨f.array, f.events⟩, s.2))
      else pure (.next (⟨f.array, f.events⟩, s.2)))
    (fun s => (s.1, s.2 - 1))
    fuel (⟨array, []⟩, lastIndex array)

def bubbleSort (note : Nat → β → β) (mark : β) (leaves : β → Bool) (fuel : Nat) (array : List α) :
    Except (Halt RangeException) (Memory α) :=
  (bubbleSortLoop intValue note mark leaves fuel array).map Prod.fst

def bubbleSort1 (fuel : Nat) (array : List α) : Except (Halt RangeException) (Memory α) :=
  bubbleSort intValue (fun _ mark => mark) () (fun _ => false) fuel array

/-- The mark is `isSorted`. -/
def bubbleSort2 (fuel : Nat) (array : List α) : Except (Halt RangeException) (Memory α) :=
  bubbleSort intValue (fun _ _ => false) true (fun isSorted => isSorted) fuel array

/-- The mark is `sortIndex`. The pass ends with `sortIndex = end`, a store to a variable
that goes out of scope, so `end` steps down by one whatever the pass has found. -/
def bubbleSort3 (fuel : Nat) (array : List α) : Except (Halt RangeException) (Memory α) :=
  bubbleSort intValue (fun begin _ => begin) 1 (fun _ => false) fuel array

end Sorts

structure Cursor (α : Type) where
  array : List α
  begin : Nat
  deriving DecidableEq, Repr

/-- One round of the selection sort with the arrays before and after it. -/
structure Round (α : Type) where
  endIndex : Nat
  before : List α
  after : List α
  deriving DecidableEq, Repr

section OtherSorts

variable {α : Type} (intValue : α → Int32)

/-- The inner loop of the insertion sort; the difference of the values is an `int` too. -/
def insertionWhile (fuel : Nat) (s : Cursor α) : Except (Halt RangeException) (Cursor α) :=
  loop
    (fun s => do
      let x ← objectAt s.array s.begin
      let y ← objectAt s.array (toNSUInteger (s.begin - 1))
      pure (decide (intValue x - intValue y < 0)))
    (fun s => do
      let before := toNSUInteger (s.begin - 1)
      pure (.next ⟨← exchange s.array s.begin before, before⟩))
    id fuel s

/-- `for (NSUInteger begin = 1; begin < array.count-1; begin++)`; the inner loop moves the
same `begin`. -/
def insertionSortLoop (fuel : Nat) (array : List α) : Except (Halt RangeException) (Cursor α) :=
  loop (fun s => .ok (decide (s.begin < lastIndex s.array)))
    (fun s => do
      let _current ← objectAt s.array s.begin
      pure (.next (← insertionWhile intValue fuel s)))
    (fun s => { s with begin := toNSUInteger (s.begin + 1) })
    fuel ⟨array, 1⟩

def insertionSort (fuel : Nat) (array : List α) : Except (Halt RangeException) (List α) :=
  (insertionSortLoop intValue fuel array).map Cursor.array

/-- The search of one round; its variables are `maxIndex` and `begin`. -/
def selectionMax (fuel : Nat) (endIndex : Nat) (array : List α) : Except (Halt RangeException) (Int × Int) :=
  loop (fun s => .ok (decide (toNSUInteger s.2 ≤ endIndex)))
    (fun s => do
      let x ← objectAt array (toNSUInteger s.1)
      let y ← objectAt array (toNSUInteger s.2)
      pure (.next (if intValue x ≤ intValue y then (s.2, s.2) else s)))
    (fun s => (s.1, toInt32 (s.2 + 1)))
    fuel (0, 1)

/-- The variables are the array with the rounds made so far, and `end`. -/
def selectionSortLoop (fuel : Nat) (array : List α) :
    Except (Halt RangeException) ((List α × List (Round α)) × Nat) :=
  loop (fun s => .ok (decide (s.2 > 0)))
    (fun s => do
      let (maxIndex, _) ← selectionMax intValue fuel s.2 s.1.1
      let array ← exchange s.1.1 (toNSUInteger maxIndex) s.2
      pure (.next ((array, s.1.2 ++ [⟨s.2, s.1.1, array⟩]), s.2)))
    (fun s => (s.1, s.2 - 1))
    fuel ((array, []), lastIndex array)

def selectionSort (fuel : Nat) (array : List α) :
    Except (Halt RangeException) (List α × List (Round α)) :=
  (selectionSortLoop intValue fuel array).map Prod.fst

end OtherSorts

end OCNote.Sort
