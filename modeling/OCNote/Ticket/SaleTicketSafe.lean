import Mathlib.Data.List.Nodup
import Mathlib.Data.Int.Basic
import OCNote.Support.Machine
import OCNote.Support.Lock

/-! # Selling tickets behind a semaphore

Any number of windows run `saleTicketSafe` of `GcdLockViewController`. A label names
the window that executes its next statement; the decrement is a read and a write. -/

namespace OCNote.Ticket
open OCNote.Support
set_option autoImplicit false

universe u

/-- Program points of one window, named after the statement it executes next. -/
inductive Point where
  | wait
  | test
  | readCount
  | writeCount (read : Int)
  | logCount
  | sleep
  | signal
  | logSoldOut
  | breakLoop
  | left
  deriving DecidableEq, Repr

inductive LogLine (ι : Type u) where
  | remaining (count : Int) (window : ι)
  | soldOut
  deriving DecidableEq, Repr

structure State (ι : Type u) where
  semaphoreLock : Nat
  ticketSurplusCount : Int
  point : ι → Point
  log : List (LogLine ι)
  /-- Completed decrements; no statement reads it. -/
  decrements : Nat

section Model

variable {ι : Type u} [DecidableEq ι]

def State.goto (s : State ι) (i : ι) (p : Point) : State ι :=
  { s with point := Function.update s.point i p }

def saleTicketSafe (s : State ι) (i : ι) : Option (State ι) :=
  match s.point i with
  | .wait =>
    if s.semaphoreLock = 0 then none
    else some ({ s with semaphoreLock := s.semaphoreLock - 1 }.goto i .test)
  | .test => some (s.goto i (if s.ticketSurplusCount > 0 then .readCount else .logSoldOut))
  | .readCount => some (s.goto i (.writeCount s.ticketSurplusCount))
  | .writeCount read =>
    some ({ s with ticketSurplusCount := read - 1, decrements := s.decrements + 1 }.goto i .logCount)
  | .logCount => some ({ s with log := s.log ++ [LogLine.remaining s.ticketSurplusCount i] }.goto i .sleep)
  | .sleep => some (s.goto i .signal)
  | .signal => some ({ s with semaphoreLock := s.semaphoreLock + 1 }.goto i .wait)
  | .logSoldOut => some ({ s with log := s.log ++ [LogLine.soldOut] }.goto i .breakLoop)
  -- the break skips the signal at the bottom of the loop
  | .breakLoop => some (s.goto i .left)
  | .left => none

def initTicketStatus (ι : Type u) (count : Int) : State ι where
  semaphoreLock := 1
  ticketSurplusCount := count
  point := fun _ => .wait
  log := []
  decrements := 0

def sale (ι : Type u) [DecidableEq ι] (count : Int) : Machine (State ι) ι where
  start := initTicketStatus ι count
  step := saleTicketSafe

end Model

def remainingLogged {ι : Type u} (log : List (LogLine ι)) : List Int :=
  log.filterMap fun
    | .remaining count _ => some count
    | .soldOut => none

@[simp] theorem remainingLogged_remaining {ι : Type u} (log : List (LogLine ι)) (count : Int) (i : ι) :
    remainingLogged (log ++ [.remaining count i]) = remainingLogged log ++ [count] := by
  simp [remainingLogged]

@[simp] theorem remainingLogged_soldOut {ι : Type u} (log : List (LogLine ι)) :
    remainingLogged (log ++ [.soldOut]) = remainingLogged log := by
  simp [remainingLogged]

/-- `count - 1`, `count - 2`, … , `length` numbers in all. -/
def countdown (count : Int) (length : Nat) : List Int :=
  (List.range length).map fun (j : Nat) => count - 1 - j

theorem countdown_succ (count : Int) (length : Nat) :
    countdown count (length + 1) = countdown count length ++ [count - 1 - length] := by
  simp [countdown, List.range_succ]

@[simp] theorem countdown_length (count : Int) (length : Nat) :
    (countdown count length).length = length := by simp [countdown]

theorem countdown_nodup (count : Int) (length : Nat) : (countdown count length).Nodup := by
  apply List.Nodup.map _ List.nodup_range
  intro a b h
  simp only at h
  omega

/-- The wait has returned and the signal has not run. A window that took the break
never runs it. -/
def Point.Inside (p : Point) : Prop := p ≠ .wait

/-- What the window at a program point knows about the counter. -/
def Point.Knows (count : Int) : Point → Prop
  | .readCount => 0 < count
  | .writeCount read => read = count ∧ 0 < count
  | _ => True

section Invariant

variable {ι : Type u}

structure Inv (count : Int) (s : State ι) : Prop where
  lock : Exclusive Point.Inside s.semaphoreLock s.point
  nonneg : 0 ≤ s.ticketSurplusCount
  sold : s.decrements + s.ticketSurplusCount = count
  knows : ∀ i, (s.point i).Knows s.ticketSurplusCount
  logged : (∀ i, s.point i ≠ .logCount) → remainingLogged s.log = countdown count s.decrements
  behind : ∀ i, s.point i = .logCount →
    ∃ k, s.decrements = k + 1 ∧ remainingLogged s.log = countdown count k

theorem Inv.start (N : Nat) : Inv N (initTicketStatus ι N) where
  lock := Exclusive.start (by simp [initTicketStatus, Point.Inside])
  nonneg := by simp [initTicketStatus]
  sold := by simp [initTicketStatus]
  knows := by simp [initTicketStatus, Point.Knows]
  logged _ := by simp [initTicketStatus, remainingLogged, countdown]
  behind i h := by simp [initTicketStatus] at h

theorem Inv.logged_all {count : Int} {s : State ι} (h : Inv count s) {i : ι}
    (hInside : (s.point i).Inside) (hLog : s.point i ≠ .logCount) :
    remainingLogged s.log = countdown count s.decrements := by
  apply h.logged
  intro j hj
  have hij : i = j := h.lock.unique hInside (by rw [hj]; simp [Point.Inside])
  exact hLog (hij ▸ hj)

theorem Inv.other_waits {count : Int} {s : State ι} (h : Inv count s) {i j : ι}
    (hInside : (s.point i).Inside) (hji : j ≠ i) : s.point j = .wait := by
  by_contra hj
  exact hji (h.lock.unique hj hInside)

theorem Inv.log_soldOut {count : Int} {s : State ι} (h : Inv count s) :
    Inv count { s with log := s.log ++ [LogLine.soldOut] } where
  lock := h.lock
  nonneg := h.nonneg
  sold := h.sold
  knows := h.knows
  logged hNone := (remainingLogged_soldOut s.log).trans (h.logged hNone)
  behind i hi := by
    obtain ⟨k, hk, hLogged⟩ := h.behind i hi
    exact ⟨k, hk, (remainingLogged_soldOut s.log).trans hLogged⟩

theorem Inv.log_eq_countdown {count : Int} {s : State ι} (h : Inv count s) :
    remainingLogged s.log = countdown count (remainingLogged s.log).length := by
  by_cases hNone : ∀ i, s.point i ≠ .logCount
  · rw [h.logged hNone, countdown_length]
  · push Not at hNone
    obtain ⟨i, hi⟩ := hNone
    obtain ⟨k, _, hLogged⟩ := h.behind i hi
    rw [hLogged, countdown_length]

theorem Inv.logged_length_le {count : Int} {s : State ι} (h : Inv count s) :
    (remainingLogged s.log).length ≤ s.decrements := by
  by_cases hNone : ∀ i, s.point i ≠ .logCount
  · rw [h.logged hNone, countdown_length]
  · push Not at hNone
    obtain ⟨i, hi⟩ := hNone
    obtain ⟨k, hk, hLogged⟩ := h.behind i hi
    rw [hLogged, countdown_length]
    omega

variable [DecidableEq ι]

@[simp] theorem goto_point_self (s : State ι) (i : ι) (p : Point) : (s.goto i p).point i = p := by
  simp [State.goto]

theorem goto_point_of_ne (s : State ι) {i j : ι} (p : Point) (h : j ≠ i) :
    (s.goto i p).point j = s.point j := by
  simp [State.goto, Function.update_of_ne h]

theorem logCount_of_goto {s : State ι} {i j : ι} {p : Point} (hp : p ≠ .logCount)
    (hj : (s.goto i p).point j = .logCount) : j ≠ i ∧ s.point j = .logCount := by
  have hji : j ≠ i := by
    rintro rfl
    exact hp ((goto_point_self s j p).symm.trans hj)
  exact ⟨hji, by rwa [goto_point_of_ne s p hji] at hj⟩

theorem knows_goto {s : State ι} {count : Int} {i : ι} {p : Point} (hp : p.Knows count)
    (hOther : ∀ j, j ≠ i → (s.point j).Knows count) (j : ι) : ((s.goto i p).point j).Knows count := by
  obtain rfl | hji := eq_or_ne j i
  · simpa using hp
  · rw [goto_point_of_ne s p hji]
    exact hOther j hji

theorem Inv.goto {count : Int} {s : State ι} (h : Inv count s) {i : ι} {p : Point}
    (hInside : p.Inside ↔ (s.point i).Inside) (hKnows : p.Knows s.ticketSurplusCount)
    (hLog : s.point i ≠ .logCount) (hp : p ≠ .logCount) : Inv count (s.goto i p) where
  lock := h.lock.move hInside
  nonneg := h.nonneg
  sold := h.sold
  knows := knows_goto hKnows fun j _ => h.knows j
  logged hNone := h.logged fun j hj => by
    have hji : j ≠ i := fun e => hLog (e ▸ hj)
    exact hNone j (by rw [goto_point_of_ne s p hji, hj])
  behind j hj := h.behind j (logCount_of_goto hp hj).2

theorem Inv.acquire {count : Int} {s : State ι} (h : Inv count s) {i : ι}
    (hFree : s.semaphoreLock ≠ 0) :
    Inv count ({ s with semaphoreLock := s.semaphoreLock - 1 }.goto i .test) := by
  have hPos := Nat.pos_of_ne_zero hFree
  have hNone : ∀ j, s.point j ≠ .logCount := by
    intro j hj
    exact h.lock.nobody_inside hPos j (by rw [hj]; simp [Point.Inside])
  refine ⟨h.lock.acquire hPos (by simp [Point.Inside]), h.nonneg, h.sold,
    knows_goto (by trivial) fun j _ => h.knows j, fun _ => h.logged hNone, fun j hj => ?_⟩
  exact absurd (logCount_of_goto (by simp) hj).2 (hNone j)

theorem Inv.release {count : Int} {s : State ι} (h : Inv count s) {i : ι}
    (hp : s.point i = .signal) :
    Inv count ({ s with semaphoreLock := s.semaphoreLock + 1 }.goto i .wait) := by
  have hInside : (s.point i).Inside := by rw [hp]; simp [Point.Inside]
  refine ⟨h.lock.release hInside (by simp [Point.Inside]), h.nonneg, h.sold,
    knows_goto (by trivial) fun j _ => h.knows j,
    fun _ => h.logged_all hInside (by rw [hp]; simp), fun j hj => ?_⟩
  exact h.behind j (logCount_of_goto (by simp) hj).2

/-- The write completes a decrement whose read saw the current count. -/
theorem Inv.write {count : Int} {s : State ι} (h : Inv count s) {i : ι} {read : Int}
    (hp : s.point i = .writeCount read) :
    Inv count ({ s with ticketSurplusCount := read - 1, decrements := s.decrements + 1 }.goto i
      .logCount) := by
  have hInside : (s.point i).Inside := by rw [hp]; simp [Point.Inside]
  have hAll := h.logged_all hInside (by rw [hp]; simp)
  obtain ⟨hRead, hPos⟩ : read = s.ticketSurplusCount ∧ 0 < s.ticketSurplusCount := by
    simpa [hp, Point.Knows] using h.knows i
  refine ⟨h.lock.move (by simp [Point.Inside, hp]), ?_, ?_, ?_, ?_, fun _ _ => ⟨_, rfl, hAll⟩⟩
  · change 0 ≤ read - 1
    omega
  · change ((s.decrements + 1 : Nat) : Int) + (read - 1) = count
    have hSold := h.sold
    omega
  · apply knows_goto (by trivial)
    intro j hji
    change (s.point j).Knows _
    rw [h.other_waits hInside hji]
    trivial
  · intro hNone
    exact absurd (goto_point_self _ i _) (hNone i)

theorem Inv.log_count {count : Int} {s : State ι} (h : Inv count s) {i : ι}
    (hp : s.point i = .logCount) :
    Inv count ({ s with log := s.log ++ [LogLine.remaining s.ticketSurplusCount i] }.goto i
      .sleep) := by
  have hInside : (s.point i).Inside := by rw [hp]; simp [Point.Inside]
  obtain ⟨k, hk, hLogged⟩ := h.behind i hp
  refine ⟨h.lock.move (by simp [Point.Inside, hp]), h.nonneg, h.sold,
    knows_goto (by trivial) fun j _ => h.knows j, ?_, ?_⟩
  · intro _
    have hSold := h.sold
    have hLast : s.ticketSurplusCount = count - 1 - k := by omega
    change remainingLogged (s.log ++ [LogLine.remaining s.ticketSurplusCount i]) =
      countdown count s.decrements
    rw [remainingLogged_remaining, hLogged, hk, countdown_succ, hLast]
  · intro j hj
    obtain ⟨hji, hLog⟩ := logCount_of_goto (by simp) hj
    exact absurd ((h.other_waits hInside hji).symm.trans hLog) (by simp)

theorem Inv.step {count : Int} {s s' : State ι} {i : ι} (h : Inv count s)
    (hStep : saleTicketSafe s i = some s') : Inv count s' := by
  cases hp : s.point i with
  | wait =>
    simp only [saleTicketSafe, hp] at hStep
    split at hStep
    · cases hStep
    · cases hStep
      exact h.acquire ‹_›
  | test =>
    simp only [saleTicketSafe, hp, Option.some.injEq] at hStep
    subst hStep
    split
    · exact h.goto (by simp [Point.Inside, hp]) ‹_› (by simp [hp]) (by simp)
    · exact h.goto (by simp [Point.Inside, hp]) (by trivial) (by simp [hp]) (by simp)
  | readCount =>
    simp only [saleTicketSafe, hp, Option.some.injEq] at hStep
    subst hStep
    have hPos : 0 < s.ticketSurplusCount := by simpa [hp, Point.Knows] using h.knows i
    exact h.goto (by simp [Point.Inside, hp]) ⟨rfl, hPos⟩ (by simp [hp]) (by simp)
  | writeCount read =>
    simp only [saleTicketSafe, hp, Option.some.injEq] at hStep
    subst hStep
    exact h.write hp
  | logCount =>
    simp only [saleTicketSafe, hp, Option.some.injEq] at hStep
    subst hStep
    exact h.log_count hp
  | sleep =>
    simp only [saleTicketSafe, hp, Option.some.injEq] at hStep
    subst hStep
    exact h.goto (by simp [Point.Inside, hp]) (by trivial) (by simp [hp]) (by simp)
  | signal =>
    simp only [saleTicketSafe, hp, Option.some.injEq] at hStep
    subst hStep
    exact h.release hp
  | logSoldOut =>
    simp only [saleTicketSafe, hp, Option.some.injEq] at hStep
    subst hStep
    exact h.log_soldOut.goto (by simp [Point.Inside, hp]) (by trivial) (by simp [hp]) (by simp)
  | breakLoop =>
    simp only [saleTicketSafe, hp, Option.some.injEq] at hStep
    subst hStep
    exact h.goto (by simp [Point.Inside, hp]) (by trivial) (by simp [hp]) (by simp)
  | left =>
    simp [saleTicketSafe, hp] at hStep

theorem sale_invariant (N : Nat) {s : State ι} (h : (sale ι N).Reachable s) : Inv N s :=
  Machine.invariant (Inv.start N) (fun _ _ _ hInv hStep => hInv.step hStep) h

/-- However the windows interleave, no ticket is sold twice and none is oversold. -/
theorem saleTicketSafe_never_oversells (N : Nat) (s : State ι) (h : (sale ι N).Reachable s) :
    0 ≤ s.ticketSurplusCount ∧ s.ticketSurplusCount ≤ N ∧
      s.decrements + s.ticketSurplusCount = N ∧
      (remainingLogged s.log).Nodup ∧
      remainingLogged s.log = countdown N (remainingLogged s.log).length ∧
      (remainingLogged s.log).length ≤ s.decrements := by
  have hInv := sale_invariant N h
  have hSold := hInv.sold
  have hNonneg := hInv.nonneg
  refine ⟨hNonneg, by omega, hSold, ?_, hInv.log_eq_countdown, hInv.logged_length_le⟩
  rw [hInv.log_eq_countdown]
  exact countdown_nodup _ _

theorem saleTicketSafe_never_oversells_two_windows :
    let s := (sale (Fin 2) 3).after [0, 0, 0, 0, 0, 0, 0, 1, 1, 1, 1] rfl
    0 ≤ s.ticketSurplusCount ∧ s.ticketSurplusCount ≤ (3 : Nat) ∧
      s.decrements + s.ticketSurplusCount = (3 : Nat) ∧
      (remainingLogged s.log).Nodup ∧
      remainingLogged s.log = countdown (3 : Nat) (remainingLogged s.log).length ∧
      (remainingLogged s.log).length ≤ s.decrements :=
  saleTicketSafe_never_oversells 3 _ (Machine.reachable_after _ _ _)

end Invariant

end OCNote.Ticket
