import OCNote.Dispatch.SemaphoreClient
import OCNote.Ticket.SaleTicketSafe

/-! # Selling tickets over the semaphore of libdispatch

The windows call `dispatch_semaphore_wait` and `dispatch_semaphore_signal`, whose steps interleave
with those of the other windows. The sale is the one behind an atomic semaphore. -/

namespace OCNote.Ticket
open OCNote.Support OCNote.Dispatch.Semaphore
set_option autoImplicit false

universe u

structure Counter (ι : Type u) where
  ticketSurplusCount : Int
  log : List (LogLine ι)
  decrements : Nat

section Client

variable {ι : Type u} [DecidableEq ι]

def sold (s : Atomic ι Point (Counter ι)) : State ι where
  semaphoreLock := s.permits
  ticketSurplusCount := s.shared.ticketSurplusCount
  point := s.point
  log := s.shared.log
  decrements := s.shared.decrements

/-- A statement that leaves the semaphore alone. -/
def quietStatement (p : Point) (i : ι) (counter : Counter ι) : Option (Point × Counter ι) :=
  (saleTicketSafe (sold { permits := 0, point := fun _ => p, shared := counter }) i).map fun s =>
    (s.point i, ⟨s.ticketSurplusCount, s.log, s.decrements⟩)

def saleClient (ι : Type u) [DecidableEq ι] (count : Int) : Client ι Point (Counter ι) where
  start := .wait
  shared := ⟨count, [], 0⟩
  statement
    | .wait => .wait .test
    | .signal => .signal .wait
    | p => .act (quietStatement p)

theorem sale_of_atomic_step {count : Int} {s s' : Atomic ι Point (Counter ι)} {i : ι}
    (h : Atomic.step (saleClient ι count) s i = some s') : saleTicketSafe (sold s) i = some (sold s') := by
  unfold Atomic.step at h
  cases hPoint : s.point i with
  | wait =>
    simp only [saleClient, hPoint] at h
    obtain ⟨hPermits, h⟩ := Option.ite_none_left_eq_some.mp h
    cases h
    simp only [saleTicketSafe, sold, hPoint]
    exact if_neg hPermits
  | signal =>
    simp only [saleClient, hPoint] at h
    cases h
    simp only [saleTicketSafe, sold, hPoint]
    rfl
  | left =>
    simp only [saleClient, hPoint, quietStatement, saleTicketSafe, sold, Option.map_none] at h
    cases h
  | test | readCount | writeCount | logCount | sleep | logSoldOut | breakLoop =>
    simp only [saleClient, hPoint, quietStatement, saleTicketSafe, sold, Option.map_some, State.goto,
      Function.update_self] at h
    cases h
    simp only [saleTicketSafe, sold, hPoint]
    rfl

theorem sale_of_atomic {count : Int} {s : Atomic ι Point (Counter ι)}
    (h : (atomic (saleClient ι count) 1).Reachable s) : (sale ι count).Reachable (sold s) := by
  refine Machine.invariant (P := fun s => (sale ι count).Reachable (sold s)) (Machine.reachable_start _) ?_ h
  intro s i s' hReach hStep
  have hRun : (sale ι count).runFrom (sold s) [i] = some (sold s') := by
    change (saleTicketSafe (sold s) i).bind _ = _
    rw [sale_of_atomic_step hStep]
    rfl
  exact hReach.runFrom hRun

end Client

section Sale

variable {ι : Type u} [DecidableEq ι] [Fintype ι]

/-- Over the semaphore of libdispatch the windows sell what they sell behind an atomic one: the
process never crashes, each ticket is logged once and in order, none is oversold, and two windows
are never between the two calls at once. -/
theorem sale_over_libdispatch {dsema : DispatchSemaphore} (hCreate : dispatch_semaphore_create 1 = some dsema)
    (hThreads : Fintype.card ι < 2 ^ 63) (N : Nat) {s : Over ι Point (Counter ι)}
    (hReach : (overSemaphore (saleClient ι N) dsema).Reachable s) :
    s.lock.crashed = none ∧ (sale ι N).Reachable (sold (s.abstract (saleClient ι N))) ∧
      0 ≤ s.shared.ticketSurplusCount ∧ s.shared.decrements + s.shared.ticketSurplusCount = N ∧
      remainingLogged s.shared.log = countdown N (remainingLogged s.shared.log).length ∧
      ∀ i j, s.point i ≠ .wait → s.point i ≠ .signal → s.point j ≠ .wait → s.point j ≠ .signal → i = j := by
  obtain ⟨hAlive, _, hAtomic⟩ := overSemaphore_simulates (C := saleClient ι N) hCreate hThreads (fun t ht => by
    have hLock := (sale_invariant N (sale_of_atomic ht)).lock.value_le_one
    change t.permits ≤ 1 at hLock
    omega) hReach
  have hSale := sale_of_atomic hAtomic
  have hInv := sale_invariant N hSale
  refine ⟨hAlive, hSale, hInv.nonneg, hInv.sold, hInv.log_eq_countdown, fun i j hi hi' hj hj' => ?_⟩
  have hInside : ∀ k, s.point k ≠ .wait → s.point k ≠ .signal →
      ((sold (s.abstract (saleClient ι N))).point k).Inside := by
    intro k hWait hSignal
    have hCall : ((saleClient ι N).statement (s.point k)).call = none := by
      cases hPoint : s.point k <;> first | rfl | exact absurd hPoint hWait | exact absurd hPoint hSignal
    change s.settled (saleClient ι N) k ≠ .wait
    unfold Over.settled
    rw [hCall]
    split <;> exact hWait
  exact hInv.lock.unique (hInside i hi hi') (hInside j hj hj')

/-- One window sells the only ticket while the other falls asleep, and lets it through. -/
def sellsAndWakes : List (OverEvent Bool) :=
  [.statement false, .semaphore (.go false), .statement false, .statement true, .semaphore (.go true), .semaphore (.go true),
    .semaphore (.go true), .statement false, .statement false, .statement false, .statement false, .statement false, .statement false,
    .semaphore (.go false), .semaphore (.go false), .semaphore (.go false), .semaphore (.go true), .statement true, .statement true]

theorem sale_over_libdispatch_two_windows : ∃ s : Over Bool Point (Counter Bool),
    (overSemaphore (saleClient Bool (1 : Nat)) ⟨1, 1, none⟩).run sellsAndWakes = some s ∧
      s.shared.log = [.remaining 0 false] ∧ s.point true = .logSoldOut ∧ s.lock.crashed = none ∧
      0 ≤ s.shared.ticketSurplusCount ∧ s.shared.decrements + s.shared.ticketSurplusCount = (1 : Nat) := by
  obtain ⟨s, hRun⟩ := Option.isSome_iff_exists.mp
    (show ((overSemaphore (saleClient Bool (1 : Nat)) ⟨1, 1, none⟩).run sellsAndWakes).isSome = true by
      decide +kernel)
  obtain ⟨hAlive, _, hNonneg, hSold, _⟩ := sale_over_libdispatch rfl (by decide) 1 ⟨_, hRun⟩
  refine ⟨s, hRun, ?_, ?_, hAlive, hNonneg, hSold⟩
  · exact Machine.read_of_run hRun (f := fun s => s.shared.log) (by decide +kernel)
  · exact Machine.read_of_run hRun (f := fun s => s.point true) (by decide +kernel)

end Sale

end OCNote.Ticket
