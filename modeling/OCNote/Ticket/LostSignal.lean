import OCNote.Ticket.SaleTicketSafe

/-! # The break that keeps the semaphore

The sold-out branch of `saleTicketSafe` leaves the loop between the wait and the
signal. Whatever the interleaving, the sale ends with one window gone and every
other window at its wait. -/

namespace OCNote.Ticket
open OCNote.Support
set_option autoImplicit false

universe u

variable {ι : Type u} [DecidableEq ι]

theorem saleTicketSafe_eq_none_iff (s : State ι) (i : ι) :
    saleTicketSafe s i = none ↔
      (s.point i = .wait ∧ s.semaphoreLock = 0) ∨ s.point i = .left := by
  cases hp : s.point i <;> simp [saleTicketSafe, hp]

/-- Every sale that cannot go on has lost the semaphore with the window that left. -/
theorem stuck_shape [Nonempty ι] (N : Nat) {s : State ι} (h : (sale ι N).Reachable s)
    (hStuck : (sale ι N).Stuck s) :
    s.semaphoreLock = 0 ∧ ∃ i, s.point i = .left ∧ ∀ j, j ≠ i → s.point j = .wait := by
  have hInv := sale_invariant N h
  have hEach : ∀ i, (s.point i = .wait ∧ s.semaphoreLock = 0) ∨ s.point i = .left :=
    fun i => (saleTicketSafe_eq_none_iff s i).mp (hStuck i)
  have hZero : s.semaphoreLock = 0 := by
    obtain ⟨i⟩ := ‹Nonempty ι›
    obtain ⟨_, hZero⟩ | hLeft := hEach i
    · exact hZero
    · exact hInv.lock.value_eq_zero (i := i) (by rw [hLeft]; simp [Point.Inside])
  refine ⟨hZero, ?_⟩
  obtain ⟨hOne, _⟩ | ⟨_, i, hInside, hOnly⟩ := hInv.lock
  · omega
  · refine ⟨i, ?_, fun j hji => ?_⟩
    · obtain ⟨hWait, _⟩ | hLeft := hEach i
      · exact absurd hWait hInside
      · exact hLeft
    · by_contra hj
      exact hji (hOnly j hj)

structure Open (n : Nat) (s : State ι) : Prop where
  free : s.semaphoreLock = 1
  count : s.ticketSurplusCount = n
  waits : ∀ i, s.point i = .wait

theorem Open.round {n : Nat} {s : State ι} (h : Open (n + 1) s) (N : Int) (i : ι) :
    ∃ s', (sale ι N).runFrom s (List.replicate 7 i) = some s' ∧ Open n s' := by
  have hCount : 0 < s.ticketSurplusCount := by rw [h.count]; omega
  simp only [List.replicate, Machine.runFrom, sale, saleTicketSafe, State.goto, h.waits, h.free,
    hCount, Option.bind_some, Function.update_self, Function.update_idem, if_true, Nat.one_ne_zero,
    if_false, gt_iff_lt, Option.some.injEq, exists_eq_left']
  refine ⟨rfl, ?_, fun j => ?_⟩
  · have hLeft := h.count
    change s.ticketSurplusCount - 1 = n
    omega
  · obtain rfl | hji := eq_or_ne j i
    · simp
    · simp [Function.update_of_ne hji, h.waits]

theorem Open.soldOut {s : State ι} (h : Open 0 s) (N : Int) (i : ι) :
    ∃ s', (sale ι N).runFrom s (List.replicate 4 i) = some s' ∧ s'.semaphoreLock = 0 ∧
      s'.point i = .left ∧ ∀ j, j ≠ i → s'.point j = .wait := by
  have hCount : ¬ 0 < s.ticketSurplusCount := by rw [h.count]; simp
  simp only [List.replicate, Machine.runFrom, sale, saleTicketSafe, State.goto, h.waits, h.free,
    hCount, Option.bind_some, Function.update_self, Function.update_idem, Nat.one_ne_zero,
    if_false, gt_iff_lt, Option.some.injEq, exists_eq_left', true_and]
  intro j hji
  rw [Function.update_of_ne hji, h.waits]

omit [DecidableEq ι] in
theorem Open.start (N : Nat) : Open N (initTicketStatus ι N) := ⟨rfl, rfl, fun _ => rfl⟩

theorem Open.sell_out (N : Int) (i : ι) {n : Nat} {s : State ι} (h : Open n s)
    (hReach : (sale ι N).Reachable s) :
    ∃ s', (sale ι N).Reachable s' ∧ s'.semaphoreLock = 0 ∧ s'.point i = .left ∧
      ∀ j, j ≠ i → s'.point j = .wait := by
  induction n generalizing s with
  | zero =>
    obtain ⟨s', hRun, hEnd⟩ := h.soldOut N i
    exact ⟨s', hReach.runFrom hRun, hEnd⟩
  | succ n ih =>
    obtain ⟨s', hRun, hOpen⟩ := h.round N i
    exact ih hOpen (hReach.runFrom hRun)

/-- The sale can end, for every number of tickets, with all but one window stranded. -/
theorem exists_stuck (N : Nat) (i : ι) :
    ∃ s, (sale ι N).Reachable s ∧ (sale ι N).Stuck s ∧ s.semaphoreLock = 0 ∧ s.point i = .left ∧
      ∀ j, j ≠ i → s.point j = .wait := by
  obtain ⟨s, hReach, hZero, hLeft, hWait⟩ :=
    (Open.start N).sell_out N i (Machine.reachable_start _)
  refine ⟨s, hReach, fun j => (saleTicketSafe_eq_none_iff s j).mpr ?_, hZero, hLeft, hWait⟩
  by_cases hji : j = i
  · exact .inr (hji ▸ hLeft)
  · exact .inl ⟨hWait j hji, hZero⟩

def EveryWindowFinishes (ι : Type u) [DecidableEq ι] (N : Nat) : Prop :=
  (∀ s, (sale ι N).Reachable s → (sale ι N).Stuck s → ∀ i, s.point i ≠ .wait) ∧
  ∀ s, (sale ι N).Reachable s → (sale ι N).Stuck s →
    (∀ i, s.point i = .left) ∧ s.semaphoreLock = 1

/-- With one ticket and two windows the second window waits for ever. -/
theorem two_windows_one_ticket_strand : ¬ EveryWindowFinishes (Fin 2) 1 := by
  intro ⟨hNoWait, _⟩
  let s := (sale (Fin 2) 1).after [0, 0, 0, 0, 0, 0, 0, 0, 0, 0, 0] rfl
  have hStuck : (sale (Fin 2) 1).Stuck s := by
    intro i
    match i with
    | 0 => rfl
    | 1 => rfl
  exact hNoWait s (Machine.reachable_after _ _ _) hStuck 1 rfl

/-- No number of tickets and no positive number of windows lets every window finish. -/
theorem saleTicketSafe_never_finishes (N k : Nat) : ¬ EveryWindowFinishes (Fin (k + 1)) N := by
  intro ⟨_, hFinish⟩
  obtain ⟨s, hReach, hStuck, hZero, _⟩ := exists_stuck N (0 : Fin (k + 1))
  have hOne := (hFinish s hReach hStuck).2
  omega

end OCNote.Ticket
