import OCNote.Requests.MultipleRequest

/-! # The group that the requests share

The main thread enters the group once for each request before it hands over the notification, and for
each request the group is left once. -/

namespace OCNote.Requests
open OCNote.Support OCNote.Dispatch OCNote.Dispatch.Group
set_option autoImplicit false

variable {k line : Nat} {left : Fin k → Bool}

abbrev Shared (k : Nat) := Group.State (Option (Fin k))

theorem tally_le_of_lt {m : Nat} (h : ∀ j, left j = true → j.val < m) : tally Bool.toNat left ≤ m := by
  have hWeight : ∀ j : Fin k, (left j).toNat = if left j = true then 1 else 0 := by
    intro j
    cases left j <;> rfl
  calc tally Bool.toNat left = (Finset.univ.filter fun j => left j = true).card := by
        rw [Finset.card_filter]
        exact Finset.sum_congr rfl fun j _ => hWeight j
    _ ≤ (Finset.range m).card := by
        apply Finset.card_le_card_of_injOn Fin.val
        · intro j hj
          rw [Finset.coe_range]
          exact h j (Finset.mem_filter.mp hj).2
        · exact Fin.val_injective.injOn
    _ = m := Finset.card_range m

theorem tally_le_all (left : Fin k → Bool) : tally Bool.toNat left ≤ k := tally_le_of_lt fun j _ => j.isLt

theorem all_of_tally (h : k ≤ tally Bool.toNat left) (j : Fin k) : left j = true := by
  by_contra hNot
  have hOut : (left j).toNat = 0 := by
    rw [Bool.eq_false_of_not_eq_true hNot]
    rfl
  have hLess : tally Bool.toNat left < Fintype.card (Fin k) := tally_lt_card (fun b => Nat.lt_succ_iff.mp b.toNat_lt) hOut
  rw [Fintype.card_fin] at hLess
  omega

/-- The group after so many statements of the main thread, and after those requests. -/
structure Counted (line : Nat) (left : Fin k → Bool) (g : Shared k) (h : History (Option (Fin k))) (t : Timing) : Prop where
  safe : Safe 0 g h
  timely : Timely g h t
  calm : t.overtaken = false
  line_le : line ≤ 2 * k + 1
  entered : h.entered + (if g.point none = .enter then 1 else 0) = min ((line + 1) / 2) k
  entering : ∀ i, g.point i = .enter → i = none ∧ line % 2 = 1 ∧ line < 2 * k
  leaving : h.left + tally Point.leaves g.point = tally Bool.toNat left
  gone : ∀ j, left j = true → j.val < line / 2
  quiet : line ≤ 2 * k → Quiet g
  waits : ∀ i, (g.point i).waits = false
  allocated : g.allocated = if line ≤ 2 * k then 0 else 1

/-- Since the notification was appended the group has been empty only after all have left it. -/
def Emptied (line : Nat) (left : Fin k → Bool) (g : Shared k) (t : Timing) : Prop :=
  2 * k < line → t.emptySince 0 = true → (∀ i, g.point i ≠ .pushTail 0) → ∀ j, left j = true

section Counts

variable {g g' : Shared k} {h : History (Option (Fin k))} {t : Timing} {i : Option (Fin k)}

theorem Counted.tally_le_entered (hCounted : Counted line left g h t) : tally Bool.toNat left ≤ h.entered := by
  have hEntered := hCounted.entered
  have hLine := hCounted.line_le
  have hGone := tally_le_of_lt hCounted.gone
  have hAll := tally_le_all left
  split at hEntered
  · rename_i hPoint
    obtain ⟨_, hOdd, hLess⟩ := hCounted.entering none hPoint
    omega
  · omega

/-- Once the main thread has entered the group for each request, it is empty only after all have left it. -/
theorem Counted.all_left (hCounted : Counted line left g h t) (hLine : 2 * k < line) (hEmpty : g.count = 0) (j : Fin k) :
    left j = true := by
  have hEntered := hCounted.entered
  have hBalanced := hCounted.safe.balanced
  have hLeaving := hCounted.leaving
  have hNot : g.point none ≠ .enter := by
    intro hPoint
    have hLess := (hCounted.entering none hPoint).2.2
    omega
  rw [if_neg hNot] at hEntered
  refine all_of_tally ?_ j
  omega

theorem Counted.alive (hCounted : Counted line left g h t) (hK : k < 2 ^ 30) (hBefore : g.crashed = none) (hMoves : Moves g i g') :
    g'.crashed = none := by
  have hBalanced := hCounted.safe.balanced
  cases hMoves with
  | overflows word hPoint hFull =>
    obtain ⟨rfl, _⟩ := hCounted.entering i hPoint
    have hEntered := hCounted.entered
    rw [if_pos hPoint] at hEntered
    omega
  | unbalanced word hPoint hEmpty =>
    have hLeaving := hCounted.leaving
    have hWeight := weight_le_tally Point.leaves g.point i
    have hOne : (g.point i).leaves = 1 := hPoint ▸ rfl
    have hEntered := hCounted.tally_le_entered
    omega
  | begins call => cases call <;> exact hBefore
  | _ => exact hBefore

/-- No enter overtakes a thread that is about to take the notifications. -/
theorem Counted.calm_after (hCounted : Counted line left g h t) (i : Option (Fin k)) (g' : Shared k) :
    (t.after g i g').overtaken = false := by
  refine Bool.or_eq_false_iff.mpr ⟨hCounted.calm, decide_eq_false ?_⟩
  rintro ⟨hPoint, _, j, hFiring⟩
  have hEarly := (hCounted.quiet (Nat.le_of_lt (hCounted.entering i hPoint).2.2)).early j
  rw [Point.firing_of_early hEarly] at hFiring
  cases hFiring

theorem entered_after (h : History (Option (Fin k))) (g : Shared k) (i : Option (Fin k)) :
    (h.after g i).entered = h.entered + if g.point i = .enter then 1 else 0 := by
  unfold History.after
  cases hPoint : g.point i <;> rfl

theorem left_after (h : History (Option (Fin k))) (g : Shared k) (i : Option (Fin k)) :
    (h.after g i).left = h.left + (g.point i).leaves := by
  unfold History.after
  cases hPoint : g.point i <;> rfl

theorem Counted.moves (hCounted : Counted line left g h t) (hK : k < 2 ^ 30) (hBefore : g.crashed = none) (hMoves : Moves g i g')
    (hBusy : (g.point i).idle = false) : Counted line left g' (h.after g i) (t.after g i g') := by
  have hAlive := hCounted.alive hK hBefore hMoves
  have hInside := inside_of_moves hMoves hAlive hBusy (hCounted.waits i)
  have hOthers : ∀ {j}, j ≠ i → g'.point j = g.point j := fun hji => point_of_moves hMoves hCounted.waits hji
  have hNot : g'.point i ≠ .enter := by
    intro hPoint
    rw [hPoint] at hInside
    cases hInside
  refine ⟨safe_of_moves hCounted.safe hMoves hAlive, ?_, hCounted.calm_after i g', hCounted.line_le, ?_, fun j hPoint => ?_, ?_,
    hCounted.gone, fun hLine => quiet_of_moves (hCounted.quiet hLine) hMoves hAlive hBusy, fun j => ?_,
    (allocated_of_moves hMoves hBusy).trans hCounted.allocated⟩
  · exact timely_of_moves hCounted.safe.listed (fun _ => hCounted.timely) hMoves hAlive (hCounted.calm_after i g')
  · rw [entered_after, ← hCounted.entered]
    obtain rfl | hi := eq_or_ne none i
    · rw [if_neg hNot]
      rfl
    · have hMain : g.point i ≠ .enter := fun hPoint => hi (hCounted.entering i hPoint).1.symm
      rw [if_neg hMain, hOthers hi]
      rfl
  · have hji : j ≠ i := by
      rintro rfl
      exact hNot hPoint
    rw [hOthers hji] at hPoint
    exact hCounted.entering j hPoint
  · have hTally := tally_update Point.leaves g.point i (g'.point i)
    rw [← point_update_of_moves hMoves hCounted.waits, Point.leaves_of_inside hInside] at hTally
    have hLeaving := hCounted.leaving
    rw [left_after]
    omega
  · obtain rfl | hji := eq_or_ne j i
    · exact Point.waits_of_inside hInside
    · rw [hOthers hji]
      exact hCounted.waits j

theorem Emptied.moves (hEmptied : Emptied line left g t) (hCounted' : Counted line left g' h (t.after g i g'))
    (hOthers : ∀ j, j ≠ i → g'.point j = g.point j) : Emptied line left g' (t.after g i g') := by
  intro hLine hSince hPushed
  change (if g.point i = .pushTail 0 then g'.isEmpty else t.emptySince 0 || g'.isEmpty) = true at hSince
  by_cases hEmpty : g'.isEmpty = true
  · exact hCounted'.all_left hLine (beq_iff_eq.mp hEmpty)
  · rw [Bool.eq_false_of_not_eq_true hEmpty, Bool.or_false] at hSince
    split at hSince
    · cases hSince
    · rename_i hNot
      refine hEmptied hLine hSince fun j hPoint => ?_
      obtain rfl | hji := eq_or_ne j i
      · exact hNot hPoint
      · exact hPushed j ((hOthers j hji).trans hPoint)

end Counts

section Calls

variable {g : Shared k} {h : History (Option (Fin k))} {t : Timing} {i : Option (Fin k)}

theorem begin_call_point (g : Shared k) (i : Option (Fin k)) (call : Call) :
    (begin_call g i call).point = Function.update g.point i ((begin_call g i call).point i) := by
  cases call <;> exact congrArg (Function.update g.point i) (goto_point ..).symm

theorem Counted.begins (hCounted : Counted line left g h t) (hBefore : g.crashed = none) (hIdle : (g.point i).idle = true)
    (call : Call) : Safe 0 (begin_call g i call) h ∧ Timely (begin_call g i call) h (t.after g i (begin_call g i call)) := by
  have hMoves : Moves g i (begin_call g i call) := .begins call hIdle
  have hAlive : (begin_call g i call).crashed = none := by cases call <;> exact hBefore
  have hSame := History.after_of_idle (h := h) hIdle
  have hSafe := safe_of_moves hCounted.safe hMoves hAlive
  have hTimely := timely_of_moves hCounted.safe.listed (fun _ => hCounted.timely) hMoves hAlive (hCounted.calm_after i _)
  rw [hSame] at hSafe hTimely
  exact ⟨hSafe, hTimely⟩

theorem not_enter_of_idle (hIdle : (g.point i).idle = true) : g.point i ≠ .enter := by
  intro hPoint
  rw [hPoint] at hIdle
  cases hIdle

theorem tally_leaves_begin (hIdle : (g.point i).idle = true) {call : Call} (hCall : call ≠ .leave) :
    tally Point.leaves (begin_call g i call).point = tally Point.leaves g.point := by
  have hTally := tally_update Point.leaves g.point i ((begin_call g i call).point i)
  have hNone : ((begin_call g i call).point i).leaves = 0 := by
    cases call with
    | leave => exact absurd rfl hCall
    | _ => exact congrArg Point.leaves (goto_point ..)
  rw [← begin_call_point, hNone, Point.leaves_of_idle hIdle] at hTally
  exact hTally

theorem Counted.enters (hCounted : Counted line left g h t) (hBefore : g.crashed = none) (hIdle : (g.point none).idle = true)
    (hEven : line % 2 = 0) (hMore : line / 2 < k) :
    Counted (line + 1) left (begin_call g none .enter) h (t.after g none (begin_call g none .enter)) := by
  obtain ⟨hSafe, hTimely⟩ := hCounted.begins hBefore hIdle .enter
  have hEntered := hCounted.entered
  have hAt : (begin_call g none .enter).point none = .enter := goto_point ..
  rw [if_neg (not_enter_of_idle hIdle)] at hEntered
  refine ⟨hSafe, hTimely, hCounted.calm_after none _, by omega, ?_, fun i hPoint => ?_,
    (tally_leaves_begin hIdle (Call.noConfusion : Call.enter ≠ .leave)).symm ▸ hCounted.leaving,
    fun j hj => Nat.lt_of_lt_of_le (hCounted.gone j hj) (Nat.div_le_div_right (Nat.le_succ line)), fun _ => ?_, fun i => ?_, ?_⟩
  · rw [if_pos hAt]
    omega
  · obtain rfl | hi := eq_or_ne i none
    · exact ⟨rfl, by omega, by omega⟩
    · exact absurd (hCounted.entering i ((goto_point_of_ne hi ..).symm.trans hPoint)).1 hi
  · exact (hCounted.quiet (by omega)).goto rfl rfl rfl rfl
  · obtain rfl | hi := eq_or_ne i none
    · rw [hAt]
      rfl
    · exact (congrArg Point.waits (goto_point_of_ne hi ..)).trans (hCounted.waits i)
  · change g.allocated = _
    rw [hCounted.allocated, if_pos (by omega), if_pos (by omega)]

theorem Counted.asyncs (hCounted : Counted line left g h t) (hIdle : (g.point none).idle = true)
    (hOdd : line % 2 = 1) (hMore : line / 2 < k) : Counted (line + 1) left g h t := by
  have hEntered := hCounted.entered
  rw [if_neg (not_enter_of_idle hIdle)] at hEntered
  refine ⟨hCounted.safe, hCounted.timely, hCounted.calm, by omega, ?_, fun i hPoint => ?_, hCounted.leaving,
    fun j hj => Nat.lt_of_lt_of_le (hCounted.gone j hj) (Nat.div_le_div_right (Nat.le_succ line)),
    fun _ => hCounted.quiet (by omega), hCounted.waits, ?_⟩
  · rw [if_neg (not_enter_of_idle hIdle)]
    omega
  · obtain ⟨rfl, _⟩ := hCounted.entering i hPoint
    exact absurd hPoint (not_enter_of_idle hIdle)
  · rw [hCounted.allocated, if_pos (by omega), if_pos (by omega)]

theorem Counted.notifies (hCounted : Counted (2 * k) left g h t) (hBefore : g.crashed = none) (hIdle : (g.point none).idle = true) :
    Counted (2 * k + 1) left (begin_call g none .notify) h (t.after g none (begin_call g none .notify)) ∧
      Emptied (2 * k + 1) left (begin_call g none .notify) (t.after g none (begin_call g none .notify)) := by
  obtain ⟨hSafe, hTimely⟩ := hCounted.begins hBefore hIdle .notify
  have hEntered := hCounted.entered
  have hAllocated := hCounted.allocated
  rw [if_pos (Nat.le_refl _)] at hAllocated
  have hAt : (begin_call g none .notify).point none = .pushTail 0 := by
    rw [← hAllocated]
    exact goto_point ..
  rw [if_neg (not_enter_of_idle hIdle)] at hEntered
  refine ⟨⟨hSafe, hTimely, hCounted.calm_after none _, Nat.le_refl _, ?_, fun i hPoint => ?_,
    (tally_leaves_begin hIdle (Call.noConfusion : Call.notify ≠ .leave)).symm ▸ hCounted.leaving,
    fun j hj => Nat.lt_of_lt_of_le (hCounted.gone j hj) (Nat.div_le_div_right (Nat.le_succ _)), fun hLess => absurd hLess (by omega),
    fun i => ?_, ?_⟩, fun _ _ hPushed => absurd hAt (hPushed none)⟩
  · rw [hAt, if_neg Point.noConfusion]
    omega
  · obtain rfl | hi := eq_or_ne i none
    · rw [hAt] at hPoint
      cases hPoint
    · exact absurd (hCounted.entering i ((goto_point_of_ne hi ..).symm.trans hPoint)).1 hi
  · obtain rfl | hi := eq_or_ne i none
    · rw [hAt]
      rfl
    · exact (congrArg Point.waits (goto_point_of_ne hi ..)).trans (hCounted.waits i)
  · rw [if_neg (by omega)]
    exact congrArg (· + 1) hAllocated

theorem Counted.leaves (hCounted : Counted line left g h t) (hBefore : g.crashed = none) {j : Fin k}
    (hIdle : (g.point (some j)).idle = true) (hLeft : left j = false) (hStarted : j.val < line / 2) :
    Counted line (Function.update left j true) (begin_call g (some j) .leave) h
      (t.after g (some j) (begin_call g (some j) .leave)) := by
  obtain ⟨hSafe, hTimely⟩ := hCounted.begins hBefore hIdle .leave
  have hAt : (begin_call g (some j) .leave).point (some j) = .leave := goto_point ..
  have hMain : (begin_call g (some j) .leave).point none = g.point none := goto_point_of_ne (Option.some_ne_none j).symm ..
  refine ⟨hSafe, hTimely, hCounted.calm_after (some j) _, hCounted.line_le, ?_, fun i hPoint => ?_, ?_, fun j' hj' => ?_,
    fun hLine => (hCounted.quiet hLine).goto rfl rfl rfl rfl, fun i => ?_, hCounted.allocated⟩
  · rw [hMain]
    exact hCounted.entered
  · obtain rfl | hi := eq_or_ne i (some j)
    · rw [hAt] at hPoint
      cases hPoint
    · exact hCounted.entering i ((goto_point_of_ne hi ..).symm.trans hPoint)
  · have hPoints := tally_update Point.leaves g.point (some j) .leave
    have hRequests := tally_update Bool.toNat left j true
    rw [Point.leaves_of_idle hIdle] at hPoints
    rw [hLeft] at hRequests
    have hLeaving := hCounted.leaving
    change h.left + tally Point.leaves (Function.update g.point (some j) .leave) = _
    simp only [Point.leaves, Bool.toNat_true, Bool.toNat_false] at hPoints hRequests
    omega
  · obtain rfl | hji := eq_or_ne j' j
    · exact hStarted
    · rw [Function.update_of_ne hji] at hj'
      exact hCounted.gone j' hj'
  · obtain rfl | hi := eq_or_ne i (some j)
    · rw [hAt]
      rfl
    · exact (congrArg Point.waits (goto_point_of_ne hi ..)).trans (hCounted.waits i)

theorem Emptied.leaves (hEmptied : Emptied line left g t) {j : Fin k} {g' : Shared k}
    (hCounted' : Counted line (Function.update left j true) g' h (t.after g i g'))
    (hOthers : ∀ j, j ≠ i → g'.point j = g.point j) :
    Emptied line (Function.update left j true) g' (t.after g i g') := by
  refine Emptied.moves (fun hLine hSince hPushed j' => ?_) hCounted' hOthers
  obtain rfl | hji := eq_or_ne j' j
  · rw [Function.update_self]
  · rw [Function.update_of_ne hji]
    exact hEmptied hLine hSince hPushed j'

end Calls

end OCNote.Requests
