import OCNote.Dispatch.OnceSafety
import OCNote.Support.Tally

/-! # Every call of dispatch_once returns

The token passes through few values, and between two changes of it every thread only comes
closer to its return or to its sleep. -/

namespace OCNote.Dispatch.Once
open OCNote.Support
set_option autoImplicit false

universe u v

/-- How often the token can still change. -/
def wordRank (word : BitVec 64) : Nat :=
  if word = DLOCK_ONCE_DONE then 0
  else if DISPATCH_ONCE_IS_GEN word then 1
  else if word = DLOCK_ONCE_UNLOCKED then 4
  else if word ||| DLOCK_WAITERS_BIT.setWidth 64 = word then 2
  else 3

theorem wordRank_done : wordRank DLOCK_ONCE_DONE = 0 := if_pos rfl

theorem wordRank_unlocked : wordRank DLOCK_ONCE_UNLOCKED = 4 := by decide

theorem wordRank_of_onceDone {word : BitVec 64} (h : OnceDone word) : wordRank word ≤ 1 := by
  unfold wordRank
  split
  · exact Nat.zero_le 1
  · rw [if_pos (h.resolve_left ‹_›)]

theorem wordRank_heldWord {tid : BitVec 32} (hOwner : lock_value_from_tid tid ≠ 0#32) (waiters : Bool) :
    wordRank (heldWord tid waiters) = if waiters then 2 else 3 := by
  have hNe : heldWord tid true ≠ heldWord tid false := fun h => by cases (heldWord_inj h).2
  rw [wordRank, if_neg heldWord_ne_done, not_isGen_heldWord, if_neg Bool.false_ne_true,
    if_neg (heldWord_ne_unlocked hOwner), heldWord_or]
  cases waiters with
  | true => rw [if_pos rfl, if_pos rfl]
  | false => rw [if_neg hNe, if_neg Bool.false_ne_true]

namespace Point

def wakes : Point → Nat
  | wake => 1
  | _ => 0

/-- How many steps a thread takes at most while the token stays as it is. -/
def rank (word : BitVec 64) : Point → Nat
  | outside | returned | asleep => 0
  | broadcast | wake => 1
  | callout => 2
  | storeDone => 3
  | readGeneration _ => 4
  | waitCmpxchg old_v => if word = old_v then 6 else 7
  | waitLoad => 8
  | unfairLockWait new_v => if word.setWidth 32 = new_v.setWidth 32 then 5 else 9
  | tryenter => 9
  | load => 10

theorem rank_le (word : BitVec 64) (p : Point) : p.rank word ≤ 10 := by
  cases p <;> simp only [rank] <;> first | decide | split <;> decide

theorem wakes_le (p : Point) : p.wakes ≤ 1 := by
  unfold wakes
  split <;> decide

theorem wakes_of_woken (p : Point) : (if p = asleep then waitLoad else p).wakes = p.wakes := by
  split
  · rename_i hAsleep
    rw [hAsleep]
    rfl
  · rfl

def idle : Point → Bool
  | outside | returned => true
  | _ => false

end Point

variable {ι : Type u} {γ : Type v} [DecidableEq ι] {E : Setting ι γ} {initial : γ} {s s' : State ι γ} {i : ι}

theorem finish_point (s : State ι γ) (i : ι) :
    (s.finish i).point = Function.update s.point i .returned ∨ (s.finish i).point = Function.update s.point i .callout := by
  unfold State.finish
  split
  · exact .inr rfl
  · exact .inl rfl

theorem finish_dgo_once (s : State ι γ) (i : ι) : (s.finish i).dgo_once = s.dgo_once := by
  unfold State.finish
  split <;> rfl

/-- A step by which the token stays as it is and the thread comes closer to its end. -/
structure Nears (s : State ι γ) (i : ι) (s' : State ι γ) : Prop where
  word : s'.dgo_once = s.dgo_once
  point : ∃ p, s'.point = Function.update s.point i p ∧ p.rank s.dgo_once < (s.point i).rank s.dgo_once ∧
    p.wakes = (s.point i).wakes

variable [Fintype ι]

def stage (s : State ι γ) : Nat := 2 * wordRank s.dgo_once + tally Point.wakes s.point

def variant (s : State ι γ) : Nat :=
  stage s * (10 * Fintype.card ι + 1) + tally (Point.rank s.dgo_once) s.point

omit [DecidableEq ι] in
theorem tally_rank_le (word : BitVec 64) (point : ι → Point) : tally (Point.rank word) point ≤ 10 * Fintype.card ι := by
  calc tally (Point.rank word) point ≤ ∑ _i : ι, 10 := Finset.sum_le_sum fun i _ => (point i).rank_le word
    _ = 10 * Fintype.card ι := by simp [mul_comm]

omit [DecidableEq ι] in
theorem variant_of_stage (h : stage s' < stage s) : variant s' < variant s := by
  have hRank := tally_rank_le s'.dgo_once s'.point
  have hMul := Nat.mul_le_mul_right (10 * Fintype.card ι + 1) (Nat.succ_le_of_lt h)
  rw [Nat.succ_mul] at hMul
  unfold variant
  omega

theorem Nears.variant_lt (h : Nears s i s') : variant s' < variant s := by
  obtain ⟨p, hPoint, hRank, hWakes⟩ := h.point
  have hTally := tally_update (Point.rank s.dgo_once) s.point i p
  have hWaking := tally_update Point.wakes s.point i p
  unfold variant stage
  rw [h.word, hPoint]
  have hSame : tally Point.wakes (Function.update s.point i p) = tally Point.wakes s.point := by omega
  rw [hSame]
  omega

section Steps

omit [Fintype ι]

theorem nears_goto {p : Point} (hRank : p.rank s.dgo_once < (s.point i).rank s.dgo_once)
    (hWakes : p.wakes = (s.point i).wakes) : Nears s i (s.goto i p) := ⟨rfl, p, rfl, hRank, hWakes⟩

theorem nears_finish (hRank : 2 < (s.point i).rank s.dgo_once) (hWakes : (s.point i).wakes = 0) :
    Nears s i (s.finish i) where
  word := finish_dgo_once s i
  point := by
    obtain hPoint | hPoint := finish_point s i
    · exact ⟨.returned, hPoint, Nat.zero_lt_of_lt hRank, hWakes.symm⟩
    · exact ⟨.callout, hPoint, hRank, hWakes.symm⟩

theorem waits_of_alive {old_v new_v : BitVec 64} (hAlive : (sleep_unless_recursive E s i old_v new_v).crashed = none) :
    sleep_unless_recursive E s i old_v new_v = s.goto i (.unfairLockWait new_v) := by
  unfold sleep_unless_recursive at hAlive ⊢
  split at hAlive
  · cases hAlive
  · rw [if_neg ‹_›]

theorem nears_once_wait_body (hRank : 6 < (s.point i).rank s.dgo_once) (hWakes : (s.point i).wakes = 0)
    (hAlive : (once_wait_body E s i).crashed = none) : Nears s i (once_wait_body E s i) := by
  unfold once_wait_body at hAlive ⊢
  dsimp only at hAlive ⊢
  split
  · exact nears_finish (by omega) hWakes
  · rw [if_neg ‹_›] at hAlive
    split
    · exact nears_goto (Nat.lt_trans (by decide : 4 < 6) hRank) hWakes.symm
    · rw [if_neg ‹_›] at hAlive
      split
      · rw [if_pos ‹_›] at hAlive
        rw [waits_of_alive hAlive]
        refine nears_goto ?_ hWakes.symm
        rw [Point.rank, if_pos rfl]
        omega
      · refine nears_goto ?_ hWakes.symm
        rw [Point.rank, if_pos rfl]
        exact hRank

theorem nears_dispatch_once_f (hPoint : s.point i = .load) : Nears s i (dispatch_once_f E s i) := by
  have hRank : (s.point i).rank s.dgo_once = 10 := by rw [hPoint]; rfl
  have hWakes : (s.point i).wakes = 0 := by rw [hPoint]; rfl
  unfold dispatch_once_f
  split
  · exact nears_finish (by omega) hWakes
  · split
    · exact nears_goto (hRank ▸ (by decide : 4 < 10)) hWakes.symm
    · exact nears_goto (hRank ▸ (by decide : 9 < 10)) hWakes.symm

theorem nears_once_mark_done_if_quiesced {gen : BitVec 64} (hPoint : s.point i = .readGeneration gen) :
    Nears s i (once_mark_done_if_quiesced s i gen) := by
  have hRank : (s.point i).rank s.dgo_once = 4 := by rw [hPoint]; rfl
  have hWakes : (s.point i).wakes = 0 := by rw [hPoint]; rfl
  unfold once_mark_done_if_quiesced
  split
  · exact nears_goto (hRank ▸ (by decide : 3 < 4)) hWakes.symm
  · exact nears_finish (by omega) hWakes

theorem nears_unfair_lock_wait {new_v : BitVec 64} (hPoint : s.point i = .unfairLockWait new_v) :
    Nears s i (unfair_lock_wait s i new_v) := by
  have hWakes : (s.point i).wakes = 0 := by rw [hPoint]; rfl
  unfold unfair_lock_wait
  split
  · refine nears_goto ?_ hWakes.symm
    change 0 < _
    rw [hPoint, Point.rank, if_pos ‹_›]
    decide
  · refine nears_goto ?_ hWakes.symm
    change 8 < _
    rw [hPoint, Point.rank, if_neg ‹_›]
    decide

end Steps

section Stages

omit [DecidableEq ι] in
theorem stage_of_wordRank (hWord : wordRank s'.dgo_once < wordRank s.dgo_once)
    (hWakes : tally Point.wakes s'.point ≤ tally Point.wakes s.point + 1) : stage s' < stage s := by
  unfold stage
  omega

theorem tally_wakes_update (s : State ι γ) (i : ι) (p : Point) :
    tally Point.wakes (Function.update s.point i p) ≤ tally Point.wakes s.point + 1 := by
  have hTally := tally_update Point.wakes s.point i p
  have hOne : p.wakes ≤ 1 := p.wakes_le
  omega

theorem tally_wakes_finish (s : State ι γ) (i : ι) :
    tally Point.wakes (s.finish i).point ≤ tally Point.wakes s.point + 1 := by
  obtain hPoint | hPoint := finish_point s i
  · rw [hPoint]
    exact tally_wakes_update s i _
  · rw [hPoint]
    exact tally_wakes_update s i _

omit [DecidableEq ι] [Fintype ι] in
theorem wordRank_broadcast (E : Setting ι γ) (counter : BitVec 64) :
    wordRank (if E.quiescent then DISPATCH_ONCE_MAKE_GEN counter else DLOCK_ONCE_DONE) ≤ 1 := by
  apply wordRank_of_onceDone
  split
  · exact .inr (isGen_makeGen counter)
  · exact .inl rfl

theorem stage_once_gate_broadcast (hWord : 1 < wordRank s.dgo_once)
    (hAlive : (once_gate_broadcast E s i).crashed = none) : stage (once_gate_broadcast E s i) < stage s := by
  have hRank := wordRank_broadcast E s.counter
  unfold once_gate_broadcast at hAlive ⊢
  dsimp only at hAlive ⊢
  split
  · apply stage_of_wordRank
    · rw [finish_dgo_once]
      exact Nat.lt_of_le_of_lt hRank hWord
    · exact tally_wakes_finish _ i
  · rw [if_neg ‹_›] at hAlive
    split
    · apply stage_of_wordRank
      · exact Nat.lt_of_le_of_lt hRank hWord
      · exact tally_wakes_update s i .wake
    · rw [if_neg ‹_›] at hAlive
      cases hAlive

theorem stage_gate_broadcast_slow (hPoint : s.point i = .wake) : stage (gate_broadcast_slow s i) < stage s := by
  set awake : ι → Point := fun j => if s.point j = .asleep then .waitLoad else s.point j with hAwake
  have hTally : tally Point.wakes awake = tally Point.wakes s.point :=
    Finset.sum_congr rfl fun j _ => Point.wakes_of_woken (s.point j)
  have hOne : (awake i).wakes = 1 := by
    rw [hAwake]
    dsimp only
    rw [hPoint]
    rfl
  have hFinish : ∀ p : Point, p.wakes = 0 → tally Point.wakes (Function.update awake i p) < tally Point.wakes s.point := by
    intro p hNone
    have hUpdate := tally_update Point.wakes awake i p
    omega
  unfold gate_broadcast_slow stage
  rw [finish_dgo_once]
  obtain hReturn | hReturn := finish_point { s with point := awake } i
  · rw [hReturn]
    exact Nat.add_lt_add_left (hFinish .returned rfl) _
  · rw [hReturn]
    exact Nat.add_lt_add_left (hFinish .callout rfl) _

theorem one_lt_wordRank_heldWord {tid : BitVec 32} (hOwner : lock_value_from_tid tid ≠ 0#32) (waiters : Bool) :
    1 < wordRank (heldWord tid waiters) := by
  rw [wordRank_heldWord hOwner]
  cases waiters <;> decide

theorem stage_enters (hTids : Tids E.tid) (hWord : s.dgo_once = DLOCK_ONCE_UNLOCKED) :
    stage ({ s with dgo_once := (E.self i).setWidth 64 }.goto i .callout) < stage s := by
  apply stage_of_wordRank
  · change wordRank ((lock_value_from_tid (E.tid i)).setWidth 64) < _
    rw [hWord, wordRank_unlocked, heldWord_false, wordRank_heldWord (hTids.owner i)]
    decide
  · exact tally_wakes_update s i .callout

end Stages

section Advance

omit [Fintype ι]

omit [DecidableEq ι] in
theorem Fits.held_of_broadcast (h : Fits E initial s) (hPoint : s.point i = .broadcast) :
    ∃ waiters, Held E initial i waiters s := by
  cases h with
  | unlocked h =>
    have hEarly := (h.threads i).2
    rw [hPoint] at hEarly
    cases hEarly
  | held o waiters h =>
    obtain rfl | hio := eq_or_ne i o
    · exact ⟨waiters, h⟩
    · have hOther := (h.others i hio).2
      rw [hPoint] at hOther
      cases hOther with
      | early hEarly => cases hEarly
  | done h =>
    have hLate := (h.threads i).2
    rw [hPoint] at hLate
    cases hLate with
    | early hEarly => cases hEarly

omit [DecidableEq ι] in
/-- A thread that is about to set the bit for waiters succeeds only while the token is held. -/
theorem Fits.held_of_cmpxchg (h : Fits E initial s) (hPoint : s.point i = .waitCmpxchg s.dgo_once) :
    ∃ o waiters, Held E initial o waiters s := by
  cases h with
  | unlocked h =>
    have hEarly := (h.threads i).2
    rw [hPoint] at hEarly
    cases hEarly
  | held o waiters h => exact ⟨o, waiters, h⟩
  | done h =>
    have hLate := (h.threads i).2
    have hOnce := h.onceDone
    rw [hPoint] at hLate
    generalize s.dgo_once = word at hLate hOnce
    cases hLate with
    | early hEarly => cases hEarly
    | waitCmpxchg j w => exact absurd hOnce not_onceDone_heldWord

omit [DecidableEq ι] in
theorem Fits.done_of_storeDone (h : Fits E initial s) (hPoint : s.point i = .storeDone) : Done E initial s := by
  cases h with
  | unlocked h =>
    have hEarly := (h.threads i).2
    rw [hPoint] at hEarly
    cases hEarly
  | held o waiters h =>
    obtain rfl | hio := eq_or_ne i o
    · have hOwner := h.owner
      rw [hPoint] at hOwner
      generalize s.nested i = nested at hOwner
      cases hOwner
    · have hOther := (h.others i hio).2
      rw [hPoint] at hOther
      cases hOther with
      | early hEarly => cases hEarly
  | done h => exact h

end Advance

theorem advances_store (h : Done E initial s) (hPoint : s.point i = .storeDone) :
    Nears s i ({ s with dgo_once := DLOCK_ONCE_DONE }.finish i) ∨
      stage ({ s with dgo_once := DLOCK_ONCE_DONE }.finish i) < stage s := by
  by_cases hWord : s.dgo_once = DLOCK_ONCE_DONE
  · rw [← hWord]
    exact .inl (nears_finish (hPoint ▸ (by decide : 2 < 3)) (hPoint ▸ rfl))
  · refine .inr (stage_of_wordRank ?_ (tally_wakes_finish _ i))
    rw [finish_dgo_once]
    change wordRank DLOCK_ONCE_DONE < _
    rw [wordRank_done, wordRank, if_neg hWord, if_pos (h.onceDone.resolve_left hWord)]
    exact Nat.one_pos

theorem advances_cmpxchg (hTids : Tids E.tid) (h : Fits E initial s) {old_v : BitVec 64}
    (hPoint : s.point i = .waitCmpxchg old_v) (hAlive : (once_wait_cmpxchg E s i old_v).crashed = none) :
    Nears s i (once_wait_cmpxchg E s i old_v) ∨ stage (once_wait_cmpxchg E s i old_v) < stage s := by
  unfold once_wait_cmpxchg at hAlive ⊢
  split
  · rename_i hSame
    rw [if_pos hSame] at hAlive
    rw [waits_of_alive hAlive]
    obtain ⟨o, waiters, hHeld⟩ := h.held_of_cmpxchg (hSame ▸ hPoint)
    have hOld : old_v = heldWord (E.tid o) waiters := hSame.symm.trans hHeld.word
    cases waiters with
    | true =>
      have hKept : old_v ||| DLOCK_WAITERS_BIT.setWidth 64 = old_v := by rw [hOld, heldWord_or]
      rw [hKept, ← hSame]
      refine .inl (nears_goto ?_ (hPoint ▸ rfl))
      rw [hPoint, Point.rank, Point.rank, if_pos rfl, if_pos hSame]
      decide
    | false =>
      refine .inr (stage_of_wordRank ?_ (tally_wakes_update s i _))
      change wordRank (old_v ||| DLOCK_WAITERS_BIT.setWidth 64) < wordRank s.dgo_once
      rw [hSame, hOld, heldWord_or, wordRank_heldWord (hTids.owner o), wordRank_heldWord (hTids.owner o)]
      decide
  · rename_i hOther
    rw [if_neg hOther] at hAlive
    refine .inl (nears_once_wait_body ?_ (hPoint ▸ rfl) hAlive)
    rw [hPoint, Point.rank, if_neg hOther]
    decide

/-- Every step brings the system closer to rest, unless the process crashes in it. -/
theorem advances_of_go (hTids : Tids E.tid) (h : Fits E initial s) (hGo : go E s i = some s')
    (hAlive : s'.crashed = none) : Nears s i s' ∨ stage s' < stage s := by
  unfold go at hGo
  cases hPoint : s.point i <;> rw [hPoint] at hGo <;> cases hGo
  case load => exact .inl (nears_dispatch_once_f hPoint)
  case tryenter =>
    unfold once_gate_tryenter
    split
    · exact .inr (stage_enters hTids ‹_›)
    · exact .inl (nears_goto (hPoint ▸ (by decide : 8 < 9)) (hPoint ▸ rfl))
  case callout => exact .inl ⟨rfl, .broadcast, rfl, hPoint ▸ (by decide : 1 < 2), hPoint ▸ rfl⟩
  case broadcast =>
    obtain ⟨waiters, hHeld⟩ := h.held_of_broadcast hPoint
    refine .inr (stage_once_gate_broadcast ?_ hAlive)
    rw [hHeld.word]
    exact one_lt_wordRank_heldWord (hTids.owner i) waiters
  case wake => exact .inr (stage_gate_broadcast_slow hPoint)
  case readGeneration gen => exact .inl (nears_once_mark_done_if_quiesced hPoint)
  case storeDone => exact advances_store (h.done_of_storeDone hPoint) hPoint
  case waitLoad => exact .inl (nears_once_wait_body (hPoint ▸ (by decide : 6 < 8)) (hPoint ▸ rfl) hAlive)
  case waitCmpxchg old_v => exact advances_cmpxchg hTids h hPoint hAlive
  case unfairLockWait new_v => exact .inl (nears_unfair_lock_wait hPoint)

section Rest

omit [Fintype ι]

theorem go_of_awake (E : Setting ι γ) (hIdle : (s.point i).idle = false) (hAwake : s.point i ≠ .asleep) :
    ∃ s', go E s i = some s' := by
  unfold go
  cases hPoint : s.point i with
  | outside | returned =>
    rw [hPoint] at hIdle
    cases hIdle
  | asleep => exact absurd hPoint hAwake
  | _ => exact ⟨_, rfl⟩

omit [DecidableEq ι] in
/-- The thread that runs the block never sleeps, not even in a call that the block has made. -/
theorem Held.owner_awake {o : ι} {waiters : Bool} (h : Held E initial o waiters s) :
    (s.point o).idle = false ∧ s.point o ≠ .asleep := by
  have hOwner := h.owner
  generalize s.point o = p at hOwner ⊢
  generalize s.nested o = nested at hOwner
  generalize s.shared = shared at hOwner
  cases hOwner <;> exact ⟨rfl, Point.noConfusion⟩

omit [DecidableEq ι] in
theorem Fits.awake_of_waker {j : ι} (h : Fits E initial s) (hj : s.inBlock j ∨ s.point j = .broadcast ∨ s.point j = .wake) :
    (s.point j).idle = false ∧ s.point j ≠ .asleep := by
  obtain hj | hj | hj := hj
  · obtain ⟨waiters, hHeld⟩ := h.inBlock hj
    exact hHeld.owner_awake
  · rw [hj]
    exact ⟨rfl, Point.noConfusion⟩
  · rw [hj]
    exact ⟨rfl, Point.noConfusion⟩

theorem go_of_busy (h : Fits E initial s) (hBusy : (s.point i).idle = false) : ∃ j s', go E s j = some s' := by
  by_cases hAsleep : s.point i = .asleep
  · obtain ⟨j, hj⟩ := h.waker hAsleep
    obtain ⟨hIdle, hAwake⟩ := h.awake_of_waker hj
    exact ⟨j, go_of_awake E hIdle hAwake⟩
  · exact ⟨i, go_of_awake E hBusy hAsleep⟩

theorem finish_keeps_nested (h : s.nested i = false) : (s.finish i).nested = s.nested := by
  rw [finish_of_not_nested h]
  rfl

theorem once_wait_body_nested (E : Setting ι γ) (h : s.nested i = false) : (once_wait_body E s i).nested = s.nested := by
  unfold once_wait_body sleep_unless_recursive
  dsimp only
  split
  · exact finish_keeps_nested h
  · split
    · rfl
    · split
      · split <;> rfl
      · rfl

theorem go_nested_of_not (h : s.nested i = false) (hGo : go E s i = some s') : s'.nested = s.nested := by
  unfold go at hGo
  split at hGo <;> cases hGo
  · unfold dispatch_once_f
    split
    · exact finish_keeps_nested h
    · split <;> rfl
  · unfold once_gate_tryenter
    split <;> rfl
  · rfl
  · unfold once_gate_broadcast
    dsimp only
    split
    · apply finish_keeps_nested
      exact h
    · split <;> rfl
  · apply finish_keeps_nested
    exact h
  · unfold once_mark_done_if_quiesced
    split
    · rfl
    · exact finish_keeps_nested h
  · apply finish_keeps_nested
    exact h
  · exact once_wait_body_nested E h
  · unfold once_wait_cmpxchg sleep_unless_recursive
    split
    · split <;> rfl
    · exact once_wait_body_nested E h
  · rfl

/-- A call that the block makes does not return. -/
theorem Held.go_nested {o : ι} {waiters : Bool} (h : Held E initial o waiters s) (hTids : Tids E.tid)
    (hNested : s.nested o = true) (hGo : go E s o = some s') : s'.nested = s.nested := by
  have hOwner := h.owner
  have hBody : (Once.once_wait_body E s o).nested = s.nested := by
    rw [h.once_wait_body]
    unfold sleep_unless_recursive
    split
    · split <;> rfl
    · rfl
  unfold go at hGo
  generalize s.point o = p at hGo hOwner
  rw [hNested] at hOwner
  generalize s.shared = shared at hOwner
  cases hOwner with
  | load =>
    cases hGo
    rw [h.dispatch_once_f]
    rfl
  | tryenter =>
    cases hGo
    rw [once_gate_tryenter, h.word, if_neg (heldWord_ne_unlocked (hTids.owner o))]
    rfl
  | waitLoad =>
    cases hGo
    exact hBody
  | waitCmpxchg w =>
    cases hGo
    unfold once_wait_cmpxchg sleep_unless_recursive
    split
    · split <;> rfl
    · exact hBody

theorem go_nested (hTids : Tids E.tid) (h : Fits E initial s) (hGo : go E s i = some s') : s'.nested = s.nested := by
  cases hNested : s.nested i with
  | false => exact go_nested_of_not hNested hGo
  | true =>
    obtain ⟨waiters, hHeld⟩ := h.inBlock (.inr hNested)
    exact hHeld.go_nested hTids hNested hGo

end Rest

/-- The labels by which the calls that have been made go on. -/
def Event.goesOn : Event ι → Bool
  | .go _ => true
  | _ => false

/-- The calls have come to an end: all have returned, or a call that the block made has crashed. -/
def Ended (nested : ι → Bool) (s : State ι γ) : Prop :=
  (∃ i, nested i = true) ∧ s.crashed = some "trying to lock recursively" ∨
    (∀ i, nested i = false) ∧ s.crashed = none ∧ ∀ i, (s.point i).idle = true

omit [DecidableEq ι] [Fintype ι] in
theorem ended_of_safe (h : Safe E initial s) (hCrashed : s.crashed ≠ none) : Ended s.nested s := by
  obtain ⟨hAlive, _⟩ | ⟨hMessage, hNested⟩ := h
  · exact absurd hAlive hCrashed
  · exact .inl ⟨hNested, hMessage⟩

omit [DecidableEq ι] [Fintype ι] in
theorem ended_of_idle (h : Fits E initial s) (hAlive : s.crashed = none) (hIdle : ∀ i, (s.point i).idle = true) :
    Ended s.nested s := by
  refine .inr ⟨fun i => ?_, hAlive, hIdle⟩
  by_contra hNested
  obtain ⟨waiters, hHeld⟩ := h.inBlock (.inr (Bool.eq_true_of_not_eq_false hNested))
  have hBusy := hHeld.owner_awake.1
  rw [hIdle i] at hBusy
  cases hBusy

omit [Fintype ι] in
theorem go_of_not_ended (h : Fits E initial s) (hAlive : s.crashed = none) (hNot : ¬ Ended s.nested s) :
    ∃ i s', go E s i = some s' := by
  by_contra hNone
  refine hNot (ended_of_idle h hAlive fun i => ?_)
  by_contra hBusy
  exact hNone (go_of_busy h (Bool.eq_false_of_not_eq_true hBusy))

theorem ends (hTids : Tids E.tid) {nested : ι → Bool} (h : Safe E initial s) (hNested : s.nested = nested) :
    ((once E initial).restrict Event.goesOn).Inevitably (Ended nested) s := by
  refine Machine.inevitably_of_variant (fun s => Safe E initial s ∧ s.nested = nested) variant ?_ ?_ ⟨h, hNested⟩
  · rintro s ⟨hSafe, rfl⟩ hNot
    have hAlive : s.crashed = none := by
      by_contra hCrashed
      exact hNot (ended_of_safe hSafe hCrashed)
    obtain ⟨_, hFits⟩ | ⟨hMessage, _⟩ := hSafe
    · obtain ⟨i, s', hGo⟩ := go_of_not_ended hFits hAlive hNot
      refine ⟨.go i, s', Machine.restrict_step.mpr ⟨rfl, ?_⟩⟩
      change step E s (.go i) = some s'
      rw [step, hAlive]
      exact hGo
    · rw [hAlive] at hMessage
      cases hMessage
  · rintro s e s' ⟨hSafe, rfl⟩ hNot hStep
    obtain ⟨hGoesOn, hStep⟩ := Machine.restrict_step.mp hStep
    cases e with
    | call | failsSpuriously | wakesSpuriously | quiesce => cases hGoesOn
    | go i =>
      obtain ⟨hNone, hGo⟩ := Option.ite_none_left_eq_some.mp hStep
      obtain ⟨hAlive, hFits⟩ | ⟨hMessage, _⟩ := hSafe
      · have hSafe' := safe_of_go hTids hFits hAlive hGo
        have hKept := go_nested hTids hFits hGo
        by_cases hAlive' : s'.crashed = none
        · refine .inr ⟨⟨hSafe', hKept⟩, ?_⟩
          obtain hNears | hStage := advances_of_go hTids hFits hGo hAlive'
          · exact hNears.variant_lt
          · exact variant_of_stage hStage
        · rw [← hKept]
          exact .inl (ended_of_safe hSafe' hAlive')
      · rw [hMessage] at hNone
        exact absurd rfl hNone

/-- From any state that a run reaches, in whatever order the threads go on, every call returns,
unless the block has called `dispatch_once` on its own token: then the process crashes. -/
theorem once_returns (hTids : Tids E.tid) (h : (once E initial).Reachable s) :
    ((once E initial).restrict Event.goesOn).Inevitably (Ended s.nested) s :=
  ends hTids (safe_of_reachable hTids h) rfl

theorem once_returns_of_sleeper : ∃ s, (once countRuns 0).run (sleepsMeanwhile.take 9) = some s ∧
    s.point true = .asleep ∧ s.nested true = false ∧
    ((once countRuns 0).restrict Event.goesOn).Inevitably (Ended s.nested) s := by
  obtain ⟨s, hRun⟩ := Option.isSome_iff_exists.mp
    (show ((once countRuns 0).run (sleepsMeanwhile.take 9)).isSome = true by decide +kernel)
  have hAsleep := Machine.read_of_run hRun (f := fun s => s.point true) (x := .asleep) (by decide +kernel)
  have hNested := Machine.read_of_run hRun (f := fun s => s.nested true) (x := false) (by decide +kernel)
  exact ⟨s, hRun, hAsleep, hNested, once_returns countRuns_tids ⟨_, hRun⟩⟩

end OCNote.Dispatch.Once
