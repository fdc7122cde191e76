import OCNote.Dispatch.Once

/-! # The block runs once

The token is unlocked, held by one thread, or done. Each step keeps it in one of the three stages,
together with what every thread may know there. -/

namespace OCNote.Dispatch.Once
open OCNote.Support
set_option autoImplicit false

universe u v

variable {ι : Type u} {γ : Type v} [DecidableEq ι] {E : Setting ι γ} {initial : γ} {s s' : State ι γ}

section Words

variable {tid : BitVec 32} {waiters : Bool}

theorem heldWord_ne_done : heldWord tid waiters ≠ DLOCK_ONCE_DONE := fun h => not_onceDone_heldWord (.inl h)

theorem not_isGen_heldWord : DISPATCH_ONCE_IS_GEN (heldWord tid waiters) = false := by
  rw [Bool.eq_false_iff]
  exact fun h => not_onceDone_heldWord (.inr h)

omit [DecidableEq ι] in
theorem Done.onceDone (h : Done E initial s) : OnceDone s.dgo_once := h.word.imp_right And.right

theorem ne_unlocked_of_onceDone {word : BitVec 64} (h : OnceDone word) : word ≠ DLOCK_ONCE_UNLOCKED := by
  rintro rfl
  obtain h | h := onceDone_low h <;> exact absurd h (by decide)

end Words

section Goto

variable {i : ι} {p : Point}

theorem goto_point (s : State ι γ) (i : ι) (p : Point) : (s.goto i p).point i = p := Function.update_self ..

theorem goto_point_of_ne {j : ι} (h : j ≠ i) : (s.goto i p).point j = s.point j := Function.update_of_ne h ..

theorem finish_of_not_nested (h : s.nested i = false) : s.finish i = s.goto i .returned := by
  rw [State.finish, h]
  exact if_neg Bool.false_ne_true

theorem Unlocked.goto (h : Unlocked initial s) (hp : Early p) : Unlocked initial (s.goto i p) where
  word := h.word
  shared := h.shared
  threads j := by
    refine ⟨(h.threads j).1, ?_⟩
    obtain rfl | hji := eq_or_ne j i
    · rwa [goto_point]
    · rw [goto_point_of_ne hji]
      exact (h.threads j).2

theorem Held.goto_other {o : ι} {waiters : Bool} (h : Held E initial o waiters s) (hi : i ≠ o)
    (hp : Other (E.tid o) waiters p) : Held E initial o waiters (s.goto i p) where
  word := h.word
  owner := by
    rw [goto_point_of_ne hi.symm]
    exact h.owner
  others j hj := by
    refine ⟨(h.others j hj).1, ?_⟩
    obtain rfl | hji := eq_or_ne j i
    · rwa [goto_point]
    · rw [goto_point_of_ne hji]
      exact (h.others j hj).2

/-- The owner moves, and may change what is shared and whether it is in a call of its block. -/
theorem Held.goto_owner {o : ι} {waiters : Bool} (h : Held E initial o waiters s) (hWord : s'.dgo_once = s.dgo_once)
    (hPoint : s'.point = Function.update s.point o p) (hNested : ∀ j, j ≠ o → s'.nested j = s.nested j)
    (hOwner : Owner E initial (E.tid o) (s'.nested o) p s'.shared) : Held E initial o waiters s' where
  word := hWord.trans h.word
  owner := by rwa [hPoint, Function.update_self]
  others j hj := by
    rw [hNested j hj, hPoint, Function.update_of_ne hj]
    exact h.others j hj

theorem Done.goto (h : Done E initial s) (hOld : s.point i ≠ .wake) (hp : Late E p) (hAsleep : p ≠ .asleep) :
    Done E initial (s.goto i p) where
  word := h.word
  shared := h.shared
  threads j := by
    refine ⟨(h.threads j).1, ?_⟩
    obtain rfl | hji := eq_or_ne j i
    · rwa [goto_point]
    · rw [goto_point_of_ne hji]
      exact (h.threads j).2
  wakes := by
    rintro ⟨j, hj⟩
    have hji : j ≠ i := by
      rintro rfl
      exact hAsleep ((goto_point s j p).symm.trans hj)
    rw [goto_point_of_ne hji] at hj
    obtain ⟨k, hk⟩ := h.wakes ⟨j, hj⟩
    have hki : k ≠ i := by
      rintro rfl
      exact hOld hk
    exact ⟨k, (goto_point_of_ne hki).trans hk⟩

end Goto

/-- What holds after a step: a stage of the token, or the crash of a block that called itself. -/
def Safe (E : Setting ι γ) (initial : γ) (s : State ι γ) : Prop :=
  s.crashed = none ∧ Fits E initial s ∨
    s.crashed = some "trying to lock recursively" ∧ ∃ i, s.nested i = true

section Held

variable {o : ι} {waiters : Bool}

omit [DecidableEq ι] in
theorem Held.not_done (h : Held E initial o waiters s) : s.dgo_once ≠ DLOCK_ONCE_DONE := h.word ▸ heldWord_ne_done

omit [DecidableEq ι] in
theorem Held.not_isGen (h : Held E initial o waiters s) : DISPATCH_ONCE_IS_GEN s.dgo_once = false :=
  h.word ▸ not_isGen_heldWord

omit [DecidableEq ι] in
theorem self_locks (hTids : Tids E.tid) {i : ι} :
    lock_is_locked_by ((heldWord (E.tid o) waiters).setWidth 32) (E.self i) = true ↔ o = i := by
  rw [lock_is_locked_by_heldWord, Setting.self, lock_value_from_tid_self]
  exact ⟨hTids.injective o i, fun h => h ▸ rfl⟩

theorem Held.dispatch_once_f (h : Held E initial o waiters s) (i : ι) :
    Once.dispatch_once_f E s i = s.goto i .tryenter := by
  rw [Once.dispatch_once_f, if_neg h.not_done, h.not_isGen, Bool.and_false]
  exact if_neg Bool.false_ne_true

theorem Held.once_wait_body (h : Held E initial o waiters s) (i : ι) :
    Once.once_wait_body E s i =
      if waiters then sleep_unless_recursive E s i (heldWord (E.tid o) true) (heldWord (E.tid o) true)
      else s.goto i (.waitCmpxchg (heldWord (E.tid o) false)) := by
  unfold Once.once_wait_body
  dsimp only
  rw [if_neg h.not_done, h.not_isGen, Bool.and_false, if_neg Bool.false_ne_true, h.word, heldWord_or]
  cases waiters with
  | true => rw [if_pos rfl, if_pos rfl]
  | false =>
    have hNe : heldWord (E.tid o) true ≠ heldWord (E.tid o) false := fun hSame => by
      cases (heldWord_inj hSame).2
    rw [if_neg hNe]
    rfl

end Held

section Steps

variable {o i : ι} {waiters : Bool}

theorem Unlocked.go (h : Unlocked initial s) (hAlive : s.crashed = none) (hGo : Once.go E s i = some s') :
    Safe E initial s' := by
  unfold Once.go at hGo
  obtain ⟨hNested, hEarly⟩ := h.threads i
  cases hPoint : s.point i <;> rw [hPoint] at hGo hEarly <;> cases hEarly
  case outside => cases hGo
  case load =>
    cases hGo
    have hDone : DLOCK_ONCE_UNLOCKED ≠ DLOCK_ONCE_DONE := by decide
    have hGen : DISPATCH_ONCE_IS_GEN DLOCK_ONCE_UNLOCKED = false := by decide
    rw [dispatch_once_f, h.word, if_neg hDone, hGen, Bool.and_false, if_neg Bool.false_ne_true]
    exact .inl ⟨hAlive, .unlocked (h.goto .tryenter)⟩
  case tryenter =>
    cases hGo
    rw [once_gate_tryenter, if_pos h.word]
    refine .inl ⟨hAlive, .held i false ⟨heldWord_false _, ?_, fun j hji => ⟨(h.threads j).1, .early ?_⟩⟩⟩
    · rw [goto_point]
      change Owner E initial (E.tid i) (s.nested i) .callout s.shared
      rw [hNested, h.shared]
      exact .callout
    · rw [goto_point_of_ne hji]
      exact (h.threads j).2

omit [DecidableEq ι] in
theorem Other.late {p : Point} (h : Other (E.tid o) waiters p) : Late E p := by
  cases h with
  | early h => exact .early h
  | waitLoad => exact .waitLoad
  | waitCmpxchg w => exact .waitCmpxchg o w
  | unfairLockWait => exact .unfairLockWait o
  | asleep => exact .asleep

theorem Held.broadcast (h : Held E initial o waiters s) (hAlive : s.crashed = none) (hNested : s.nested o = false)
    (hShared : s.shared = E.block initial) : Safe E initial (once_gate_broadcast E s o) := by
  have hDone : ∀ {p : Point}, Late E p → (waiters = true → p = .wake) → p ≠ .asleep →
      Done E initial ({ s with dgo_once :=
        if E.quiescent then DISPATCH_ONCE_MAKE_GEN s.counter else DLOCK_ONCE_DONE }.goto o p) := by
    intro p hLate hWake hAsleep
    refine ⟨?_, hShared, fun j => ?_, ?_⟩
    · change (if E.quiescent = true then _ else _) = _ ∨ _ ∧ DISPATCH_ONCE_IS_GEN (if E.quiescent = true then _ else _) = true
      split
      · exact .inr ⟨‹_›, isGen_makeGen _⟩
      · exact .inl rfl
    · obtain rfl | hj := eq_or_ne j o
      · rw [goto_point]
        exact ⟨hNested, hLate⟩
      · rw [goto_point_of_ne hj]
        exact ⟨(h.others j hj).1, (h.others j hj).2.late⟩
    · rintro ⟨j, hj⟩
      have hjo : j ≠ o := by
        rintro rfl
        exact hAsleep ((goto_point _ j p).symm.trans hj)
      rw [goto_point_of_ne hjo] at hj
      have hOther := (h.others j hjo).2
      rw [show s.point j = .asleep from hj] at hOther
      cases hOther with
      | early hEarly => cases hEarly
      | asleep hWaiters => exact ⟨o, (goto_point _ o p).trans (hWake hWaiters)⟩
  unfold once_gate_broadcast
  dsimp only
  rw [h.word]
  split
  · rename_i hSelf
    have hNone := setWidth_heldWord_iff.mp hSelf
    have hWaiters : waiters = true → Point.returned = .wake := fun h => by rw [hNone] at h; cases h
    rw [finish_of_not_nested]
    · exact .inl ⟨hAlive, .done (hDone .returned hWaiters Point.noConfusion)⟩
    · exact hNested
  · rw [if_pos (lock_is_locked_by_heldWord.mpr rfl)]
    exact .inl ⟨hAlive, .done (hDone .wake (fun _ => rfl) Point.noConfusion)⟩

theorem Held.goto_self (h : Held E initial o waiters s) (hAlive : s.crashed = none) {p : Point}
    (hOwner : Owner E initial (E.tid o) (s.nested o) p s.shared) : Safe E initial (s.goto o p) :=
  .inl ⟨hAlive, .held o waiters (h.goto_owner rfl rfl (fun _ _ => rfl) hOwner)⟩

theorem crash_of_nested (hTids : Tids E.tid) (hNested : s.nested o = true) (new_v : BitVec 64) :
    Safe E initial (sleep_unless_recursive E s o (heldWord (E.tid o) waiters) new_v) := by
  rw [sleep_unless_recursive, if_pos ((self_locks hTids).mpr rfl)]
  exact .inr ⟨rfl, o, hNested⟩

theorem Held.body_owner (h : Held E initial o waiters s) (hTids : Tids E.tid) (hAlive : s.crashed = none)
    (hNested : s.nested o = true) (hShared : s.shared = initial) : Safe E initial (Once.once_wait_body E s o) := by
  rw [h.once_wait_body]
  split
  · exact crash_of_nested hTids hNested _
  · apply h.goto_self hAlive
    rw [hNested, hShared]
    exact .waitCmpxchg false

/-- The thread that has entered goes on. Only a call that its block makes can crash. -/
theorem Held.go_owner (h : Held E initial o waiters s) (hTids : Tids E.tid) (hAlive : s.crashed = none)
    (hGo : Once.go E s o = some s') : Safe E initial s' := by
  have hOwner := h.owner
  unfold Once.go at hGo
  generalize s.point o = p at hGo hOwner
  generalize hNested : s.nested o = nested at hOwner
  generalize hShared : s.shared = shared at hOwner
  cases hOwner with
  | callout =>
    cases hGo
    refine .inl ⟨hAlive, .held o waiters (h.goto_owner rfl rfl (fun _ _ => rfl) ?_)⟩
    change Owner E initial (E.tid o) (s.nested o) _ (E.block s.shared)
    rw [hNested, hShared]
    exact .broadcast
  | broadcast =>
    cases hGo
    exact h.broadcast hAlive hNested hShared
  | load =>
    cases hGo
    rw [h.dispatch_once_f]
    apply h.goto_self hAlive
    rw [hNested, hShared]
    exact .tryenter
  | tryenter =>
    cases hGo
    rw [once_gate_tryenter, h.word, if_neg (heldWord_ne_unlocked (hTids.owner o))]
    apply h.goto_self hAlive
    rw [hNested, hShared]
    exact .waitLoad
  | waitLoad =>
    cases hGo
    exact h.body_owner hTids hAlive hNested hShared
  | waitCmpxchg w =>
    cases hGo
    unfold once_wait_cmpxchg
    split
    · refine crash_of_nested hTids ?_ _
      exact hNested
    · exact h.body_owner hTids hAlive hNested hShared

theorem Held.body_other (h : Held E initial o waiters s) (hTids : Tids E.tid) (hAlive : s.crashed = none)
    (hi : i ≠ o) : Safe E initial (Once.once_wait_body E s i) := by
  rw [h.once_wait_body]
  split
  · have hNot : ¬ lock_is_locked_by ((heldWord (E.tid o) true).setWidth 32) (E.self i) = true :=
      fun hSelf => hi ((self_locks hTids).mp hSelf).symm
    rw [sleep_unless_recursive, if_neg hNot]
    exact .inl ⟨hAlive, .held o waiters (h.goto_other hi (.unfairLockWait ‹_›))⟩
  · exact .inl ⟨hAlive, .held o waiters (h.goto_other hi (.waitCmpxchg false))⟩

theorem Held.go_other (h : Held E initial o waiters s) (hTids : Tids E.tid) (hAlive : s.crashed = none) (hi : i ≠ o)
    (hGo : Once.go E s i = some s') : Safe E initial s' := by
  have hMove : ∀ {p : Point}, Other (E.tid o) waiters p → Safe E initial (s.goto i p) :=
    fun hOther => .inl ⟨hAlive, .held o waiters (h.goto_other hi hOther)⟩
  have hOther := (h.others i hi).2
  unfold Once.go at hGo
  generalize s.point i = p at hGo hOther
  cases hOther with
  | early hEarly =>
    cases hEarly with
    | outside => cases hGo
    | load =>
      cases hGo
      rw [h.dispatch_once_f]
      exact hMove (.early .tryenter)
    | tryenter =>
      cases hGo
      rw [once_gate_tryenter, h.word, if_neg (heldWord_ne_unlocked (hTids.owner o))]
      exact hMove .waitLoad
  | asleep => cases hGo
  | waitLoad =>
    cases hGo
    exact h.body_other hTids hAlive hi
  | unfairLockWait hWaiters =>
    cases hGo
    unfold unfair_lock_wait
    split
    · exact hMove (.asleep hWaiters)
    · exact hMove .waitLoad
  | waitCmpxchg w =>
    cases hGo
    unfold once_wait_cmpxchg
    split
    · have hNot : ¬ lock_is_locked_by ((heldWord (E.tid o) w).setWidth 32) (E.self i) = true :=
        fun hSelf => hi ((self_locks hTids).mp hSelf).symm
      rw [sleep_unless_recursive, if_neg hNot, heldWord_or]
      have hHeld : Held E initial o true { s with dgo_once := heldWord (E.tid o) true } := by
        refine ⟨rfl, h.owner, fun j hj => ⟨(h.others j hj).1, ?_⟩⟩
        have hOther := (h.others j hj).2
        change Other _ _ (s.point j)
        generalize s.point j = p at hOther
        cases hOther with
        | early hEarly => exact .early hEarly
        | waitLoad => exact .waitLoad
        | waitCmpxchg w => exact .waitCmpxchg w
        | unfairLockWait => exact .unfairLockWait rfl
        | asleep => exact .asleep rfl
      exact .inl ⟨hAlive, .held o true (hHeld.goto_other hi (.unfairLockWait rfl))⟩
    · exact h.body_other hTids hAlive hi

theorem Done.body (h : Done E initial s) (hAlive : s.crashed = none) (hPoint : s.point i ≠ .wake) :
    Safe E initial (once_wait_body E s i) := by
  have hMove : ∀ {p : Point}, Late E p → p ≠ .asleep → Safe E initial (s.goto i p) :=
    fun hLate hAsleep => .inl ⟨hAlive, .done (h.goto hPoint hLate hAsleep)⟩
  unfold once_wait_body
  dsimp only
  split
  · rw [finish_of_not_nested (h.threads i).1]
    exact hMove .returned Point.noConfusion
  · have hGen := h.word.resolve_left ‹_›
    rw [hGen.1, hGen.2, Bool.and_self, if_pos rfl]
    exact hMove (.readGeneration _) Point.noConfusion

theorem Done.wakeAll (h : Done E initial s) : Done E initial
    ({ s with point := fun j => if s.point j = Point.asleep then Point.waitLoad else s.point j }.goto i .returned) where
  word := h.word
  shared := h.shared
  threads j := by
    refine ⟨(h.threads j).1, ?_⟩
    obtain rfl | hji := eq_or_ne j i
    · rw [goto_point]
      exact .returned
    · rw [goto_point_of_ne hji]
      dsimp only
      split
      · exact .waitLoad
      · exact (h.threads j).2
  wakes := by
    rintro ⟨j, hj⟩
    exfalso
    obtain rfl | hji := eq_or_ne j i
    · rw [goto_point] at hj
      cases hj
    · rw [goto_point_of_ne hji] at hj
      dsimp only at hj
      split at hj
      · cases hj
      · exact absurd hj ‹_›

/-- Once the token is done every thread finds out, and nobody falls asleep. -/
theorem Done.go (h : Done E initial s) (hAlive : s.crashed = none) (hGo : Once.go E s i = some s') :
    Safe E initial s' := by
  have hMove : s.point i ≠ .wake → ∀ {p : Point}, Late E p → p ≠ .asleep → Safe E initial (s.goto i p) :=
    fun hPoint _ hLate hAsleep => .inl ⟨hAlive, .done (h.goto hPoint hLate hAsleep)⟩
  obtain ⟨hNested, hLate⟩ := h.threads i
  have hBody := h.body hAlive (i := i)
  unfold Once.go at hGo
  generalize hPoint : s.point i = p at hGo hLate hMove hBody
  cases hLate with
  | early hEarly =>
    cases hEarly with
    | outside => cases hGo
    | load =>
      cases hGo
      unfold dispatch_once_f
      split
      · rw [finish_of_not_nested hNested]
        exact hMove Point.noConfusion .returned Point.noConfusion
      · split
        · exact hMove Point.noConfusion (.readGeneration _) Point.noConfusion
        · exact hMove Point.noConfusion (.early .tryenter) Point.noConfusion
    | tryenter =>
      cases hGo
      rw [once_gate_tryenter, if_neg (ne_unlocked_of_onceDone h.onceDone)]
      exact hMove Point.noConfusion .waitLoad Point.noConfusion
  | returned | asleep => cases hGo
  | wake =>
    cases hGo
    unfold gate_broadcast_slow
    rw [finish_of_not_nested]
    · exact .inl ⟨hAlive, .done h.wakeAll⟩
    · exact hNested
  | readGeneration gen =>
    cases hGo
    unfold once_mark_done_if_quiesced
    split
    · exact hMove Point.noConfusion .storeDone Point.noConfusion
    · rw [finish_of_not_nested hNested]
      exact hMove Point.noConfusion .returned Point.noConfusion
  | storeDone =>
    cases hGo
    rw [finish_of_not_nested]
    · have hDone : Done E initial { s with dgo_once := DLOCK_ONCE_DONE } := ⟨.inl rfl, h.shared, h.threads, h.wakes⟩
      exact .inl ⟨hAlive, .done (hDone.goto (hPoint ▸ Point.noConfusion) .returned Point.noConfusion)⟩
    · exact hNested
  | waitLoad =>
    cases hGo
    exact hBody Point.noConfusion
  | waitCmpxchg j w =>
    cases hGo
    unfold once_wait_cmpxchg
    rw [if_neg fun hSame => not_onceDone_heldWord (hSame ▸ h.onceDone)]
    exact hBody Point.noConfusion
  | unfairLockWait j =>
    cases hGo
    unfold unfair_lock_wait
    rw [if_neg (setWidth_ne_of_onceDone h.onceDone)]
    exact hMove Point.noConfusion .waitLoad Point.noConfusion

theorem safe_of_go (hTids : Tids E.tid) (h : Fits E initial s) (hAlive : s.crashed = none)
    (hGo : Once.go E s i = some s') : Safe E initial s' := by
  cases h with
  | unlocked h => exact h.go hAlive hGo
  | held o waiters h =>
    obtain rfl | hi := eq_or_ne i o
    · exact h.go_owner hTids hAlive hGo
    · exact h.go_other hTids hAlive hi hGo
  | done h => exact h.go hAlive hGo

theorem safe_of_call (h : Fits E initial s) (hAlive : s.crashed = none)
    (hStep : step E s (.call i) = some s') : Safe E initial s' := by
  obtain ⟨_, hStep⟩ := Option.ite_none_left_eq_some.mp hStep
  dsimp only at hStep
  cases h with
  | unlocked h =>
    obtain ⟨_, hEarly⟩ := h.threads i
    generalize s.point i = p at hStep hEarly
    cases hEarly <;> cases hStep
    exact .inl ⟨hAlive, .unlocked (h.goto .load)⟩
  | held o waiters h =>
    obtain rfl | hi := eq_or_ne i o
    · have hOwner := h.owner
      generalize s.point i = p at hStep hOwner
      generalize s.nested i = nested at hOwner
      generalize hShared : s.shared = shared at hOwner
      cases hOwner <;> cases hStep
      refine .inl ⟨hAlive, .held i waiters (h.goto_owner rfl rfl (fun j hj => Function.update_of_ne hj ..) ?_)⟩
      change Owner E initial (E.tid i) (Function.update s.nested i true i) _ s.shared
      rw [Function.update_self, hShared]
      exact .load
    · have hOther := (h.others i hi).2
      generalize s.point i = p at hStep hOther
      cases hOther with
      | early hEarly =>
        cases hEarly <;> cases hStep
        exact .inl ⟨hAlive, .held o waiters (h.goto_other hi (.early .load))⟩
      | waitLoad | waitCmpxchg | unfairLockWait | asleep => cases hStep
  | done h =>
    have hLate := (h.threads i).2
    generalize hPoint : s.point i = p at hStep hLate
    have hNotWake : p ≠ .wake → s.point i ≠ .wake := hPoint ▸ id
    cases hLate with
    | early hEarly =>
      cases hEarly <;> cases hStep
      exact .inl ⟨hAlive, .done (h.goto (hNotWake Point.noConfusion) (.early .load) Point.noConfusion)⟩
    | returned =>
      cases hStep
      exact .inl ⟨hAlive, .done (h.goto (hNotWake Point.noConfusion) (.early .load) Point.noConfusion)⟩
    | wake | readGeneration | storeDone | waitLoad | waitCmpxchg | unfairLockWait | asleep => cases hStep

theorem safe_of_step (hTids : Tids E.tid) (h : Fits E initial s) {e : Event ι} (hStep : step E s e = some s') :
    Safe E initial s' := by
  have hAlive : s.crashed = none := by
    have hNone := (Option.ite_none_left_eq_some.mp hStep).1
    simpa using hNone
  cases e with
  | call i => exact safe_of_call h hAlive hStep
  | go i => exact safe_of_go hTids h hAlive (Option.ite_none_left_eq_some.mp hStep).2
  | failsSpuriously i =>
    obtain ⟨_, hStep⟩ := Option.ite_none_left_eq_some.mp hStep
    dsimp only at hStep
    split at hStep
    · rename_i old_v hPoint
      cases hStep
      cases h with
      | unlocked h =>
        have hEarly := (h.threads i).2
        rw [hPoint] at hEarly
        cases hEarly
      | held o waiters h =>
        obtain rfl | hi := eq_or_ne i o
        · have hOwner := h.owner
          rw [hPoint] at hOwner
          generalize hNested : s.nested i = nested at hOwner
          generalize hShared : s.shared = shared at hOwner
          cases hOwner
          exact h.body_owner hTids hAlive hNested hShared
        · exact h.body_other hTids hAlive hi
      | done h => exact h.body hAlive (hPoint ▸ Point.noConfusion)
    · cases hStep
  | wakesSpuriously i =>
    obtain ⟨_, hStep⟩ := Option.ite_none_left_eq_some.mp hStep
    dsimp only at hStep
    split at hStep
    · rename_i hPoint
      cases hStep
      cases h with
      | unlocked h =>
        have hEarly := (h.threads i).2
        rw [hPoint] at hEarly
        cases hEarly
      | held o waiters h =>
        have hi : i ≠ o := by
          rintro rfl
          have hOwner := h.owner
          rw [hPoint] at hOwner
          generalize s.nested i = nested at hOwner
          cases hOwner
        exact .inl ⟨hAlive, .held o waiters (h.goto_other hi .waitLoad)⟩
      | done h => exact .inl ⟨hAlive, .done (h.goto (hPoint ▸ Point.noConfusion) .waitLoad Point.noConfusion)⟩
    · cases hStep
  | quiesce =>
    obtain ⟨_, hStep⟩ := Option.ite_none_left_eq_some.mp hStep
    cases hStep
    refine .inl ⟨hAlive, ?_⟩
    cases h with
    | unlocked h => exact .unlocked ⟨h.word, h.shared, h.threads⟩
    | held o waiters h => exact .held o waiters ⟨h.word, h.owner, h.others⟩
    | done h => exact .done ⟨h.word, h.shared, h.threads, h.wakes⟩

theorem safe_of_reachable (hTids : Tids E.tid) (h : (once E initial).Reachable s) : Safe E initial s := by
  refine Machine.invariant (P := Safe E initial) ?_ ?_ h
  · exact .inl ⟨rfl, .unlocked ⟨rfl, rfl, fun _ => ⟨rfl, .outside⟩⟩⟩
  · intro s e s' hSafe hStep
    obtain ⟨_, hFits⟩ | ⟨hCrashed, _⟩ := hSafe
    · exact safe_of_step hTids hFits hStep
    · have hNone := (Option.ite_none_left_eq_some.mp hStep).1
      rw [hCrashed] at hNone
      exact absurd rfl hNone

end Steps

/-- The thread is running the block. -/
def State.inBlock (s : State ι γ) (i : ι) : Prop := s.point i = .callout ∨ s.nested i = true

section Stages

omit [DecidableEq ι]

theorem Fits.shared_cases (h : Fits E initial s) : s.shared = initial ∨ s.shared = E.block initial := by
  cases h with
  | unlocked h => exact .inl h.shared
  | held o waiters h =>
    have hOwner := h.owner
    generalize s.point o = p at hOwner
    generalize s.nested o = nested at hOwner
    generalize s.shared = shared at hOwner
    cases hOwner with
    | broadcast => exact .inr rfl
    | callout | load | tryenter | waitLoad | waitCmpxchg => exact .inl rfl
  | done h => exact .inr h.shared

theorem Fits.done_of_returned {i : ι} (h : Fits E initial s) (hi : s.point i = .returned) : Done E initial s := by
  cases h with
  | unlocked h =>
    have hEarly := (h.threads i).2
    rw [hi] at hEarly
    cases hEarly
  | held o waiters h =>
    obtain rfl | hio := eq_or_ne i o
    · have hOwner := h.owner
      rw [hi] at hOwner
      generalize s.nested i = nested at hOwner
      cases hOwner
    · have hOther := (h.others i hio).2
      rw [hi] at hOther
      cases hOther with
      | early hEarly => cases hEarly
  | done h => exact h

theorem Done.not_inBlock (h : Done E initial s) (i : ι) : ¬ s.inBlock i := by
  rintro (hi | hi)
  · have hLate := (h.threads i).2
    rw [hi] at hLate
    cases hLate with
    | early hEarly => cases hEarly
  · rw [(h.threads i).1] at hi
    cases hi

theorem Fits.inBlock {i : ι} (h : Fits E initial s) (hi : s.inBlock i) : ∃ waiters, Held E initial i waiters s := by
  cases h with
  | unlocked h =>
    obtain ⟨hNested, hEarly⟩ := h.threads i
    obtain hi | hi := hi
    · rw [hi] at hEarly
      cases hEarly
    · rw [hNested] at hi
      cases hi
  | held o waiters h =>
    obtain rfl | hio := eq_or_ne i o
    · exact ⟨waiters, h⟩
    · obtain ⟨hNested, hOther⟩ := h.others i hio
      obtain hi | hi := hi
      · rw [hi] at hOther
        cases hOther with
        | early hEarly => cases hEarly
      · rw [hNested] at hi
        cases hi
  | done h => exact absurd hi (h.not_inBlock i)

theorem Held.owner_busy {o : ι} {waiters : Bool} (h : Held E initial o waiters s) :
    s.inBlock o ∨ s.point o = .broadcast := by
  have hOwner := h.owner
  generalize hPoint : s.point o = p at hOwner
  generalize hNested : s.nested o = nested at hOwner
  generalize s.shared = shared at hOwner
  cases hOwner with
  | callout => exact .inl (.inl hPoint)
  | broadcast => exact .inr rfl
  | load | tryenter | waitLoad | waitCmpxchg => exact .inl (.inr hNested)

theorem Fits.waker {i : ι} (h : Fits E initial s) (hi : s.point i = .asleep) :
    ∃ j, s.inBlock j ∨ s.point j = .broadcast ∨ s.point j = .wake := by
  cases h with
  | unlocked h =>
    have hEarly := (h.threads i).2
    rw [hi] at hEarly
    cases hEarly
  | held o waiters h => exact ⟨o, h.owner_busy.imp_right .inl⟩
  | done h =>
    obtain ⟨j, hj⟩ := h.wakes ⟨i, hi⟩
    exact ⟨j, .inr (.inr hj)⟩

theorem Held.unique {i j : ι} {w w' : Bool} (hTids : Tids E.tid) (h : Held E initial i w s)
    (h' : Held E initial j w' s) : i = j :=
  hTids.injective i j (heldWord_inj (h.word.symm.trans h'.word)).1

end Stages

/-- In every run the block runs at most once and in one thread, and no call returns before it has
run. The process crashes only in a call that the block has made, and whoever sleeps will be
woken by the thread that runs the block. -/
theorem once_runs_block_once (hTids : Tids E.tid) (h : (once E initial).Reachable s) :
    (s.crashed = none →
      (s.shared = initial ∨ s.shared = E.block initial) ∧
      (∀ i, s.point i = .returned → s.shared = E.block initial ∧ ∀ j, ¬ s.inBlock j) ∧
      (∀ i j, s.inBlock i → s.inBlock j → i = j) ∧
      ∀ i, s.point i = .asleep → ∃ j, s.inBlock j ∨ s.point j = .broadcast ∨ s.point j = .wake) ∧
    ∀ message, s.crashed = some message → message = "trying to lock recursively" ∧ ∃ i, s.nested i = true := by
  obtain ⟨hAlive, hFits⟩ | ⟨hCrashed, hNested⟩ := safe_of_reachable hTids h
  · refine ⟨fun _ => ⟨hFits.shared_cases, fun i hi => ?_, fun i j hi hj => ?_, fun i hi => hFits.waker hi⟩,
      fun message hMessage => ?_⟩
    · have hDone := hFits.done_of_returned hi
      exact ⟨hDone.shared, hDone.not_inBlock⟩
    · obtain ⟨w, hi⟩ := hFits.inBlock hi
      obtain ⟨w', hj⟩ := hFits.inBlock hj
      exact hi.unique hTids hj
    · rw [hAlive] at hMessage
      cases hMessage
  · refine ⟨fun hAlive => ?_, fun message hMessage => ?_⟩
    · rw [hAlive] at hCrashed
      cases hCrashed
    · rw [hCrashed] at hMessage
      cases hMessage
      exact ⟨rfl, hNested⟩

/-- Two threads on a processor with a quiescent counter; the block counts its runs. -/
def countRuns : Setting Bool Nat where
  quiescent := true
  tid i := if i then 0x203 else 0x103
  block := Nat.succ

theorem countRuns_tids : Tids countRuns.tid where
  owner := by decide
  injective := by decide

/-- One thread runs the block while the other falls asleep. -/
def sleepsMeanwhile : List (Event Bool) :=
  [.call false, .go false, .go false, .call true, .go true, .go true, .go true, .go true, .go true, .go false,
    .go false, .go false, .go true, .go true]

theorem once_runs_block_once_two_threads : ∃ s, (once countRuns 0).run sleepsMeanwhile = some s ∧
    s.point true = .returned ∧ s.shared = countRuns.block 0 ∧ ∀ j, ¬ s.inBlock j := by
  obtain ⟨s, hRun⟩ := Option.isSome_iff_exists.mp
    (show ((once countRuns 0).run sleepsMeanwhile).isSome = true by decide +kernel)
  have hAlive := Machine.read_of_run hRun (f := fun s => s.crashed) (x := none) (by decide +kernel)
  have hReturned := Machine.read_of_run hRun (f := fun s => s.point true) (x := .returned) (by decide +kernel)
  obtain ⟨_, hDone, _⟩ := (once_runs_block_once countRuns_tids ⟨_, hRun⟩).1 hAlive
  exact ⟨s, hRun, hReturned, hDone true hReturned⟩

end OCNote.Dispatch.Once
