import OCNote.Dispatch.GroupList

/-! # What the group keeps

At any time one thread, or the bit in the state, answers for the notifications in the list. The
group holds a reference to itself while it has been entered, and one while there are notifications. -/

namespace OCNote.Dispatch.Group
open OCNote.Support
set_option autoImplicit false

universe u

variable {ι : Type u} [DecidableEq ι] [Fintype ι]

section Guarded

variable {s s' : State ι} {h h' : History ι} {i : ι} {p : Point}

omit [DecidableEq ι] in
theorem Guarded.of_history (hGuarded : Guarded s h) (hQueue : h'.queue = h.queue) : Guarded s h' := by
  obtain ⟨_, _, queue, _, _⟩ := h'
  dsimp only at hQueue
  subst hQueue
  exact ⟨hGuarded.roles, hGuarded.heads, hGuarded.flagged, hGuarded.empty⟩

theorem Guarded.goto (hGuarded : Guarded s h) (hHead : s'.dg_notify_head = s.dg_notify_head)
    (hNotifs : (fields s'.dg_state).notifs = (fields s.dg_state).notifs) (hPoint : s'.point = Function.update s.point i p)
    (hOld : (s.point i).role = 0) (hNew : p.role = 0) : Guarded s' h := by
  have hTally := tally_update Point.role s.point i p
  rw [hOld, hNew] at hTally
  have hTally : tally Point.role (Function.update s.point i p) = tally Point.role s.point := hTally
  refine ⟨?_, fun j => ?_, ?_, ?_⟩
  · rw [hPoint, hTally, hNotifs]
    exact hGuarded.roles
  · rw [hPoint, hHead]
    obtain rfl | hji := eq_or_ne j i
    · rw [Function.update_self]
      exact .of_role hNew
    · rw [Function.update_of_ne hji]
      exact hGuarded.heads j
  · rw [hNotifs, hHead]
    exact hGuarded.flagged
  · rw [hHead]
    exact hGuarded.empty

/-- Whoever answers for the list is the only one, and the bit is not set. -/
theorem Guarded.sole (hGuarded : Guarded s h) (hRole : (s.point i).role = 1) :
    h.queue ≠ [] ∧ (fields s.dg_state).notifs = false ∧ ∀ j, j ≠ i → (s.point j).role = 0 := by
  have hRoles := hGuarded.roles
  have hWeight := weight_le_tally Point.role s.point i
  have hOne : h.queue ≠ [] ∧ (fields s.dg_state).notifs.toNat = 0 ∧ tally Point.role s.point = 1 := by
    split at hRoles
    · omega
    · exact ⟨‹_›, by omega, by omega⟩
  refine ⟨hOne.1, Bool.toNat_eq_zero.mp hOne.2.1, fun j hji => ?_⟩
  have hTally := tally_update Point.role s.point i .outside
  have hOther := weight_le_tally Point.role (Function.update s.point i .outside) j
  have hNone : Point.role .outside = 0 := rfl
  rw [Function.update_of_ne hji] at hOther
  omega

theorem Guarded.holder (hGuarded : Guarded s h) (hRole : (s.point i).role = 1) (hPoint : s'.point = Function.update s.point i p)
    (hNew : p.role + (fields s'.dg_state).notifs.toNat = if h'.queue = [] then 0 else 1)
    (hHeads : p.Heads s'.dg_notify_head h'.queue.head?)
    (hFlagged : (fields s'.dg_state).notifs = true → s'.dg_notify_head = h'.queue.head?)
    (hEmpty : h'.queue = [] → s'.dg_notify_head = none) : Guarded s' h' := by
  obtain ⟨hQueue, hNotifs, hOthers⟩ := hGuarded.sole hRole
  have hRoles := hGuarded.roles
  have hTally := tally_update Point.role s.point i p
  rw [if_neg hQueue, hNotifs] at hRoles
  have hRoles : tally Point.role s.point = 1 := hRoles
  refine ⟨?_, fun j => ?_, hFlagged, hEmpty⟩
  · rw [hPoint, ← hNew]
    omega
  · rw [hPoint]
    obtain rfl | hji := eq_or_ne j i
    · rwa [Function.update_self]
    · rw [Function.update_of_ne hji]
      exact .of_role (hOthers j hji)

/-- The thread that clears the bit answers for the list from then on. -/
theorem Guarded.clear (hGuarded : Guarded s h) (hPoint : s.point i = .leaveCmpxchg s.dg_state) :
    Guarded ({ s with dg_state := leave_new_state s.dg_state }.goto i (group_wake s.dg_state true)) h := by
  have hTally := tally_update Point.role s.point i (group_wake s.dg_state true)
  rw [hPoint, (Point.weights_group_wake s.dg_state true).1] at hTally
  have hTally : tally Point.role (Function.update s.point i (group_wake s.dg_state true)) =
    tally Point.role s.point + (fields s.dg_state).notifs.toNat := hTally
  refine ⟨?_, fun j => ?_, fun hNotifs => ?_, hGuarded.empty⟩
  · change tally _ (Function.update s.point i _) + (fields (leave_new_state s.dg_state)).notifs.toNat = _
    rw [hTally, Point.notifs_leave_new_state]
    exact hGuarded.roles
  · change (Function.update s.point i _ j).Heads s.dg_notify_head h.queue.head?
    obtain rfl | hji := eq_or_ne j i
    · rw [Function.update_self]
      exact Point.heads_group_wake hGuarded.flagged
    · rw [Function.update_of_ne hji]
      exact hGuarded.heads j
  · change (fields (leave_new_state s.dg_state)).notifs = true at hNotifs
    rw [Point.notifs_leave_new_state] at hNotifs
    cases hNotifs

theorem Guarded.push (hGuarded : Guarded s h) (hListed : Listed s h) {dsn : Nat} (hPoint : s.point i = .pushTail dsn) :
    Guarded (mpsc_push_update_tail s i dsn) { h with queue := h.queue ++ [dsn], succ := appendTo h.succ s.dg_notify_tail dsn } := by
  have hNotEmpty : h.queue ++ [dsn] ≠ [] := List.append_ne_nil_of_right_ne_nil _ (List.cons_ne_nil _ _)
  have hRoles := hGuarded.roles
  unfold mpsc_push_update_tail
  cases hTail : s.dg_notify_tail with
  | none =>
    have hEmpty : h.queue = [] := List.getLast?_eq_none_iff.mp (hListed.tail.symm.trans hTail)
    have hHead := hGuarded.empty hEmpty
    rw [if_pos hEmpty] at hRoles
    have hNotifs : (fields s.dg_state).notifs = false := Bool.toNat_eq_zero.mp (by omega)
    have hOthers := tally_eq_zero_iff.mp (show tally Point.role s.point = 0 by omega)
    have hTally := tally_update Point.role s.point i (.retainNotified dsn)
    rw [hPoint] at hTally
    have hTally : tally Point.role (Function.update s.point i (.retainNotified dsn)) = tally Point.role s.point + 1 := hTally
    refine ⟨?_, fun j => ?_, fun hFlag => ?_, fun hNone => absurd hNone hNotEmpty⟩
    · change tally _ (Function.update s.point i (.retainNotified dsn)) + (fields s.dg_state).notifs.toNat =
        if h.queue ++ [dsn] = [] then 0 else 1
      rw [if_neg hNotEmpty, hTally]
      omega
    · change (Function.update s.point i (.retainNotified dsn) j).Heads s.dg_notify_head (h.queue ++ [dsn]).head?
      obtain rfl | hji := eq_or_ne j i
      · rw [Function.update_self, hEmpty]
        exact ⟨hHead, rfl⟩
      · rw [Function.update_of_ne hji]
        exact .of_role (hOthers j)
    · change (fields s.dg_state).notifs = true at hFlag
      rw [hNotifs] at hFlag
      cases hFlag
  | some tail =>
    have hQueue : h.queue ≠ [] := by
      intro hEmpty
      have hLast := hListed.tail.symm.trans hTail
      rw [hEmpty] at hLast
      cases hLast
    have hFirst : (h.queue ++ [dsn]).head? = h.queue.head? := List.head?_append_of_ne_nil _ hQueue
    have hTally := tally_update Point.role s.point i (.pushPrev (some tail) dsn)
    rw [hPoint] at hTally
    have hTally : tally Point.role (Function.update s.point i (.pushPrev (some tail) dsn)) = tally Point.role s.point := hTally
    refine ⟨?_, fun j => ?_, fun hFlag => ?_, fun hNone => absurd hNone hNotEmpty⟩
    · change tally _ (Function.update s.point i (.pushPrev (some tail) dsn)) + _ = if h.queue ++ [dsn] = [] then 0 else 1
      rw [if_neg hQueue] at hRoles
      rw [if_neg hNotEmpty, hTally]
      exact hRoles
    · change (Function.update s.point i (.pushPrev (some tail) dsn) j).Heads s.dg_notify_head (h.queue ++ [dsn]).head?
      rw [hFirst]
      obtain rfl | hji := eq_or_ne j i
      · rw [Function.update_self]
        trivial
      · rw [Function.update_of_ne hji]
        exact hGuarded.heads j
    · exact (hGuarded.flagged hFlag).trans hFirst.symm

omit [DecidableEq ι] in
theorem Guarded.woken (hGuarded : Guarded s h) : Guarded { s with point := fun j => (s.point j).woken } h where
  roles := by
    have hTally : tally Point.role (fun j => (s.point j).woken) = tally Point.role s.point :=
      tally_congr fun j => (s.point j).weights_woken.1
    rw [hTally]
    exact hGuarded.roles
  heads j := Point.heads_woken.mpr (hGuarded.heads j)
  flagged := hGuarded.flagged
  empty := hGuarded.empty

omit [Fintype ι] in
theorem after_queue (h : History ι) (hPush : ∀ dsn, s.point i ≠ .pushTail dsn)
    (hTake : ∀ dg_state needs_release head, s.point i ≠ .takeTail dg_state needs_release head) :
    (h.after s i).queue = h.queue := by
  unfold History.after
  cases hPoint : s.point i with
  | pushTail dsn => exact absurd hPoint (hPush dsn)
  | takeTail => exact absurd hPoint (hTake _ _ _)
  | _ => rfl

omit [Fintype ι] [DecidableEq ι] in
theorem notifs_enter (f : Fields) : f.enter.notifs = f.notifs := rfl

omit [Fintype ι] [DecidableEq ι] in
theorem flags_leave (f : Fields) : f.leave.notifs = f.notifs ∧ f.leave.waiters = f.waiters := by
  unfold Fields.leave
  split <;> exact ⟨rfl, rfl⟩

omit [Fintype ι] in
theorem after_queue_of_point (h : History ι) {q : Point} (hPoint : s.point i = q) (hPush : ∀ dsn, q ≠ .pushTail dsn)
    (hTake : ∀ dg_state needs_release head, q ≠ .takeTail dg_state needs_release head) :
    (h.after s i).queue = h.queue := after_queue h (hPoint ▸ hPush) (hPoint ▸ hTake)

theorem guarded_of_moves (hListed : Listed s h) (hGuarded : Guarded s h) (hMoves : Moves s i s')
    (hAlive : s'.crashed = none) : Guarded s' (h.after s i) := by
  cases hMoves with
  | begins call hPoint =>
    have hQueue : (h.after s i).queue = h.queue := by
      apply after_queue <;> (intros; intro hAt; rw [hAt] at hPoint; cases hPoint)
    have hOld := (Point.weights_of_waits (.inr hPoint)).1
    refine Guarded.of_history ?_ hQueue
    cases call <;> exact hGuarded.goto rfl rfl rfl hOld rfl
  | overflows | unbalanced => cases hAlive
  | enters word hPoint hRoom hWord =>
    refine Guarded.of_history ?_ (after_queue_of_point h hPoint (fun _ => Point.noConfusion) fun _ _ _ => Point.noConfusion)
    refine hGuarded.goto rfl ((congrArg Fields.notifs hWord).trans (notifs_enter _)) rfl (hPoint ▸ rfl) ?_
    split <;> rfl
  | leaves word hPoint _ hWord =>
    refine Guarded.of_history ?_ (after_queue_of_point h hPoint (fun _ => Point.noConfusion) fun _ _ _ => Point.noConfusion)
    exact hGuarded.goto rfl ((congrArg Fields.notifs hWord).trans (flags_leave _).1) rfl (hPoint ▸ rfl) rfl
  | leavesLast word hPoint _ hWord =>
    refine Guarded.of_history ?_ (after_queue_of_point h hPoint (fun _ => Point.noConfusion) fun _ _ _ => Point.noConfusion)
    exact hGuarded.goto rfl ((congrArg Fields.notifs hWord).trans (flags_leave _).1) rfl (hPoint ▸ rfl) (Point.weights_leave_loop word).1
  | retainsEntered hPoint | releases _ hPoint | links _ _ hPoint =>
    refine Guarded.of_history ?_ (after_queue_of_point h hPoint (fun _ => Point.noConfusion) fun _ _ _ => Point.noConfusion)
    exact hGuarded.goto rfl rfl rfl (hPoint ▸ rfl) rfl
  | clears hPoint =>
    refine Guarded.of_history ?_ (after_queue_of_point h hPoint (fun _ => Point.noConfusion) fun _ _ _ => Point.noConfusion)
    exact hGuarded.clear hPoint
  | reloads old_state hPoint =>
    refine Guarded.of_history ?_ (after_queue_of_point h hPoint (fun _ => Point.noConfusion) fun _ _ _ => Point.noConfusion)
    exact hGuarded.goto rfl rfl rfl (hPoint ▸ rfl) (Point.weights_leave_loop _).1
  | getsHead dg_state needs_release head hPoint hHead =>
    have hQueue := after_queue_of_point h hPoint (fun _ => Point.noConfusion) fun _ _ _ => Point.noConfusion
    have hRole : (s.point i).role = 1 := hPoint ▸ rfl
    obtain ⟨hNotEmpty, hNotifs, _⟩ := hGuarded.sole hRole
    have hFirst := hGuarded.heads i
    rw [hPoint] at hFirst
    refine Guarded.of_history (hGuarded.holder hRole rfl ?_ ⟨hHead, hFirst.symm.trans hHead⟩ (fun _ => hFirst) ?_) hQueue
    · rw [if_neg hNotEmpty]
      exact congrArg (1 + ·.toNat) hNotifs
    · exact fun hEmpty => absurd hEmpty hNotEmpty
  | clearsHead dg_state needs_release head hPoint =>
    have hQueue := after_queue_of_point h hPoint (fun _ => Point.noConfusion) fun _ _ _ => Point.noConfusion
    have hRole : (s.point i).role = 1 := hPoint ▸ rfl
    obtain ⟨hNotEmpty, hNotifs, _⟩ := hGuarded.sole hRole
    have hFirst := hGuarded.heads i
    rw [hPoint] at hFirst
    refine Guarded.of_history (hGuarded.holder hRole rfl ?_ ⟨rfl, hFirst.2⟩ (fun hFlag => ?_) fun _ => rfl) hQueue
    · rw [if_neg hNotEmpty]
      exact congrArg (1 + ·.toNat) hNotifs
    · exact absurd (hNotifs.symm.trans hFlag) Bool.false_ne_true
  | takesTail dg_state needs_release head tail hPoint hTail =>
    have hRole : (s.point i).role = 1 := hPoint ▸ rfl
    obtain ⟨_, hNotifs, _⟩ := hGuarded.sole hRole
    have hFirst := hGuarded.heads i
    rw [hPoint] at hFirst
    rw [History.after, hPoint]
    refine hGuarded.holder hRole rfl ?_ trivial (fun hFlag => ?_) fun _ => hFirst.1
    · exact congrArg (0 + ·.toNat) hNotifs
    · exact absurd (hNotifs.symm.trans hFlag) Bool.false_ne_true
  | submitsLast dg_state needs_release dc hPoint =>
    refine Guarded.of_history ?_ (after_queue_of_point h hPoint (fun _ => Point.noConfusion) fun _ _ _ => Point.noConfusion)
    exact hGuarded.goto rfl rfl rfl (hPoint ▸ rfl) (Point.weights_wake_waiters ..).1
  | submits dg_state needs_release dc next_dc tail hPoint =>
    refine Guarded.of_history ?_ (after_queue_of_point h hPoint (fun _ => Point.noConfusion) fun _ _ _ => Point.noConfusion)
    exact hGuarded.goto rfl rfl rfl (hPoint ▸ rfl) rfl
  | wakes refs hPoint =>
    refine Guarded.of_history ?_ (after_queue_of_point h hPoint (fun _ => Point.noConfusion) fun _ _ _ => Point.noConfusion)
    refine hGuarded.woken.goto rfl rfl rfl ?_ (Point.weights_release_refs refs).1
    change (s.point i).woken.role = 0
    rw [hPoint]
    rfl
  | pushes dsn hPoint =>
    rw [History.after, hPoint]
    exact hGuarded.push hListed hPoint
  | retainsNotified dsn hPoint =>
    have hQueue := after_queue_of_point h hPoint (fun _ => Point.noConfusion) fun _ _ _ => Point.noConfusion
    have hRole : (s.point i).role = 1 := hPoint ▸ rfl
    obtain ⟨hNotEmpty, hNotifs, _⟩ := hGuarded.sole hRole
    have hFirst := hGuarded.heads i
    rw [hPoint] at hFirst
    refine Guarded.of_history (hGuarded.holder hRole rfl ?_ hFirst hGuarded.flagged hGuarded.empty) hQueue
    rw [if_neg hNotEmpty]
    exact congrArg (1 + ·.toNat) hNotifs
  | setsHead dsn hPoint =>
    have hQueue := after_queue_of_point h hPoint (fun _ => Point.noConfusion) fun _ _ _ => Point.noConfusion
    have hRole : (s.point i).role = 1 := hPoint ▸ rfl
    obtain ⟨hNotEmpty, hNotifs, _⟩ := hGuarded.sole hRole
    have hFirst := hGuarded.heads i
    rw [hPoint] at hFirst
    refine Guarded.of_history (hGuarded.holder hRole rfl ?_ hFirst.2.symm (fun _ => hFirst.2.symm) ?_) hQueue
    · rw [if_neg hNotEmpty]
      exact congrArg (1 + ·.toNat) hNotifs
    · exact fun hEmpty => absurd hEmpty hNotEmpty
  | looks hPoint =>
    have hQueue : (h.after s i).queue = h.queue := by
      obtain hPoint | ⟨old, hPoint⟩ := hPoint <;>
        exact after_queue_of_point h hPoint (fun _ => Point.noConfusion) fun _ _ _ => Point.noConfusion
    have hRole : (s.point i).role = 1 := by obtain hPoint | ⟨old, hPoint⟩ := hPoint <;> rw [hPoint] <;> rfl
    have hFirst : s.dg_notify_head = h.queue.head? := by
      have hFirst := hGuarded.heads i
      obtain hPoint | ⟨old, hPoint⟩ := hPoint <;> rwa [hPoint] at hFirst
    obtain ⟨hNotEmpty, hNotifs, _⟩ := hGuarded.sole hRole
    refine Guarded.of_history (hGuarded.holder hRole rfl ?_ (Point.heads_notify_loop hFirst) (fun _ => hFirst) ?_) hQueue
    · rw [if_neg hNotEmpty, (Point.weights_notify_loop _).1]
      exact congrArg (1 + ·.toNat) hNotifs
    · exact fun hEmpty => absurd hEmpty hNotEmpty
  | announces hPoint =>
    have hQueue := after_queue_of_point h hPoint (fun _ => Point.noConfusion) fun _ _ _ => Point.noConfusion
    have hRole : (s.point i).role = 1 := hPoint ▸ rfl
    have hFirst := hGuarded.heads i
    rw [hPoint] at hFirst
    obtain ⟨hNotEmpty, _, _⟩ := hGuarded.sole hRole
    refine Guarded.of_history (hGuarded.holder hRole rfl ?_ trivial (fun _ => hFirst) ?_) hQueue
    · rw [if_neg hNotEmpty]
      change 0 + (fields (s.dg_state ||| DISPATCH_GROUP_HAS_NOTIFS)).notifs.toNat = 1
      rw [fields_or_notifs]
      rfl
    · exact fun hEmpty => absurd hEmpty hNotEmpty
  | waits p hWaits =>
    obtain ⟨hOld, hNew⟩ := hWaits.points
    have hQueue : (h.after s i).queue = h.queue := by
      apply after_queue <;> (intros; intro hAt; rw [hAt] at hOld; cases hOld)
    refine Guarded.of_history ?_ hQueue
    exact hGuarded.goto rfl rfl rfl (Point.weights_of_waits (.inl hOld)).1 (Point.weights_of_waits hNew).1
  | setsWaiters timeout hPoint =>
    refine Guarded.of_history ?_ (after_queue_of_point h hPoint (fun _ => Point.noConfusion) fun _ _ _ => Point.noConfusion)
    refine hGuarded.goto rfl ?_ rfl (hPoint ▸ rfl) rfl
    change (fields (s.dg_state ||| DISPATCH_GROUP_HAS_WAITERS)).notifs = _
    rw [fields_or_waiters]

end Guarded

namespace Point

/-- What a thread knows of the value that it is about to compare the state with. -/
def Sound : Point → Prop
  | notifyCmpxchg old_state => dg_bits old_state ≠ 0#32
  | waitCmpxchg _ old_state => (fields old_state).count ≠ 0
  | _ => True

theorem sound_release_refs (refs : Nat) : (release_refs refs).Sound := by
  unfold release_refs
  split <;> trivial

theorem sound_wake_waiters (dg_state : BitVec 64) (refs : Nat) : (wake_waiters dg_state refs).Sound := by
  unfold wake_waiters
  split
  · trivial
  · exact sound_release_refs refs

theorem sound_group_wake (dg_state : BitVec 64) (needs_release : Bool) : (group_wake dg_state needs_release).Sound := by
  unfold group_wake
  split
  · trivial
  · exact sound_wake_waiters ..

theorem sound_leave_loop (w : BitVec 64) : (leave_loop w).Sound := by
  unfold leave_loop
  split
  · exact sound_group_wake ..
  · trivial

theorem sound_notify_loop (w : BitVec 64) : (notify_loop w).Sound := by
  unfold notify_loop
  split
  · exact sound_group_wake ..
  · exact ‹_›

theorem sound_wait_loop (timeout : UInt64) (w : BitVec 64) : (wait_loop timeout w).Sound := by
  unfold wait_loop
  split
  · trivial
  · split
    · trivial
    · split
      · trivial
      · exact mt (empty_iff w).mpr ‹_›

theorem sound_woken {p : Point} : p.woken.Sound ↔ p.Sound := by cases p <;> rfl

end Point

theorem count_leave_new_state (w : BitVec 64) : (fields (leave_new_state w)).count = (fields w).count := by
  unfold leave_new_state
  split
  · rw [fields_clear_notifs, fields_clear_waiters]
    rfl
  · rw [fields_clear_notifs]
    rfl

theorem waiters_leave_new_state {w : BitVec 64} (h : (fields w).count = 0) : (fields (leave_new_state w)).waiters = false := by
  rw [leave_new_state, if_pos ((empty_iff w).mpr h), fields_clear_notifs, fields_clear_waiters]

/-- The thread that finds the group empty does not leave the bits as they are. -/
theorem leave_loop_of_flags {w : BitVec 64} (hEmpty : (fields w).count = 0)
    (hFlags : (fields w).notifs = true ∨ (fields w).waiters = true) : leave_loop w = .leaveCmpxchg w := by
  refine if_neg fun hSame => ?_
  have hNotifs := Point.notifs_leave_new_state w
  have hWaiters := waiters_leave_new_state hEmpty
  rw [← hSame] at hNotifs hWaiters
  rw [hNotifs, hWaiters] at hFlags
  obtain h | h := hFlags <;> cases h

section Safe

variable {s s' : State ι} {h h' : History ι} {i : ι} {p : Point}

omit [Fintype ι] in
theorem sound_of_moves (hSound : ∀ j, (s.point j).Sound) (hMoves : Moves s i s') : ∀ j, (s'.point j).Sound := by
  have hGoto : ∀ (t : State ι) (p : Point), (∀ j, (t.point j).Sound) → p.Sound → ∀ j, ((t.goto i p).point j).Sound := by
    intro t p ht hp j
    change (Function.update t.point i p j).Sound
    obtain rfl | hji := eq_or_ne j i
    · rwa [Function.update_self]
    · rw [Function.update_of_ne hji]
      exact ht j
  cases hMoves with
  | begins call => cases call <;> exact hGoto _ _ hSound trivial
  | overflows | unbalanced => exact hSound
  | enters =>
    refine hGoto _ _ hSound ?_
    split <;> trivial
  | leavesLast word => exact hGoto _ _ hSound (Point.sound_leave_loop word)
  | clears => exact hGoto _ _ hSound (Point.sound_group_wake ..)
  | reloads => exact hGoto _ _ hSound (Point.sound_leave_loop _)
  | submitsLast => exact hGoto _ _ hSound (Point.sound_wake_waiters ..)
  | wakes refs => exact hGoto _ _ (fun j => Point.sound_woken.mpr (hSound j)) (Point.sound_release_refs refs)
  | pushes dsn =>
    refine hGoto _ _ hSound ?_
    split <;> trivial
  | looks => exact hGoto _ _ hSound (Point.sound_notify_loop _)
  | waits p hWaits =>
    refine hGoto _ _ hSound ?_
    cases hWaits with
    | loads timeout => exact Point.sound_wait_loop timeout _
    | _ => trivial
  | _ => exact hGoto _ _ hSound trivial

/-- As long as the group is empty and a bit is set, a thread that has left is about to clear it. -/
def Pending (s : State ι) : Prop :=
  s.count = 0 → (fields s.dg_state).notifs = true ∨ (fields s.dg_state).waiters = true →
    ∃ j old_state, s.point j = .leaveCmpxchg old_state

omit [Fintype ι] in
theorem Pending.goto (hPending : Pending s) (hWord : s'.dg_state = s.dg_state) (hPoint : s'.point = Function.update s.point i p)
    (hOld : ∀ old_state, s.point i ≠ .leaveCmpxchg old_state) : Pending s' := by
  unfold Pending State.count
  rw [hWord]
  intro hEmpty hFlags
  obtain ⟨j, old_state, hj⟩ := hPending hEmpty hFlags
  refine ⟨j, old_state, ?_⟩
  have hji : j ≠ i := by
    rintro rfl
    exact hOld old_state hj
  rwa [hPoint, Function.update_of_ne hji]

omit [Fintype ι] in
theorem pending_of_moves (hPending : Pending s) (hSound : ∀ j, (s.point j).Sound) (hMoves : Moves s i s')
    (hAlive : s'.crashed = none) : Pending s' := by
  cases hMoves with
  | begins call hPoint =>
    have hOld : ∀ old_state, s.point i ≠ .leaveCmpxchg old_state := by
      intro old_state hAt
      rw [hAt] at hPoint
      cases hPoint
    cases call <;> exact hPending.goto rfl rfl hOld
  | overflows | unbalanced => cases hAlive
  | enters word hPoint hRoom hWord =>
    intro hEmpty
    have hCount := (congrArg Fields.count hWord).trans (Fields.count_enter hRoom)
    exact absurd (hCount.symm.trans hEmpty) (Nat.succ_ne_zero _)
  | leaves word hPoint hMore hWord =>
    intro hEmpty
    have hCount := (congrArg Fields.count hWord).trans (Fields.count_leave (Nat.ne_zero_of_lt hMore))
    have hZero := hCount.symm.trans hEmpty
    unfold State.count at hMore
    omega
  | leavesLast word hPoint hLast hWord =>
    intro hEmpty hFlags
    refine ⟨i, word, ?_⟩
    change Function.update s.point i (leave_loop word) i = _
    rw [Function.update_self]
    exact leave_loop_of_flags hEmpty hFlags
  | clears hPoint =>
    intro hEmpty hFlags
    have hZero : s.count = 0 := (count_leave_new_state s.dg_state).symm.trans hEmpty
    change (fields (leave_new_state s.dg_state)).notifs = true ∨ (fields (leave_new_state s.dg_state)).waiters = true at hFlags
    rw [Point.notifs_leave_new_state, waiters_leave_new_state hZero] at hFlags
    obtain hFlag | hFlag := hFlags <;> cases hFlag
  | reloads old_state hPoint =>
    intro hEmpty hFlags
    refine ⟨i, s.dg_state, ?_⟩
    change Function.update s.point i (leave_loop s.dg_state) i = _
    rw [Function.update_self]
    exact leave_loop_of_flags hEmpty hFlags
  | announces hPoint =>
    intro hEmpty _
    have hCount : (fields (s.dg_state ||| DISPATCH_GROUP_HAS_NOTIFS)).count = s.count := count_or_notifs _
    have hZero : s.count = 0 := hCount.symm.trans hEmpty
    have hFlags : (fields s.dg_state).notifs = true ∨ (fields s.dg_state).waiters = true := by
      have hBits := hSound i
      rw [hPoint, Point.Sound, ne_eq, idle_iff] at hBits
      by_contra hNone
      rw [not_or, Bool.not_eq_true, Bool.not_eq_true] at hNone
      exact hBits ⟨hZero, hNone⟩
    obtain ⟨j, old_state, hj⟩ := hPending hZero hFlags
    have hji : j ≠ i := by
      rintro rfl
      rw [hPoint] at hj
      cases hj
    exact ⟨j, old_state, (Function.update_of_ne hji ..).trans hj⟩
  | setsWaiters timeout hPoint =>
    intro hEmpty
    have hCount : (fields (s.dg_state ||| DISPATCH_GROUP_HAS_WAITERS)).count = s.count := count_or_waiters _
    have hSome := hSound i
    rw [hPoint] at hSome
    exact absurd (hCount.symm.trans hEmpty) hSome
  | wakes refs hPoint =>
    intro hEmpty hFlags
    obtain ⟨j, old_state, hj⟩ := hPending hEmpty hFlags
    have hji : j ≠ i := by
      rintro rfl
      rw [hPoint] at hj
      cases hj
    refine ⟨j, old_state, (Function.update_of_ne hji ..).trans ?_⟩
    dsimp only
    rw [hj]
    rfl
  | looks hPoint =>
    refine hPending.goto rfl rfl ?_
    obtain hPoint | ⟨old, hPoint⟩ := hPoint <;> rw [hPoint] <;> exact fun _ => Point.noConfusion
  | waits p hWaits =>
    refine hPending.goto rfl rfl fun old_state hAt => ?_
    have hOld := hWaits.points.1
    rw [hAt] at hOld
    cases hOld
  | retainsEntered hPoint | getsHead _ _ _ hPoint | clearsHead _ _ _ hPoint | takesTail _ _ _ _ hPoint | submitsLast _ _ _ hPoint
  | submits _ _ _ _ _ hPoint | releases _ hPoint | pushes _ hPoint | retainsNotified _ hPoint | links _ _ hPoint
  | setsHead _ hPoint =>
    exact hPending.goto rfl rfl (by rw [hPoint]; exact fun _ => Point.noConfusion)

/-- One reference for the entries and one for the notifications, apart from those that a thread has
yet to take or to give back. -/
def References (s : State ι) (h : History ι) : Prop :=
  s.do_ref_cnt + tally Point.owes s.point =
    (if s.count = 0 then 0 else 1) + (if h.queue = [] then 0 else 1) + tally Point.holds s.point

theorem references_goto {a a' b b' : Int} (hRefs : s.do_ref_cnt + tally Point.owes s.point = a + b + tally Point.holds s.point)
    (hPoint : s'.point = Function.update s.point i p)
    (hStep : s'.do_ref_cnt + p.owes + a + b + (s.point i).holds = s.do_ref_cnt + (s.point i).owes + a' + b' + p.holds) :
    s'.do_ref_cnt + tally Point.owes s'.point = a' + b' + tally Point.holds s'.point := by
  have hOwes := tally_update Point.owes s.point i p
  have hHolds := tally_update Point.holds s.point i p
  rw [hPoint]
  omega

theorem References.goto (hRefs : References s h) (hCount : s'.count = s.count) (hQueue : h'.queue = h.queue)
    (hCnt : s'.do_ref_cnt = s.do_ref_cnt) (hPoint : s'.point = Function.update s.point i p)
    (hOwes : p.owes = (s.point i).owes) (hHolds : p.holds = (s.point i).holds) : References s' h' := by
  unfold References at hRefs ⊢
  rw [hCount, hQueue]
  refine references_goto hRefs hPoint ?_
  rw [hCnt, hOwes, hHolds]

omit [DecidableEq ι] in
theorem References.woken (hRefs : References s h) : References { s with point := fun j => (s.point j).woken } h := by
  have hOwes : tally Point.owes (fun j => (s.point j).woken) = tally Point.owes s.point :=
    tally_congr fun j => (s.point j).weights_woken.2.1
  have hHolds : tally Point.holds (fun j => (s.point j).woken) = tally Point.holds s.point :=
    tally_congr fun j => (s.point j).weights_woken.2.2
  unfold References at hRefs ⊢
  rw [hOwes, hHolds]
  exact hRefs

theorem references_of_moves (hListed : Listed s h) (hGuarded : Guarded s h) (hRefs : References s h) (hMoves : Moves s i s')
    (hAlive : s'.crashed = none) : References s' (h.after s i) := by
  cases hMoves with
  | begins call hPoint =>
    have hQueue : (h.after s i).queue = h.queue := by
      apply after_queue <;> (intros; intro hAt; rw [hAt] at hPoint; cases hPoint)
    obtain ⟨_, hOwes, hHolds, _⟩ := Point.weights_of_waits (.inr hPoint)
    cases call <;> exact hRefs.goto rfl hQueue rfl rfl hOwes.symm hHolds.symm
  | overflows | unbalanced => cases hAlive
  | enters word hPoint hRoom hWord =>
    have hQueue := after_queue_of_point h hPoint (fun _ => Point.noConfusion) fun _ _ _ => Point.noConfusion
    have hCount : (fields word).count = s.count + 1 := (congrArg Fields.count hWord).trans (Fields.count_enter hRoom)
    unfold References at hRefs ⊢
    rw [hQueue]
    refine references_goto hRefs rfl ?_
    change s.do_ref_cnt + _ + _ + _ + _ = s.do_ref_cnt + _ + (if (fields word).count = 0 then 0 else 1) + _ + _
    rw [hCount, if_neg (Nat.succ_ne_zero _), hPoint]
    split
    · simp only [Point.owes, Point.holds]
      omega
    · rfl
  | leaves word hPoint hMore hWord =>
    have hQueue := after_queue_of_point h hPoint (fun _ => Point.noConfusion) fun _ _ _ => Point.noConfusion
    have hZero : s.count ≠ 0 := Nat.ne_zero_of_lt hMore
    have hCount : (fields word).count = s.count - 1 := (congrArg Fields.count hWord).trans (Fields.count_leave hZero)
    unfold References at hRefs ⊢
    rw [hQueue]
    refine references_goto hRefs rfl ?_
    change s.do_ref_cnt + _ + _ + _ + _ = s.do_ref_cnt + _ + (if (fields word).count = 0 then 0 else 1) + _ + _
    rw [hCount, if_neg hZero, if_neg (show s.count - 1 ≠ 0 by omega), hPoint]
    rfl
  | leavesLast word hPoint hLast hWord =>
    have hQueue := after_queue_of_point h hPoint (fun _ => Point.noConfusion) fun _ _ _ => Point.noConfusion
    have hZero : s.count ≠ 0 := by omega
    have hCount : (fields word).count = 0 := by
      have hLeft := (congrArg Fields.count hWord).trans (Fields.count_leave hZero)
      unfold State.count at hLast
      omega
    obtain ⟨_, hOwes, hHolds, _⟩ := Point.weights_leave_loop word
    unfold References at hRefs ⊢
    rw [hQueue]
    refine references_goto hRefs rfl ?_
    change s.do_ref_cnt + _ + _ + _ + _ = s.do_ref_cnt + _ + (if (fields word).count = 0 then 0 else 1) + _ + _
    rw [hCount, if_neg hZero, if_pos rfl, hPoint, hOwes, hHolds]
    simp only [Point.owes, Point.holds]
    omega
  | retainsEntered hPoint | retainsNotified _ hPoint =>
    have hQueue := after_queue_of_point h hPoint (fun _ => Point.noConfusion) fun _ _ _ => Point.noConfusion
    unfold References at hRefs ⊢
    rw [hQueue]
    refine references_goto hRefs rfl ?_
    rw [hPoint]
    simp only [State.goto, State.count, Point.owes, Point.holds]
    omega
  | clears hPoint =>
    have hQueue := after_queue_of_point h hPoint (fun _ => Point.noConfusion) fun _ _ _ => Point.noConfusion
    obtain ⟨_, hOwes, hHolds, _⟩ := Point.weights_group_wake s.dg_state true
    exact hRefs.goto (count_leave_new_state _) hQueue rfl rfl (by rw [hPoint]; exact hOwes) (by rw [hPoint]; exact hHolds)
  | reloads old_state hPoint =>
    have hQueue := after_queue_of_point h hPoint (fun _ => Point.noConfusion) fun _ _ _ => Point.noConfusion
    obtain ⟨_, hOwes, hHolds, _⟩ := Point.weights_leave_loop s.dg_state
    exact hRefs.goto rfl hQueue rfl rfl (by rw [hPoint]; exact hOwes) (by rw [hPoint]; exact hHolds)
  | getsHead _ _ _ hPoint | clearsHead _ _ _ hPoint | links _ _ hPoint | setsHead _ hPoint | submits _ _ _ _ _ hPoint =>
    have hQueue := after_queue_of_point h hPoint (fun _ => Point.noConfusion) fun _ _ _ => Point.noConfusion
    exact hRefs.goto rfl hQueue rfl rfl (by rw [hPoint]; rfl) (by rw [hPoint]; rfl)
  | takesTail dg_state needs_release head tail hPoint hTail =>
    obtain ⟨hNotEmpty, _, _⟩ := hGuarded.sole (hPoint ▸ rfl : (s.point i).role = 1)
    unfold References at hRefs ⊢
    rw [History.after, hPoint]
    refine references_goto hRefs rfl ?_
    rw [if_neg hNotEmpty, if_pos rfl, hPoint]
    simp only [State.goto, State.count, Point.owes, Point.holds]
    omega
  | submitsLast dg_state needs_release dc hPoint =>
    have hQueue := after_queue_of_point h hPoint (fun _ => Point.noConfusion) fun _ _ _ => Point.noConfusion
    obtain ⟨_, hOwes, hHolds, _⟩ := Point.weights_wake_waiters dg_state ((if needs_release then 1 else 0) + 1)
    refine hRefs.goto rfl hQueue rfl rfl (by rw [hPoint]; exact hOwes) (hHolds.trans ?_)
    rw [hPoint, Point.toNat_ite]
    rfl
  | wakes refs hPoint =>
    have hQueue := after_queue_of_point h hPoint (fun _ => Point.noConfusion) fun _ _ _ => Point.noConfusion
    obtain ⟨_, hOwes, hHolds, _⟩ := Point.weights_release_refs refs
    refine hRefs.woken.goto rfl hQueue rfl rfl ?_ ?_
    · change _ = (s.point i).woken.owes
      rw [hPoint]
      exact hOwes
    · change _ = (s.point i).woken.holds
      rw [hPoint]
      exact hHolds
  | releases refs hPoint =>
    have hQueue := after_queue_of_point h hPoint (fun _ => Point.noConfusion) fun _ _ _ => Point.noConfusion
    unfold References at hRefs ⊢
    rw [hQueue]
    refine references_goto hRefs rfl ?_
    rw [hPoint]
    simp only [State.goto, State.count, Point.owes, Point.holds]
    omega
  | pushes dsn hPoint =>
    have hNotEmpty : h.queue ++ [dsn] ≠ [] := List.append_ne_nil_of_right_ne_nil _ (List.cons_ne_nil _ _)
    have hTail : s.dg_notify_tail = none ↔ h.queue = [] := by
      rw [hListed.tail]
      exact List.getLast?_eq_none_iff
    unfold References at hRefs ⊢
    rw [History.after, hPoint]
    refine references_goto hRefs rfl ?_
    rw [if_neg hNotEmpty, hPoint]
    simp only [mpsc_push_update_tail, State.goto, State.count, Option.isNone_iff_eq_none, hTail]
    split
    · simp only [Point.owes, Point.holds]
      omega
    · cases hSome : s.dg_notify_tail with
      | none => exact absurd (hTail.mp hSome) ‹_›
      | some tail => rfl
  | looks hPoint =>
    have hQueue : (h.after s i).queue = h.queue := by
      obtain hPoint | ⟨old, hPoint⟩ := hPoint <;>
        exact after_queue_of_point h hPoint (fun _ => Point.noConfusion) fun _ _ _ => Point.noConfusion
    obtain ⟨_, hOwes, hHolds, _⟩ := Point.weights_notify_loop s.dg_state
    refine hRefs.goto rfl hQueue rfl rfl (hOwes.trans ?_) (hHolds.trans ?_) <;>
      obtain hPoint | ⟨old, hPoint⟩ := hPoint <;> rw [hPoint] <;> rfl
  | announces hPoint =>
    have hQueue := after_queue_of_point h hPoint (fun _ => Point.noConfusion) fun _ _ _ => Point.noConfusion
    exact hRefs.goto (count_or_notifs _) hQueue rfl rfl (by rw [hPoint]; rfl) (by rw [hPoint]; rfl)
  | waits p hWaits =>
    obtain ⟨hOld, hNew⟩ := hWaits.points
    have hQueue : (h.after s i).queue = h.queue := by
      apply after_queue <;> (intros; intro hAt; rw [hAt] at hOld; cases hOld)
    obtain ⟨_, hOwes, hHolds, _⟩ := Point.weights_of_waits (.inl hOld)
    obtain ⟨_, hOwes', hHolds', _⟩ := Point.weights_of_waits hNew
    exact hRefs.goto rfl hQueue rfl rfl (hOwes'.trans hOwes.symm) (hHolds'.trans hHolds.symm)
  | setsWaiters timeout hPoint =>
    have hQueue := after_queue_of_point h hPoint (fun _ => Point.noConfusion) fun _ _ _ => Point.noConfusion
    exact hRefs.goto (count_or_waiters _) hQueue rfl rfl (by rw [hPoint]; rfl) (by rw [hPoint]; rfl)

structure Safe (n : Nat) (s : State ι) (h : History ι) : Prop where
  listed : Listed s h
  guarded : Guarded s h
  references : References s h
  sound : ∀ i, (s.point i).Sound
  pending : Pending s
  balanced : s.count + h.left = n + h.entered

omit [Fintype ι] in
/-- The count says how often the group was entered and not left. -/
theorem balanced_of_moves {n : Nat} (hBalanced : s.count + h.left = n + h.entered) (hMoves : Moves s i s')
    (hAlive : s'.crashed = none) : s'.count + (h.after s i).left = n + (h.after s i).entered := by
  have hKeeps : ∀ (q : Point), s.point i = q → q ≠ .enter → q ≠ .leave →
      (h.after s i).left = h.left ∧ (h.after s i).entered = h.entered := by
    intro q hPoint hEnter hLeave
    unfold History.after
    rw [hPoint]
    cases q <;> first | exact ⟨rfl, rfl⟩ | exact absurd rfl hEnter | exact absurd rfl hLeave
  have hSame : s'.count = s.count → s.point i ≠ .enter → s.point i ≠ .leave →
      s'.count + (h.after s i).left = n + (h.after s i).entered := by
    intro hCount hEnter hLeave
    obtain ⟨hLeft, hEntered⟩ := hKeeps _ rfl hEnter hLeave
    rw [hCount, hLeft, hEntered, hBalanced]
  cases hMoves with
  | overflows | unbalanced => cases hAlive
  | enters word hPoint hRoom hWord =>
    have hCount : (fields word).count = s.count + 1 := (congrArg Fields.count hWord).trans (Fields.count_enter hRoom)
    rw [History.after, hPoint]
    change (fields word).count + h.left = n + (h.entered + 1)
    omega
  | leaves word hPoint hMore hWord =>
    have hCount : (fields word).count = s.count - 1 :=
      (congrArg Fields.count hWord).trans (Fields.count_leave (Nat.ne_zero_of_lt hMore))
    rw [History.after, hPoint]
    change (fields word).count + (h.left + 1) = n + h.entered
    omega
  | leavesLast word hPoint hLast hWord =>
    have hCount : (fields word).count = s.count - 1 :=
      (congrArg Fields.count hWord).trans (Fields.count_leave (hLast.trans_ne Nat.one_ne_zero))
    rw [History.after, hPoint]
    change (fields word).count + (h.left + 1) = n + h.entered
    omega
  | begins call hPoint =>
    have hNot : ∀ q : Point, q.idle = false → s.point i ≠ q := by
      rintro q hq rfl
      rw [hPoint] at hq
      cases hq
    cases call <;> exact hSame rfl (hNot .enter rfl) (hNot .leave rfl)
  | clears hPoint =>
    exact hSame (count_leave_new_state _) (by rw [hPoint]; exact Point.noConfusion) (by rw [hPoint]; exact Point.noConfusion)
  | announces hPoint =>
    exact hSame (count_or_notifs _) (by rw [hPoint]; exact Point.noConfusion) (by rw [hPoint]; exact Point.noConfusion)
  | setsWaiters timeout hPoint =>
    exact hSame (count_or_waiters _) (by rw [hPoint]; exact Point.noConfusion) (by rw [hPoint]; exact Point.noConfusion)
  | looks hPoint =>
    refine hSame rfl ?_ ?_ <;> obtain hPoint | ⟨old, hPoint⟩ := hPoint <;> rw [hPoint] <;> exact Point.noConfusion
  | waits p hWaits =>
    have hOld := hWaits.points.1
    refine hSame rfl ?_ ?_ <;> intro hAt <;> rw [hAt] at hOld <;> cases hOld
  | retainsEntered hPoint | retainsNotified _ hPoint | reloads _ hPoint | getsHead _ _ _ hPoint | clearsHead _ _ _ hPoint
  | takesTail _ _ _ _ hPoint | submitsLast _ _ _ hPoint | submits _ _ _ _ _ hPoint | wakes _ hPoint | releases _ hPoint
  | pushes _ hPoint | links _ _ hPoint | setsHead _ hPoint =>
    exact hSame rfl (by rw [hPoint]; exact Point.noConfusion) (by rw [hPoint]; exact Point.noConfusion)

theorem safe_of_moves {n : Nat} (hSafe : Safe n s h) (hMoves : Moves s i s') (hAlive : s'.crashed = none) :
    Safe n s' (h.after s i) where
  listed := listed_of_moves hSafe.listed hSafe.guarded hMoves hAlive
  guarded := guarded_of_moves hSafe.listed hSafe.guarded hMoves hAlive
  references := references_of_moves hSafe.listed hSafe.guarded hSafe.references hMoves hAlive
  sound := sound_of_moves hSafe.sound hMoves
  pending := pending_of_moves hSafe.pending hSafe.sound hMoves hAlive
  balanced := balanced_of_moves hSafe.balanced hMoves hAlive

end Safe

section Start

variable {n : BitVec 32}

omit [Fintype ι] [DecidableEq ι] in
theorem fields_create (hN : n.toNat < 2 ^ 30) : fields (group_create_with_count ι n).dg_state = ⟨0#32, -n.setWidth 30, false, false⟩ := by
  have hWord : (group_create_with_count ι n).dg_state = (⟨0#32, -n.setWidth 30, false, false⟩ : Fields).word := by
    apply BitVec.eq_of_toNat_eq
    have hFour : (DISPATCH_GROUP_VALUE_INTERVAL.setWidth 32).toNat = 4 := by decide
    rw [toNat_word, group_create_with_count, BitVec.toNat_setWidth, BitVec.toNat_mul, hFour, BitVec.toNat_neg, BitVec.toNat_neg,
      BitVec.toNat_setWidth]
    simp only [BitVec.toNat_ofNat, Bool.toNat_false]
    omega
  rw [hWord, fields_word]

omit [Fintype ι] [DecidableEq ι] in
theorem count_create (hN : n.toNat < 2 ^ 30) : (group_create_with_count ι n).count = n.toNat := by
  rw [State.count, fields_create hN, Fields.count, BitVec.neg_neg, BitVec.toNat_setWidth, Nat.mod_eq_of_lt hN]

omit [DecidableEq ι] in
theorem safe_create (hN : n.toNat < 2 ^ 30) : Safe n.toNat (group_create_with_count ι n) (History.start ι) := by
  have hZero : ∀ weight : Point → Nat, weight .outside = 0 → tally weight (group_create_with_count ι n).point = 0 :=
    fun weight hOutside => tally_eq_zero_iff.mpr fun _ => hOutside
  have hNotifs : (fields (group_create_with_count ι n).dg_state).notifs = false := by rw [fields_create hN]
  have hWaiters : (fields (group_create_with_count ι n).dg_state).waiters = false := by rw [fields_create hN]
  refine ⟨⟨rfl, .nil, fun a ha => ?_, fun a b hab => ?_, fun _ _ => rfl, fun i a b hi => ?_, fun a ha => absurd rfl ha,
    fun _ => rfl, fun d => ?_⟩, ⟨?_, fun _ => trivial, fun hFlag => ?_, fun _ => rfl⟩, ?_, fun _ => trivial,
    fun _ hFlags => ?_, ?_⟩
  · cases ha
  · cases hab
  · cases hi
  · have hSnapshots : tally (List.count d) (History.start ι).snapshot = 0 := tally_eq_zero_iff.mpr fun _ => rfl
    rw [hSnapshots, hZero _ rfl]
    rfl
  · rw [hZero _ rfl, hNotifs]
    rfl
  · rw [hNotifs] at hFlag
    cases hFlag
  · unfold References
    rw [hZero _ rfl, hZero _ rfl, count_create hN]
    change (if n ≠ 0#32 then 1 else 0) + 0 = (if n.toNat = 0 then 0 else 1) + (0 : Int) + 0
    have hNone : n = 0#32 ↔ n.toNat = 0 := BitVec.toNat_inj.symm
    simp only [ne_eq, hNone]
    by_cases hn : n.toNat = 0
    · rw [if_neg (not_not.mpr hn), if_pos hn]
      rfl
    · rw [if_pos hn, if_neg hn]
      rfl
  · rw [hNotifs, hWaiters] at hFlags
    obtain hFlag | hFlag := hFlags <;> cases hFlag
  · rw [count_create hN]
    rfl

/-- The calls do not match: the group is left more often than entered, or entered too often. -/
def Mismatch (n : Nat) (h : History ι) (message : String) : Prop :=
  message = "Unbalanced call to dispatch_group_leave()" ∧ h.left = n + h.entered + 1 ∨
    message = "Too many nested calls to dispatch_group_enter()" ∧ n + h.entered = h.left + 2 ^ 30

omit [Fintype ι] in
theorem mismatch_of_moves {s s' : State ι} {h : History ι} {i : ι} {m : Nat} {message : String}
    (hBalanced : s.count + h.left = m + h.entered) (hBefore : s.crashed = none) (hMoves : Moves s i s')
    (hCrashed : s'.crashed = some message) : Mismatch m (h.after s i) message := by
  have hNone : ∀ {t : State ι} {p : Point}, t.crashed = none → (t.goto i p).crashed ≠ some message := by
    intro t p ht hSome
    rw [State.goto, ht] at hSome
    cases hSome
  cases hMoves with
  | overflows word hPoint hFull =>
    cases hCrashed
    rw [History.after, hPoint]
    exact .inr ⟨rfl, show m + (h.entered + 1) = h.left + 2 ^ 30 by omega⟩
  | unbalanced word hPoint hEmpty =>
    cases hCrashed
    rw [History.after, hPoint]
    exact .inl ⟨rfl, show h.left + 1 = m + h.entered + 1 by omega⟩
  | begins call => cases call <;> exact absurd hCrashed (hNone hBefore)
  | _ => exact absurd hCrashed (hNone hBefore)

theorem safe_of_run (hN : n.toNat < 2 ^ 30) {es : List (Event ι)} {q : State ι × History ι}
    (hRun : ((group ι n).withHistory (History.start ι) note).run es = some q) :
    (q.1.crashed = none → Safe n.toNat q.1 q.2) ∧
      ∀ message, q.1.crashed = some message → Mismatch n.toNat q.2 message := by
  refine Machine.run_induction (P := fun _ (q : State ι × History ι) => (q.1.crashed = none → Safe n.toNat q.1 q.2) ∧
    ∀ message, q.1.crashed = some message → Mismatch n.toNat q.2 message) ?_ ?_ es q hRun
  · exact ⟨fun _ => safe_create hN, fun _ hCrashed => by cases hCrashed⟩
  · intro es q e q' _ ih hStep
    obtain ⟨hStep, hNote⟩ := Machine.withHistory_step.mp hStep
    obtain ⟨hBefore, hMoves⟩ := moves_of_step hStep
    have hSafe := ih.1 hBefore
    rw [hNote]
    exact ⟨safe_of_moves hSafe hMoves, fun message hCrashed => mismatch_of_moves hSafe.balanced hBefore hMoves hCrashed⟩

end Start

section Idle

variable {s : State ι} {h : History ι} {m : Nat}

omit [DecidableEq ι] in
theorem Listed.submitted_nodup (hListed : Listed s h) : s.submitted.Nodup := by
  refine List.nodup_iff_count_le_one.mpr fun d => ?_
  have hOnce := hListed.once d
  split at hOnce <;> omega

omit [DecidableEq ι] in
theorem Listed.somewhere (hListed : Listed s h) (d : Nat) : d < s.allocated ↔
    d ∈ s.submitted ∨ d ∈ h.queue ∨ (∃ i, d ∈ h.snapshot i) ∨ ∃ i, s.point i = .pushTail d := by
  have hOnce := hListed.once d
  constructor
  · intro hLt
    rw [if_pos hLt] at hOnce
    by_contra hNowhere
    push Not at hNowhere
    obtain ⟨hSubmitted, hQueue, hSnapshot, hPush⟩ := hNowhere
    have hTaken : tally (List.count d) h.snapshot = 0 := tally_eq_zero_iff.mpr fun i => List.count_eq_zero.mpr (hSnapshot i)
    have hUnpushed : tally (Point.unpushed d) s.point = 0 := by
      refine tally_eq_zero_iff.mpr fun i => ?_
      unfold Point.unpushed
      split
      · rename_i hPoint
        refine if_neg fun hSame => hPush i ?_
        rw [hPoint, hSame]
      · rfl
    rw [List.count_eq_zero.mpr hSubmitted, List.count_eq_zero.mpr hQueue, hTaken, hUnpushed] at hOnce
    cases hOnce
  · intro hSomewhere
    by_contra hLt
    rw [if_neg hLt] at hOnce
    obtain hIn | hIn | ⟨i, hIn⟩ | ⟨i, hPoint⟩ := hSomewhere
    · have hCount := List.count_pos_iff.mpr hIn
      omega
    · have hCount := List.count_pos_iff.mpr hIn
      omega
    · have hCount := List.count_pos_iff.mpr hIn
      have hWeight := weight_le_tally (List.count d) h.snapshot i
      omega
    · have hUnpushed := unpushed_eq_one hPoint
      omega

omit [DecidableEq ι] in
/-- An empty group that nobody is using has no notifications and holds no references. -/
theorem Safe.of_idle (hSafe : Safe m s h) (hIdle : ∀ i, (s.point i).idle = true) (hEmpty : s.count = 0) :
    (∀ d < s.allocated, d ∈ s.submitted) ∧ s.do_ref_cnt = 0 ∧ group_dispose s = none := by
  have hWeights := fun i => Point.weights_of_waits (.inr (hIdle i))
  have hFlags : (fields s.dg_state).notifs = false ∧ (fields s.dg_state).waiters = false := by
    by_contra hSome
    have hSome : (fields s.dg_state).notifs = true ∨ (fields s.dg_state).waiters = true := by
      by_contra hNone
      rw [not_or, Bool.not_eq_true, Bool.not_eq_true] at hNone
      exact hSome hNone
    obtain ⟨j, old_state, hj⟩ := hSafe.pending hEmpty hSome
    have hBusy := hIdle j
    rw [hj] at hBusy
    cases hBusy
  have hQueue : h.queue = [] := by
    by_contra hNotEmpty
    have hRoles := hSafe.guarded.roles
    rw [if_neg hNotEmpty, tally_eq_zero_iff.mpr fun i => (hWeights i).1, hFlags.1] at hRoles
    cases hRoles
  refine ⟨fun d hd => ?_, ?_, if_neg (not_not.mpr ((idle_iff _).mpr ⟨hEmpty, hFlags⟩))⟩
  · obtain hIn | hIn | ⟨i, hIn⟩ | ⟨i, hPoint⟩ := (hSafe.listed.somewhere d).mp hd
    · exact hIn
    · rw [hQueue] at hIn
      cases hIn
    · rw [(Point.Holds.of_plain (hWeights i).2.2.2).mp (hSafe.listed.snapshots i)] at hIn
      cases hIn
    · have hBusy := hIdle i
      rw [hPoint] at hBusy
      cases hBusy
  · have hRefs := hSafe.references
    unfold References at hRefs
    rw [if_pos hEmpty, if_pos hQueue, tally_eq_zero_iff.mpr fun i => (hWeights i).2.1,
      tally_eq_zero_iff.mpr fun i => (hWeights i).2.2.1] at hRefs
    simpa using hRefs

end Idle

/-- One thread enters and leaves, the other hands over a notification in between. -/
def notifiedByLeaver : List (Event Bool) :=
  [.call false .enter, .go false, .go false, .call true .notify, .go true, .go true, .go true, .go true, .go true,
    .call false .leave, .go false, .go false, .go false, .go false, .go false, .go false, .go false]

end OCNote.Dispatch.Group
