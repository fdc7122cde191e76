import OCNote.Dispatch.Group

/-! # The list of notifications

The history of a run says what is in the list, in the order of the exchanges of its tail,
whatever links are still missing. A thread that has emptied the list has a part of it left to
submit. -/

namespace OCNote.Dispatch.Group
open OCNote.Support
set_option autoImplicit false

universe u

structure History (ι : Type u) where
  entered : Nat
  left : Nat
  queue : List Nat
  /-- What a thread has taken out of the list and not submitted. -/
  snapshot : ι → List Nat
  /-- Which notification was appended to which. -/
  succ : Nat → Option Nat

namespace Point

/-- The thread is responsible for the notifications in the list, short of the bit that says that there
are some. -/
def role : Point → Nat
  | retainNotified _ | pushPrev none _ | notifyLoad | notifyCmpxchg _ | getHead _ _ | clearHead _ _ _ | takeTail _ _ _ => 1
  | _ => 0

/-- The notification has been allocated for a call that has not appended it. -/
def unpushed (d : Nat) : Point → Nat
  | pushTail dsn => if dsn = d then 1 else 0
  | _ => 0

/-- The references that the thread has yet to take. -/
def owes : Point → Nat
  | retainEntered | retainNotified _ => 1
  | _ => 0

/-- The references that the thread will give back. -/
def holds : Point → Nat
  | leaveCmpxchg _ => 1
  | getHead _ needs_release | clearHead _ needs_release _ | takeTail _ needs_release _ => needs_release.toNat
  | async _ needs_release _ _ => needs_release.toNat + 1
  | wakeByAddress refs | release refs => refs
  | _ => 0

/-- What a thread that is responsible knows about the head, where `first` is the first of the list. -/
def Heads (head first : Option Nat) : Point → Prop
  | retainNotified dsn | pushPrev none dsn => head = none ∧ first = some dsn
  | notifyLoad | notifyCmpxchg _ | getHead _ _ => head = first
  | clearHead _ _ dc => head = some dc ∧ first = some dc
  | takeTail _ _ dc => head = none ∧ first = some dc
  | _ => True

/-- The thread is not about to change the list or to submit a part of it. -/
def plain : Point → Bool
  | pushTail _ | pushPrev (some _) _ | async _ _ _ _ => false
  | _ => true

/-- What is left to submit is what the thread thinks it is. -/
def Holds (succ : Nat → Option Nat) (snapshot : List Nat) : Point → Prop
  | async _ _ dc tail => snapshot.head? = some dc ∧ snapshot.getLast? = some tail ∧
      snapshot.IsChain fun a b => succ a = some b
  | _ => snapshot = []

section Weights

variable {d : Nat}

theorem Heads.of_role {head first : Option Nat} {p : Point} (h : p.role = 0) : p.Heads head first := by
  cases p with
  | pushPrev prev dsn =>
    cases prev with
    | none => cases h
    | some prev => trivial
  | _ => first | exact trivial | cases h

theorem Holds.of_plain {succ : Nat → Option Nat} {snapshot : List Nat} {p : Point} (h : p.plain = true) :
    p.Holds succ snapshot ↔ snapshot = [] := by
  cases p <;> first | rfl | cases h

theorem unpushed_of_plain {p : Point} (h : p.plain = true) : p.unpushed d = 0 := by
  cases p <;> first | rfl | cases h

theorem weights_release_refs (refs : Nat) : (release_refs refs).role = 0 ∧ (release_refs refs).owes = 0 ∧
    (release_refs refs).holds = refs ∧ (release_refs refs).plain = true := by
  unfold release_refs
  split
  · exact ⟨rfl, rfl, rfl, rfl⟩
  · rename_i hRefs
    exact ⟨rfl, rfl, (not_not.mp hRefs).symm, rfl⟩

theorem weights_wake_waiters (dg_state : BitVec 64) (refs : Nat) : (wake_waiters dg_state refs).role = 0 ∧
    (wake_waiters dg_state refs).owes = 0 ∧ (wake_waiters dg_state refs).holds = refs ∧
    (wake_waiters dg_state refs).plain = true := by
  unfold wake_waiters
  split
  · exact ⟨rfl, rfl, rfl, rfl⟩
  · exact weights_release_refs refs

theorem toNat_ite (b : Bool) : (if b then 1 else 0) = b.toNat := by cases b <;> rfl

theorem weights_group_wake (dg_state : BitVec 64) (needs_release : Bool) :
    (group_wake dg_state needs_release).role = (fields dg_state).notifs.toNat ∧
    (group_wake dg_state needs_release).owes = 0 ∧ (group_wake dg_state needs_release).holds = needs_release.toNat ∧
    (group_wake dg_state needs_release).plain = true := by
  unfold group_wake
  split
  · rename_i hNotifs
    rw [has_notifs_iff] at hNotifs
    rw [hNotifs]
    exact ⟨rfl, rfl, rfl, rfl⟩
  · rename_i hNotifs
    rw [has_notifs_iff] at hNotifs
    obtain ⟨hRole, hOwes, hHolds, hPlain⟩ := weights_wake_waiters dg_state (if needs_release then 1 else 0)
    rw [Bool.eq_false_of_not_eq_true hNotifs]
    exact ⟨hRole, hOwes, hHolds.trans (toNat_ite _), hPlain⟩

theorem heads_group_wake {dg_state : BitVec 64} {needs_release : Bool} {head first : Option Nat}
    (h : (fields dg_state).notifs = true → head = first) : (group_wake dg_state needs_release).Heads head first := by
  unfold group_wake
  split
  · exact h ((has_notifs_iff _).mp ‹_›)
  · exact .of_role (weights_wake_waiters ..).1

theorem notifs_leave_new_state (w : BitVec 64) : (fields (leave_new_state w)).notifs = false := by
  unfold leave_new_state
  split <;> rw [fields_clear_notifs]

theorem weights_leave_loop (w : BitVec 64) : (leave_loop w).role = 0 ∧ (leave_loop w).owes = 0 ∧
    (leave_loop w).holds = 1 ∧ (leave_loop w).plain = true := by
  unfold leave_loop
  split
  · rename_i hSame
    have hNotifs : (fields w).notifs = false := hSame ▸ notifs_leave_new_state w
    obtain ⟨hRole, hRest⟩ := weights_group_wake w true
    rw [hNotifs] at hRole
    exact ⟨hRole, hRest⟩
  · exact ⟨rfl, rfl, rfl, rfl⟩

theorem weights_notify_loop (w : BitVec 64) : (notify_loop w).role = 1 ∧ (notify_loop w).owes = 0 ∧
    (notify_loop w).holds = 0 ∧ (notify_loop w).plain = true := by
  unfold notify_loop
  split
  · obtain ⟨hRole, hRest⟩ := weights_group_wake (w ||| DISPATCH_GROUP_HAS_NOTIFS) false
    rw [fields_or_notifs] at hRole
    exact ⟨hRole, hRest⟩
  · exact ⟨rfl, rfl, rfl, rfl⟩

theorem heads_notify_loop {w : BitVec 64} {head first : Option Nat} (h : head = first) : (notify_loop w).Heads head first := by
  unfold notify_loop
  split
  · exact heads_group_wake fun _ => h
  · exact h

/-- Waiting has nothing to do with notifications and references. -/
theorem weights_of_waits {p : Point} (h : p.waits = true ∨ p.idle = true) :
    p.role = 0 ∧ p.owes = 0 ∧ p.holds = 0 ∧ p.plain = true := by
  cases p <;> first | exact ⟨rfl, rfl, rfl, rfl⟩ | simp [waits, idle] at h

theorem weights_woken (p : Point) : p.woken.role = p.role ∧ p.woken.owes = p.owes ∧ p.woken.holds = p.holds := by
  cases p <;> exact ⟨rfl, rfl, rfl⟩

theorem heads_woken {p : Point} {head first : Option Nat} : p.woken.Heads head first ↔ p.Heads head first := by
  cases p <;> rfl

end Weights

end Point

theorem idle_or_waits_wait_loop (timeout : UInt64) (w : BitVec 64) :
    (wait_loop timeout w).waits = true ∨ (wait_loop timeout w).idle = true := by
  unfold wait_loop
  split
  · exact .inr rfl
  · split
    · exact .inr rfl
    · split <;> exact .inl rfl

theorem Waits.points {ι : Type u} {s : State ι} {i : ι} {p : Point} (h : Waits s i p) :
    (s.point i).waits = true ∧ (p.waits = true ∨ p.idle = true) := by
  cases h with
  | loads timeout hPoint =>
    refine ⟨?_, idle_or_waits_wait_loop timeout s.dg_state⟩
    obtain hPoint | ⟨old, hPoint⟩ := hPoint <;> rw [hPoint] <;> rfl
  | sleeps timeout gen hPoint => exact ⟨by rw [hPoint]; rfl, .inl rfl⟩
  | wakes timeout gen timedOut hPoint =>
    refine ⟨?_, .inl rfl⟩
    obtain hPoint | hPoint := hPoint <;> rw [hPoint] <;> rfl
  | sees timeout gen timedOut hPoint => exact ⟨by rw [hPoint]; rfl, .inr rfl⟩
  | expires timeout gen hPoint => exact ⟨by rw [hPoint]; rfl, .inr rfl⟩
  | again timeout gen hPoint => exact ⟨by rw [hPoint]; rfl, .inl rfl⟩

section Invariant

variable {ι : Type u} [DecidableEq ι]

/-- The notification is appended to the tail, if there is one. -/
def appendTo (succ : Nat → Option Nat) (tail : Option Nat) (dsn : Nat) : Nat → Option Nat :=
  match tail with
  | some tail => Function.update succ tail (some dsn)
  | none => succ

theorem appendTo_tail {succ : Nat → Option Nat} {tail : Option Nat} {a dsn : Nat} (h : tail = some a) :
    appendTo succ tail dsn a = some dsn := by
  rw [h]
  exact Function.update_self ..

theorem appendTo_of_ne {succ : Nat → Option Nat} {tail : Option Nat} {a dsn : Nat} (h : tail ≠ some a) :
    appendTo succ tail dsn a = succ a := by
  cases tail with
  | none => rfl
  | some tail => exact Function.update_of_ne (fun hSame => h (congrArg some hSame.symm)) ..

/-- The history after a step of the thread. -/
def History.after (h : History ι) (s : State ι) (i : ι) : History ι :=
  match s.point i with
  | .enter => { h with entered := h.entered + 1 }
  | .leave => { h with left := h.left + 1 }
  | .pushTail dsn => { h with queue := h.queue ++ [dsn], succ := appendTo h.succ s.dg_notify_tail dsn }
  | .takeTail _ _ _ => { h with queue := [], snapshot := Function.update h.snapshot i h.queue }
  | .async _ _ _ _ => { h with snapshot := Function.update h.snapshot i (h.snapshot i).tail }
  | _ => h

def note (h : History ι) (s : State ι) (e : Event ι) (_ : State ι) : History ι := h.after s e.thread

def History.start (ι : Type u) : History ι where
  entered := 0
  left := 0
  queue := []
  snapshot _ := []
  succ _ := none

variable [Fintype ι]

/-- The list as it is in memory, and every notification in one place. -/
structure Listed (s : State ι) (h : History ι) : Prop where
  tail : s.dg_notify_tail = h.queue.getLast?
  chain : h.queue.IsChain fun a b => h.succ a = some b
  last : ∀ a, h.queue.getLast? = some a → h.succ a = none
  linked : ∀ a b, h.succ a = some b →
    s.do_next a = some b ∨ s.do_next a = none ∧ ∃ i, s.point i = .pushPrev (some a) b
  unlinked : ∀ a, h.succ a = none → s.do_next a = none
  links : ∀ i a b, s.point i = .pushPrev (some a) b → h.succ a = some b
  pushed : ∀ a, h.succ a ≠ none → a < s.allocated ∧ tally (Point.unpushed a) s.point = 0
  snapshots : ∀ i, (s.point i).Holds h.succ (h.snapshot i)
  once : ∀ d, s.submitted.count d + h.queue.count d + tally (List.count d) h.snapshot +
    tally (Point.unpushed d) s.point = if d < s.allocated then 1 else 0

/-- One thread, or the bit in the state, answers for the list as long as there is something in it. -/
structure Guarded (s : State ι) (h : History ι) : Prop where
  roles : tally Point.role s.point + (fields s.dg_state).notifs.toNat = if h.queue = [] then 0 else 1
  heads : ∀ i, (s.point i).Heads s.dg_notify_head h.queue.head?
  flagged : (fields s.dg_state).notifs = true → s.dg_notify_head = h.queue.head?
  empty : h.queue = [] → s.dg_notify_head = none

omit [DecidableEq ι] in
theorem tally_congr {κ : Type*} {weight : κ → Nat} {point point' : ι → κ} (h : ∀ j, weight (point' j) = weight (point j)) :
    tally weight point' = tally weight point := Finset.sum_congr rfl fun j _ => h j

section Listed

variable {s s' : State ι} {h : History ι} {i : ι}

omit [DecidableEq ι] in
theorem Listed.frame (hListed : Listed s h) (hTail : s'.dg_notify_tail = s.dg_notify_tail) (hNext : s'.do_next = s.do_next)
    (hAllocated : s'.allocated = s.allocated) (hSubmitted : s'.submitted = s.submitted)
    (hPoint : ∀ j, s'.point j = s.point j ∨ (s.point j).plain = true ∧ (s'.point j).plain = true) : Listed s' h := by
  have hUnpushed : ∀ d, tally (Point.unpushed d) s'.point = tally (Point.unpushed d) s.point := by
    refine fun d => tally_congr fun j => ?_
    obtain hSame | ⟨hOld, hNew⟩ := hPoint j
    · rw [hSame]
    · rw [Point.unpushed_of_plain hOld, Point.unpushed_of_plain hNew]
  have hPushPrev : ∀ j a b, s'.point j = .pushPrev (some a) b ↔ s.point j = .pushPrev (some a) b := by
    intro j a b
    obtain hSame | ⟨hOld, hNew⟩ := hPoint j
    · rw [hSame]
    · refine iff_of_false (fun hAt => ?_) fun hAt => ?_
      · rw [hAt] at hNew
        cases hNew
      · rw [hAt] at hOld
        cases hOld
  refine ⟨hTail ▸ hListed.tail, hListed.chain, hListed.last, fun a b hSucc => ?_, fun a hSucc => ?_, fun j a b hAt => ?_,
    fun a hSucc => ?_, fun j => ?_, fun d => ?_⟩
  · rw [hNext]
    refine (hListed.linked a b hSucc).imp_right fun ⟨hNone, j, hj⟩ => ⟨hNone, j, ?_⟩
    exact (hPushPrev j a b).mpr hj
  · rw [hNext]
    exact hListed.unlinked a hSucc
  · exact hListed.links j a b ((hPushPrev j a b).mp hAt)
  · rw [hAllocated, hUnpushed]
    exact hListed.pushed a hSucc
  · obtain hSame | ⟨hOld, hNew⟩ := hPoint j
    · rw [hSame]
      exact hListed.snapshots j
    · exact (Point.Holds.of_plain hNew).mpr ((Point.Holds.of_plain hOld).mp (hListed.snapshots j))
  · rw [hSubmitted, hAllocated, hUnpushed]
    exact hListed.once d

theorem Listed.goto (hListed : Listed s h) {p : Point} (hTail : s'.dg_notify_tail = s.dg_notify_tail)
    (hNext : s'.do_next = s.do_next) (hAllocated : s'.allocated = s.allocated) (hSubmitted : s'.submitted = s.submitted)
    (hPoint : s'.point = Function.update s.point i p) (hOld : (s.point i).plain = true) (hNew : p.plain = true) :
    Listed s' h := by
  refine hListed.frame hTail hNext hAllocated hSubmitted fun j => ?_
  rw [hPoint]
  obtain rfl | hj := eq_or_ne j i
  · rw [Function.update_self]
    exact .inr ⟨hOld, hNew⟩
  · rw [Function.update_of_ne hj]
    exact .inl rfl

omit [DecidableEq ι] in
/-- What is in the list is pushed and not yet submitted. -/
theorem Listed.mem_queue (hListed : Listed s h) {d : Nat} (hd : d ∈ h.queue) :
    d < s.allocated ∧ tally (Point.unpushed d) s.point = 0 := by
  have hOnce := hListed.once d
  have hCount := List.count_pos_iff.mpr hd
  split at hOnce
  · exact ⟨‹_›, by omega⟩
  · omega

omit [DecidableEq ι] in
theorem unpushed_eq_one {d : Nat} (hPoint : s.point i = .pushTail d) : 1 ≤ tally (Point.unpushed d) s.point := by
  have hWeight := weight_le_tally (Point.unpushed d) s.point i
  rw [hPoint, Point.unpushed, if_pos rfl] at hWeight
  exact hWeight

omit [DecidableEq ι] in
theorem Listed.new (hListed : Listed s h) {d : Nat} (hPoint : s.point i = .pushTail d) :
    d ∉ h.queue ∧ h.succ d = none := by
  have hUnpushed := unpushed_eq_one hPoint
  constructor
  · intro hd
    have hPushed := (hListed.mem_queue hd).2
    omega
  · by_contra hSucc
    have hPushed := (hListed.pushed d hSucc).2
    omega

theorem unpushed_update {d e : Nat} {p : Point} (hPoint : s.point i = .pushTail d) (hNew : ∀ e, p.unpushed e = 0) :
    tally (Point.unpushed e) (Function.update s.point i p) + (if d = e then 1 else 0) = tally (Point.unpushed e) s.point := by
  have hTally := tally_update (Point.unpushed e) s.point i p
  rw [hPoint, hNew, Point.unpushed] at hTally
  exact hTally

omit [Fintype ι] in
theorem pushPrev_update {p : Point} {j : ι} {prev : Option Nat} {b : Nat} (hOld : s.point i ≠ .pushPrev prev b)
    (hAt : s.point j = .pushPrev prev b) : Function.update s.point i p j = .pushPrev prev b := by
  have hji : j ≠ i := by
    rintro rfl
    exact hOld hAt
  rwa [Function.update_of_ne hji]

omit [DecidableEq ι] in
/-- Nothing has been appended to the last one, so that older links are the same. -/
theorem Listed.appendTo_old (hListed : Listed s h) {a b dsn : Nat} (hab : h.succ a = some b) :
    appendTo h.succ s.dg_notify_tail dsn a = some b := by
  rw [appendTo_of_ne, hab]
  intro hTail
  rw [hListed.last a (hListed.tail.symm.trans hTail)] at hab
  cases hab

theorem Listed.push (hListed : Listed s h) {d : Nat} (hPoint : s.point i = .pushTail d) :
    Listed (mpsc_push_update_tail s i d)
      { h with queue := h.queue ++ [d], succ := appendTo h.succ s.dg_notify_tail d } := by
  obtain ⟨hNew, hSucc⟩ := hListed.new hPoint
  have hNotTail : s.dg_notify_tail ≠ some d := fun hTail => hNew (List.mem_of_getLast? (hListed.tail.symm.trans hTail))
  have hNext : ∀ a, a ≠ d → Function.update s.do_next d none a = s.do_next a := fun a had => Function.update_of_ne had ..
  have hOld : ∀ a, h.succ a ≠ none → a ≠ d := by
    rintro a ha rfl
    exact ha hSucc
  obtain ⟨p, hp⟩ : ∃ p, (if s.dg_notify_tail.isNone then Point.retainNotified d else .pushPrev s.dg_notify_tail d) = p := ⟨_, rfl⟩
  have hUnpushed : ∀ e, tally (Point.unpushed e) (Function.update s.point i p) + (if d = e then 1 else 0) =
      tally (Point.unpushed e) s.point := by
    refine fun e => unpushed_update hPoint fun e => ?_
    rw [← hp]
    split <;> rfl
  unfold mpsc_push_update_tail
  rw [hp]
  refine ⟨(List.getLast?_concat ..).symm, ?_, fun a ha => ?_, fun a b hab => ?_, fun a ha => ?_, fun j a b hj => ?_,
    fun a ha => ?_, fun j => ?_, fun e => ?_⟩
  · refine List.isChain_append.mpr ⟨hListed.chain.imp fun a b hab => hListed.appendTo_old hab, .singleton _, ?_⟩
    intro a ha b hb
    cases hb
    exact appendTo_tail (hListed.tail.trans ha)
  · rw [List.getLast?_concat] at ha
    cases ha
    exact (appendTo_of_ne hNotTail).trans hSucc
  · change Function.update s.do_next d none a = _ ∨ Function.update s.do_next d none a = none ∧
      ∃ j, Function.update s.point i p j = _
    dsimp only at hab
    by_cases hTail : s.dg_notify_tail = some a
    · rw [appendTo_tail hTail] at hab
      cases hab
      have had : a ≠ d := fun had => hNotTail (had ▸ hTail)
      refine .inr ⟨(hNext a had).trans (hListed.unlinked a (hListed.last a (hListed.tail.symm.trans hTail))), i, ?_⟩
      rw [Function.update_self, ← hp, hTail]
      rfl
    · rw [appendTo_of_ne hTail] at hab
      rw [hNext a (hOld a (by rw [hab]; exact Option.some_ne_none b))]
      refine (hListed.linked a b hab).imp_right fun ⟨hNone, j, hj⟩ => ⟨hNone, j, ?_⟩
      exact pushPrev_update (by rw [hPoint]; exact Point.noConfusion) hj
  · change Function.update s.do_next d none a = none
    dsimp only at ha
    obtain rfl | had := eq_or_ne a d
    · exact Function.update_self ..
    · rw [hNext a had]
      refine hListed.unlinked a ?_
      rwa [appendTo_of_ne] at ha
      intro hTail
      rw [appendTo_tail hTail] at ha
      cases ha
  · change Function.update s.point i p j = _ at hj
    obtain rfl | hji := eq_or_ne j i
    · rw [Function.update_self, ← hp] at hj
      split at hj
      · cases hj
      · obtain ⟨hTail, rfl⟩ := Point.pushPrev.inj hj
        exact appendTo_tail hTail
    · rw [Function.update_of_ne hji] at hj
      exact hListed.appendTo_old (hListed.links j a b hj)
  · have hPushed : a < s.allocated ∧ tally (Point.unpushed a) s.point = 0 := by
      dsimp only at ha
      by_cases hTail : s.dg_notify_tail = some a
      · exact hListed.mem_queue (List.mem_of_getLast? (hListed.tail.symm.trans hTail))
      · rw [appendTo_of_ne hTail] at ha
        exact hListed.pushed a ha
    have hSum := hUnpushed a
    refine ⟨hPushed.1, ?_⟩
    change tally _ (Function.update s.point i p) = 0
    omega
  · change (Function.update s.point i p j).Holds _ (h.snapshot j)
    have hHolds := hListed.snapshots j
    obtain rfl | hji := eq_or_ne j i
    · rw [hPoint] at hHolds
      rw [Function.update_self, ← hp]
      split <;> exact hHolds
    · rw [Function.update_of_ne hji]
      generalize s.point j = q at hHolds
      cases q with
      | async => exact ⟨hHolds.1, hHolds.2.1, hHolds.2.2.imp fun a b hab => hListed.appendTo_old hab⟩
      | _ => exact hHolds
  · have hOnce := hListed.once e
    have hSum := hUnpushed e
    change s.submitted.count e + (h.queue ++ [d]).count e + tally _ h.snapshot + tally _ (Function.update s.point i p) =
      if e < s.allocated then 1 else 0
    rw [← hOnce, List.count_append, List.count_singleton]
    simp only [beq_iff_eq]
    omega

theorem Listed.link (hListed : Listed s h) {a b : Nat} (hPoint : s.point i = .pushPrev (some a) b) :
    Listed ({ s with do_next := Function.update s.do_next a (some b) }.goto i (.returned 0)) h := by
  have hSucc := hListed.links i a b hPoint
  have hUnpushed : ∀ e, tally (Point.unpushed e) (Function.update s.point i (.returned 0)) = tally (Point.unpushed e) s.point := by
    intro e
    have hTally := tally_update (Point.unpushed e) s.point i (.returned 0)
    rw [hPoint] at hTally
    exact hTally
  refine ⟨hListed.tail, hListed.chain, hListed.last, fun x y hxy => ?_, fun x hx => ?_, fun j x y hj => ?_,
    fun x hx => ?_, fun j => ?_, fun e => ?_⟩
  · change Function.update s.do_next a (some b) x = _ ∨ Function.update s.do_next a (some b) x = none ∧
      ∃ j, Function.update s.point i (.returned 0) j = _
    obtain rfl | hxa := eq_or_ne x a
    · rw [hSucc] at hxy
      cases hxy
      exact .inl (Function.update_self ..)
    · rw [Function.update_of_ne hxa]
      refine (hListed.linked x y hxy).imp_right fun ⟨hNone, j, hj⟩ => ⟨hNone, j, ?_⟩
      refine pushPrev_update (fun hSame => hxa ?_) hj
      exact Option.some.inj (Point.pushPrev.inj (hSame.symm.trans hPoint)).1
  · change Function.update s.do_next a (some b) x = none
    have hxa : x ≠ a := by
      rintro rfl
      rw [hSucc] at hx
      cases hx
    rw [Function.update_of_ne hxa]
    exact hListed.unlinked x hx
  · change Function.update s.point i (.returned 0) j = _ at hj
    obtain rfl | hji := eq_or_ne j i
    · rw [Function.update_self] at hj
      cases hj
    · rw [Function.update_of_ne hji] at hj
      exact hListed.links j x y hj
  · obtain ⟨hLt, hNone⟩ := hListed.pushed x hx
    exact ⟨hLt, (hUnpushed x).trans hNone⟩
  · change (Function.update s.point i (.returned 0) j).Holds h.succ (h.snapshot j)
    have hHolds := hListed.snapshots j
    obtain rfl | hji := eq_or_ne j i
    · rw [hPoint] at hHolds
      rw [Function.update_self]
      exact hHolds
    · rwa [Function.update_of_ne hji]
  · change s.submitted.count e + h.queue.count e + tally _ h.snapshot + tally _ (Function.update s.point i (.returned 0)) = _
    rw [hUnpushed]
    exact hListed.once e

/-- The thread that has cleared the head takes the whole list. -/
theorem Listed.take (hListed : Listed s h) {dg_state : BitVec 64} {needs_release : Bool} {head tail : Nat}
    (hPoint : s.point i = .takeTail dg_state needs_release head) (hHead : h.queue.head? = some head)
    (hTail : s.dg_notify_tail = some tail) :
    Listed ({ s with dg_notify_tail := none }.goto i (.async dg_state needs_release head tail))
      { h with queue := [], snapshot := Function.update h.snapshot i h.queue } := by
  have hUnpushed : ∀ e, tally (Point.unpushed e) (Function.update s.point i (.async dg_state needs_release head tail)) =
      tally (Point.unpushed e) s.point := by
    intro e
    have hTally := tally_update (Point.unpushed e) s.point i (.async dg_state needs_release head tail)
    rw [hPoint] at hTally
    exact hTally
  have hNothing : h.snapshot i = [] := by
    have hHolds := hListed.snapshots i
    rwa [hPoint] at hHolds
  refine ⟨rfl, .nil, fun a ha => ?_, fun a b hab => ?_, hListed.unlinked, fun j a b hj => ?_, fun a ha => ?_,
    fun j => ?_, fun e => ?_⟩
  · cases ha
  · refine (hListed.linked a b hab).imp_right fun ⟨hNone, j, hj⟩ => ⟨hNone, j, ?_⟩
    exact pushPrev_update (by rw [hPoint]; exact Point.noConfusion) hj
  · change Function.update s.point i _ j = _ at hj
    obtain rfl | hji := eq_or_ne j i
    · rw [Function.update_self] at hj
      cases hj
    · rw [Function.update_of_ne hji] at hj
      exact hListed.links j a b hj
  · obtain ⟨hLt, hNone⟩ := hListed.pushed a ha
    exact ⟨hLt, (hUnpushed a).trans hNone⟩
  · change (Function.update s.point i _ j).Holds h.succ (Function.update h.snapshot i h.queue j)
    obtain rfl | hji := eq_or_ne j i
    · rw [Function.update_self, Function.update_self]
      exact ⟨hHead, hListed.tail.symm.trans hTail, hListed.chain⟩
    · rw [Function.update_of_ne hji, Function.update_of_ne hji]
      exact hListed.snapshots j
  · have hOnce := hListed.once e
    have hTally := tally_update (List.count e) h.snapshot i h.queue
    rw [hNothing, List.count_nil] at hTally
    change s.submitted.count e + ([] : List Nat).count e + tally _ (Function.update h.snapshot i h.queue) +
      tally _ (Function.update s.point i _) = if e < s.allocated then 1 else 0
    rw [← hOnce, hUnpushed, List.count_nil]
    omega

omit [DecidableEq ι] in
/-- What a thread has to submit, in order and without repetition. -/
theorem Listed.snapshot_cons (hListed : Listed s h) {dg_state : BitVec 64} {needs_release : Bool} {dc tail : Nat}
    (hPoint : s.point i = .async dg_state needs_release dc tail) : ∃ rest, h.snapshot i = dc :: rest ∧ dc ∉ rest ∧
      (if dc = tail then rest = [] else ∃ next more, rest = next :: more ∧ h.succ dc = some next ∧
        (rest.getLast? = some tail ∧ rest.IsChain fun a b => h.succ a = some b)) := by
  have hHolds := hListed.snapshots i
  rw [hPoint] at hHolds
  obtain ⟨hHead, hLast, hChain⟩ := hHolds
  obtain ⟨rest, hRest⟩ := List.head?_eq_some_iff.mp hHead
  have hNotIn : dc ∉ rest := by
    intro hIn
    have hOnce := hListed.once dc
    have hCount := List.count_pos_iff.mpr hIn
    have hWeight := weight_le_tally (List.count dc) h.snapshot i
    rw [hRest, List.count_cons_self] at hWeight
    split at hOnce <;> omega
  refine ⟨rest, hRest, hNotIn, ?_⟩
  rw [hRest] at hLast hChain
  split
  · rename_i hSame
    cases rest with
    | nil => rfl
    | cons next more =>
      rw [List.getLast?_cons_cons] at hLast
      exact absurd (hSame ▸ List.mem_of_getLast? hLast) hNotIn
  · cases rest with
    | nil =>
      cases hLast
      exact absurd rfl ‹_›
    | cons next more =>
      rw [List.getLast?_cons_cons] at hLast
      obtain ⟨hNext, hMore⟩ := List.isChain_cons_cons.mp hChain
      exact ⟨next, more, rfl, hNext, hLast, hMore⟩

theorem Listed.submit (hListed : Listed s h) {dg_state : BitVec 64} {needs_release : Bool} {dc tail : Nat} {rest : List Nat}
    {p : Point} (hPoint : s.point i = .async dg_state needs_release dc tail) (hRest : h.snapshot i = dc :: rest)
    (hHolds : p.Holds h.succ rest) (hUnpushed : ∀ e, p.unpushed e = 0) (hPushPrev : ∀ a b, p ≠ .pushPrev (some a) b) :
    Listed ({ s with submitted := s.submitted ++ [dc] }.goto i p)
      { h with snapshot := Function.update h.snapshot i (h.snapshot i).tail } := by
  have hSame : ∀ e, tally (Point.unpushed e) (Function.update s.point i p) = tally (Point.unpushed e) s.point := by
    intro e
    have hTally := tally_update (Point.unpushed e) s.point i p
    rw [hPoint, hUnpushed] at hTally
    exact hTally
  refine ⟨hListed.tail, hListed.chain, hListed.last, fun a b hab => ?_, hListed.unlinked, fun j a b hj => ?_, fun a ha => ?_,
    fun j => ?_, fun e => ?_⟩
  · refine (hListed.linked a b hab).imp_right fun ⟨hNone, j, hj⟩ => ⟨hNone, j, ?_⟩
    exact pushPrev_update (by rw [hPoint]; exact Point.noConfusion) hj
  · change Function.update s.point i p j = _ at hj
    obtain rfl | hji := eq_or_ne j i
    · rw [Function.update_self] at hj
      exact absurd hj (hPushPrev a b)
    · rw [Function.update_of_ne hji] at hj
      exact hListed.links j a b hj
  · obtain ⟨hLt, hNone⟩ := hListed.pushed a ha
    exact ⟨hLt, (hSame a).trans hNone⟩
  · change (Function.update s.point i p j).Holds h.succ (Function.update h.snapshot i (h.snapshot i).tail j)
    obtain rfl | hji := eq_or_ne j i
    · rw [Function.update_self, Function.update_self, hRest]
      exact hHolds
    · rw [Function.update_of_ne hji, Function.update_of_ne hji]
      exact hListed.snapshots j
  · have hOnce := hListed.once e
    have hTally := tally_update (List.count e) h.snapshot i (h.snapshot i).tail
    rw [hRest, List.count_cons, List.tail_cons] at hTally
    change (s.submitted ++ [dc]).count e + h.queue.count e + tally _ (Function.update h.snapshot i (h.snapshot i).tail) +
      tally _ (Function.update s.point i p) = if e < s.allocated then 1 else 0
    rw [← hOnce, hSame, hRest, List.tail_cons, List.count_append, List.count_singleton]
    omega

theorem Listed.begin_notify (hListed : Listed s h) (hPoint : (s.point i).idle = true) :
    Listed (begin_call s i .notify) h := by
  have hPlain := (Point.weights_of_waits (.inr hPoint)).2.2.2
  have hUnpushed : ∀ e, tally (Point.unpushed e) (Function.update s.point i (.pushTail s.allocated)) =
      tally (Point.unpushed e) s.point + if s.allocated = e then 1 else 0 := by
    intro e
    have hTally := tally_update (Point.unpushed e) s.point i (.pushTail s.allocated)
    rw [Point.unpushed_of_plain hPlain] at hTally
    exact hTally
  refine ⟨hListed.tail, hListed.chain, hListed.last, fun a b hab => ?_, hListed.unlinked, fun j a b hj => ?_, fun a ha => ?_,
    fun j => ?_, fun e => ?_⟩
  · refine (hListed.linked a b hab).imp_right fun ⟨hNone, j, hj⟩ => ⟨hNone, j, ?_⟩
    refine pushPrev_update (fun hSame => ?_) hj
    rw [hSame] at hPoint
    cases hPoint
  · change Function.update s.point i _ j = _ at hj
    obtain rfl | hji := eq_or_ne j i
    · rw [Function.update_self] at hj
      cases hj
    · rw [Function.update_of_ne hji] at hj
      exact hListed.links j a b hj
  · obtain ⟨hLt, hNone⟩ := hListed.pushed a ha
    have hSum := hUnpushed a
    rw [if_neg (by omega), hNone] at hSum
    exact ⟨Nat.lt_succ_of_lt hLt, hSum⟩
  · change (Function.update s.point i _ j).Holds h.succ (h.snapshot j)
    have hHolds := hListed.snapshots j
    obtain rfl | hji := eq_or_ne j i
    · rw [Function.update_self]
      exact (Point.Holds.of_plain hPlain).mp hHolds
    · rwa [Function.update_of_ne hji]
  · have hOnce := hListed.once e
    change s.submitted.count e + h.queue.count e + tally _ h.snapshot + tally _ (Function.update s.point i _) =
      if e < s.allocated + 1 then 1 else 0
    rw [hUnpushed]
    split at hOnce <;> split <;> split <;> omega

omit [DecidableEq ι] in
theorem Listed.of_history (hListed : Listed s h) {h' : History ι} (hQueue : h'.queue = h.queue)
    (hSnapshot : h'.snapshot = h.snapshot) (hSucc : h'.succ = h.succ) : Listed s h' := by
  obtain ⟨_, _, queue, snapshot, succ⟩ := h'
  dsimp only at hQueue hSnapshot hSucc
  subst hQueue hSnapshot hSucc
  exact ⟨hListed.tail, hListed.chain, hListed.last, hListed.linked, hListed.unlinked, hListed.links, hListed.pushed,
    hListed.snapshots, hListed.once⟩

omit [Fintype ι] in
theorem after_of_plain (h : History ι) (hPlain : (s.point i).plain = true)
    (hTake : ∀ dg_state needs_release head, s.point i ≠ .takeTail dg_state needs_release head) :
    (h.after s i).queue = h.queue ∧ (h.after s i).snapshot = h.snapshot ∧ (h.after s i).succ = h.succ := by
  unfold History.after
  cases hPoint : s.point i with
  | pushTail | async =>
    rw [hPoint] at hPlain
    cases hPlain
  | takeTail => exact absurd hPoint (hTake _ _ _)
  | _ => exact ⟨rfl, rfl, rfl⟩

theorem Listed.plain_step (hListed : Listed s h) {p : Point} (hTail : s'.dg_notify_tail = s.dg_notify_tail)
    (hNext : s'.do_next = s.do_next) (hAllocated : s'.allocated = s.allocated) (hSubmitted : s'.submitted = s.submitted)
    (hPoint : s'.point = Function.update s.point i p) (hOld : (s.point i).plain = true)
    (hTake : ∀ dg_state needs_release head, s.point i ≠ .takeTail dg_state needs_release head) (hNew : p.plain = true) :
    Listed s' (h.after s i) := by
  obtain ⟨hQueue, hSnapshot, hSucc⟩ := after_of_plain h hOld hTake
  exact (hListed.goto hTail hNext hAllocated hSubmitted hPoint hOld hNew).of_history hQueue hSnapshot hSucc

theorem listed_of_moves (hListed : Listed s h) (hGuarded : Guarded s h) (hMoves : Moves s i s') (hAlive : s'.crashed = none) :
    Listed s' (h.after s i) := by
  cases hMoves with
  | begins call hPoint =>
    have hPlain := (Point.weights_of_waits (.inr hPoint)).2.2.2
    have hTake : ∀ dg_state needs_release head, s.point i ≠ .takeTail dg_state needs_release head := by
      intro dg_state needs_release head hAt
      rw [hAt] at hPoint
      cases hPoint
    cases call with
    | notify =>
      obtain ⟨hQueue, hSnapshot, hSucc⟩ := after_of_plain h hPlain hTake
      exact (hListed.begin_notify hPoint).of_history hQueue hSnapshot hSucc
    | enter | leave | wait => exact hListed.plain_step rfl rfl rfl rfl rfl hPlain hTake rfl
  | overflows | unbalanced => cases hAlive
  | enters word hPoint =>
    refine hListed.plain_step rfl rfl rfl rfl rfl (hPoint ▸ rfl) (by rw [hPoint]; exact fun _ _ _ => Point.noConfusion) ?_
    split <;> rfl
  | leaves word hPoint | retainsEntered hPoint | announces hPoint | clearsHead _ _ _ hPoint | getsHead _ _ _ hPoint
  | releases _ hPoint | retainsNotified _ hPoint | setsHead _ hPoint | setsWaiters _ hPoint =>
    exact hListed.plain_step rfl rfl rfl rfl rfl (hPoint ▸ rfl) (by rw [hPoint]; exact fun _ _ _ => Point.noConfusion) rfl
  | leavesLast word hPoint =>
    exact hListed.plain_step rfl rfl rfl rfl rfl (hPoint ▸ rfl) (by rw [hPoint]; exact fun _ _ _ => Point.noConfusion)
      (Point.weights_leave_loop word).2.2.2
  | clears hPoint =>
    exact hListed.plain_step rfl rfl rfl rfl rfl (hPoint ▸ rfl) (by rw [hPoint]; exact fun _ _ _ => Point.noConfusion)
      (Point.weights_group_wake ..).2.2.2
  | reloads old_state hPoint =>
    exact hListed.plain_step rfl rfl rfl rfl rfl (hPoint ▸ rfl) (by rw [hPoint]; exact fun _ _ _ => Point.noConfusion)
      (Point.weights_leave_loop _).2.2.2
  | looks hPoint =>
    have hOld : (s.point i).plain = true := by obtain hPoint | ⟨old, hPoint⟩ := hPoint <;> rw [hPoint] <;> rfl
    refine hListed.plain_step rfl rfl rfl rfl rfl hOld ?_ (Point.weights_notify_loop _).2.2.2
    obtain hPoint | ⟨old, hPoint⟩ := hPoint <;> rw [hPoint] <;> exact fun _ _ _ => Point.noConfusion
  | waits p hWaits =>
    obtain ⟨hOld, hNew⟩ := hWaits.points
    refine hListed.plain_step rfl rfl rfl rfl rfl (Point.weights_of_waits (.inl hOld)).2.2.2 ?_ (Point.weights_of_waits hNew).2.2.2
    intro dg_state needs_release head hAt
    rw [hAt] at hOld
    cases hOld
  | wakes refs hPoint =>
    have hAfter : h.after s i = h := by
      rw [History.after, hPoint]
    rw [hAfter]
    have hWakes : (wake_by_address s i refs).point = Function.update (fun j => (s.point j).woken) i (release_refs refs) := rfl
    refine hListed.frame rfl rfl rfl rfl fun j => ?_
    rw [hWakes]
    obtain rfl | hji := eq_or_ne j i
    · rw [hPoint, Function.update_self]
      exact .inr ⟨rfl, (Point.weights_release_refs refs).2.2.2⟩
    · rw [Function.update_of_ne hji]
      cases s.point j with
      | asleep => exact .inr ⟨rfl, rfl⟩
      | _ => exact .inl rfl
  | takesTail dg_state needs_release head tail hPoint hTail =>
    have hHead := hGuarded.heads i
    rw [hPoint] at hHead
    rw [History.after, hPoint]
    exact hListed.take hPoint hHead.2 hTail
  | submitsLast dg_state needs_release dc hPoint =>
    obtain ⟨rest, hRest, _, hLast⟩ := hListed.snapshot_cons hPoint
    rw [if_pos rfl] at hLast
    have hPlain := (Point.weights_wake_waiters dg_state ((if needs_release then 1 else 0) + 1)).2.2.2
    rw [History.after, hPoint]
    refine hListed.submit hPoint hRest ((Point.Holds.of_plain hPlain).mpr hLast)
      (fun e => Point.unpushed_of_plain hPlain) fun a b hAt => ?_
    rw [hAt] at hPlain
    cases hPlain
  | submits dg_state needs_release dc next_dc tail hPoint hMore hNext =>
    obtain ⟨rest, hRest, _, hLast⟩ := hListed.snapshot_cons hPoint
    rw [if_neg hMore] at hLast
    obtain ⟨next, more, rfl, hSucc, hTail, hChain⟩ := hLast
    have hSame : next = next_dc := by
      obtain hLinked | ⟨hNone, _⟩ := hListed.linked dc next hSucc
      · exact Option.some.inj (hLinked.symm.trans hNext)
      · rw [hNext] at hNone
        cases hNone
    rw [History.after, hPoint]
    exact hListed.submit hPoint hRest ⟨congrArg some hSame, hTail, hChain⟩ (fun _ => rfl) fun _ _ => Point.noConfusion
  | pushes dsn hPoint =>
    rw [History.after, hPoint]
    exact hListed.push hPoint
  | links prev dsn hPoint =>
    rw [History.after, hPoint]
    exact hListed.link hPoint

end Listed

end Invariant

end OCNote.Dispatch.Group
