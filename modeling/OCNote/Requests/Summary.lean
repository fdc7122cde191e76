import OCNote.Requests.Counted
import Mathlib.Tactic.DeriveFintype

/-! # The summary comes once, after the requests

With completion handlers that leave the group the summary follows the end of every request. With
`dispatch_group_async` it follows only their beginning. Either way it comes. -/

namespace OCNote.Requests
open OCNote.Support OCNote.Dispatch OCNote.Dispatch.Group
set_option autoImplicit false

deriving instance Fintype for LogLine

variable {k : Nat} {style : Style} {s s' : App k}

/-- Lines that are logged without anything else. -/
def Ready (style : Style) (s : App k) : LogLine k → Prop
  | .begins j => j.val < s.line / 2
  | .ends j => style = .groupAsync ∧ .begins j ∈ s.log
  | .summary => 0 ∈ s.group.submitted
  | .success => .summary ∈ s.log

/-- The event of the group, if a thread goes on with a call. -/
def Label.event : Label k → Option (Event (Option (Fin k)))
  | .group e => some e
  | _ => none

inductive Steps (style : Style) (s : App k) : Option (Event (Option (Fin k))) → App k → Prop
  | enters (hIdle : (s.group.point none).idle = true) (hEven : s.line % 2 = 0) (hMore : s.line / 2 < k) :
      Steps style s none { s with line := s.line + 1, group := begin_call s.group none .enter }
  | asyncs (hIdle : (s.group.point none).idle = true) (hOdd : s.line % 2 = 1) (hMore : s.line / 2 < k) :
      Steps style s none { s with line := s.line + 1 }
  | notifies (hIdle : (s.group.point none).idle = true) (hLast : s.line = 2 * k) :
      Steps style s none { s with line := s.line + 1, group := begin_call s.group none .notify }
  | logs (x : LogLine k) (hReady : Ready style s x) (hNew : x ∉ s.log) : Steps style s none { s with log := s.log ++ [x] }
  | endsLeaving (j : Fin k) (hStyle : style = .enterLeave) (hBegun : .begins j ∈ s.log) (hNew : .ends j ∉ s.log)
      (hIdle : (s.group.point (some j)).idle = true) :
      Steps style s none { s with
        log := s.log ++ [.ends j], left := Function.update s.left j true, group := begin_call s.group (some j) .leave }
  | returns (j : Fin k) (hStyle : style = .groupAsync) (hBegun : .begins j ∈ s.log) (hLeft : s.left j = false)
      (hIdle : (s.group.point (some j)).idle = true) :
      Steps style s none { s with left := Function.update s.left j true, group := begin_call s.group (some j) .leave }
  | group (e : Event (Option (Fin k))) (g : Shared k) (hCall : ∀ i call, e ≠ .call i call) (hStep : Group.step s.group e = some g) :
      Steps style s (some e) { s with group := g }

theorem steps_main (h : step style s .main = some s') : Steps style s none s' := by
  obtain ⟨_, h⟩ := Option.ite_none_left_eq_some.mp h
  obtain ⟨a, ha, h⟩ := Option.bind_eq_some_iff.mp h
  obtain ⟨⟨hIdle, hLine⟩, rfl⟩ := Option.ite_none_right_eq_some.mp ha |>.imp_right Option.some.inj
  simp only [groupEvent, statement] at h
  by_cases hMore : s.line / 2 < k
  · rw [dif_pos hMore] at h
    by_cases hEven : s.line % 2 = 0
    · rw [if_pos hEven] at h
      obtain ⟨g, hg, rfl⟩ := Option.map_eq_some_iff.mp h
      obtain ⟨_, rfl⟩ := call_of_step hg
      exact .enters hIdle hEven hMore
    · rw [if_neg hEven] at h
      cases h
      exact .asyncs hIdle (by omega) hMore
  · have hLast : s.line = 2 * k := by omega
    rw [dif_neg hMore, if_pos hLast] at h
    obtain ⟨g, hg, rfl⟩ := Option.map_eq_some_iff.mp h
    obtain ⟨_, rfl⟩ := call_of_step hg
    exact .notifies hIdle hLast

theorem steps_of_step {l : Label k} (h : step style s l = some s') : s.group.crashed = none ∧ Steps style s l.event s' := by
  have hAll := h
  obtain ⟨hAlive, h⟩ := Option.ite_none_left_eq_some.mp h
  refine ⟨by simpa using hAlive, ?_⟩
  obtain ⟨a, ha, h⟩ := Option.bind_eq_some_iff.mp h
  cases l with
  | main => exact steps_main hAll
  | runs j =>
    obtain ⟨⟨hLine, hNew⟩, rfl⟩ := Option.ite_none_right_eq_some.mp ha |>.imp_right Option.some.inj
    cases h
    exact .logs (.begins j) hLine hNew
  | ends j =>
    obtain ⟨⟨hBegun, hNew⟩, rfl⟩ := Option.ite_none_right_eq_some.mp ha |>.imp_right Option.some.inj
    cases style with
    | enterLeave =>
      obtain ⟨g, hg, rfl⟩ := Option.map_eq_some_iff.mp h
      obtain ⟨hIdle, rfl⟩ := call_of_step hg
      exact .endsLeaving j rfl hBegun hNew hIdle
    | groupAsync =>
      cases h
      exact .logs (.ends j) ⟨rfl, hBegun⟩ hNew
  | returns j =>
    obtain ⟨⟨hStyle, hBegun, hLeft⟩, rfl⟩ := Option.ite_none_right_eq_some.mp ha |>.imp_right Option.some.inj
    obtain ⟨g, hg, rfl⟩ := Option.map_eq_some_iff.mp h
    obtain ⟨hIdle, rfl⟩ := call_of_step hg
    exact .returns j hStyle hBegun hLeft hIdle
  | summary =>
    obtain ⟨⟨hSubmitted, hNew⟩, rfl⟩ := Option.ite_none_right_eq_some.mp ha |>.imp_right Option.some.inj
    cases h
    exact .logs .summary hSubmitted hNew
  | success =>
    obtain ⟨⟨hSummary, hNew⟩, rfl⟩ := Option.ite_none_right_eq_some.mp ha |>.imp_right Option.some.inj
    cases h
    exact .logs .success hSummary hNew
  | group e =>
    cases e with
    | call i call => cases ha
    | go | timesOut | failsSpuriously | wakesSpuriously =>
      cases ha
      obtain ⟨g, hg, rfl⟩ := Option.map_eq_some_iff.mp h
      exact .group _ g (fun _ _ hSame => by cases hSame) hg

/-- What the log says. -/
structure Logged (style : Style) (s : App k) : Prop where
  nodup : s.log.Nodup
  queued : ∀ j, .begins j ∈ s.log → j.val < s.line / 2
  begun : ∀ j, .ends j ∈ s.log → .begins j ∈ s.log
  awaited : ∀ j, s.left j = true → style.awaited j ∈ s.log
  handled : style = .enterLeave → ∀ j, .ends j ∈ s.log → s.left j = true
  order : ∀ pre post, s.log = pre ++ .summary :: post → ∀ j, style.awaited j ∈ pre
  last : ∀ pre post, s.log = pre ++ .success :: post → .summary ∈ pre

theorem mem_logs {log : List (LogLine k)} {x y : LogLine k} : y ∈ log ++ [x] ↔ y ∈ log ∨ y = x := by
  rw [List.mem_append, List.mem_singleton]

theorem Logged.nodup_concat (hLogged : Logged style s) {x : LogLine k} (hNew : x ∉ s.log) : (s.log ++ [x]).Nodup := by
  rw [← List.concat_eq_append]
  exact hLogged.nodup.concat hNew

theorem split_concat {α : Type} {log pre post : List α} {x y : α} (h : log ++ [x] = pre ++ y :: post) :
    pre = log ∧ y = x ∨ ∃ post', log = pre ++ y :: post' := by
  obtain rfl | ⟨post', z, rfl⟩ := post.eq_nil_or_concat'
  · obtain ⟨hPre, hLast⟩ := List.append_inj' h rfl
    exact .inl ⟨hPre.symm, (List.singleton_inj.mp hLast).symm⟩
  · rw [← List.cons_append, ← List.append_assoc] at h
    exact .inr ⟨post', (List.append_inj' h rfl).1⟩

/-- The program between two steps. -/
structure Fits (style : Style) (s : App k) (h : History (Option (Fin k))) (t : Timing) : Prop where
  alive : s.group.crashed = none
  counted : Counted s.line s.left s.group h t
  emptied : Emptied s.line s.left s.group t
  logged : Logged style s

variable {h : History (Option (Fin k))} {t : Timing}

theorem Fits.all_left (hFits : Fits style s h t) (hSubmitted : 0 ∈ s.group.submitted) (j : Fin k) : s.left j = true := by
  have hListed := hFits.counted.safe.listed
  have hAllocated : 0 < s.group.allocated := (hListed.somewhere 0).mpr (.inl hSubmitted)
  have hLine : 2 * k < s.line := by
    have hNow := hFits.counted.allocated
    split at hNow <;> omega
  refine hFits.emptied hLine (hFits.counted.timely.submitted 0 hSubmitted) (fun i hPoint => ?_) j
  exact (hListed.not_pushed hPoint).1 hSubmitted

theorem Logged.logs (hLogged : Logged style s) {x : LogLine k} (hReady : Ready style s x) (hNew : x ∉ s.log)
    (hLeft : 0 ∈ s.group.submitted → ∀ j, s.left j = true) : Logged style { s with log := s.log ++ [x] } := by
  refine ⟨?_, fun j hj => ?_, fun j hj => ?_, fun j hj => mem_logs.mpr (.inl (hLogged.awaited j hj)), fun hStyle j hj => ?_,
    fun pre post hSplit j => ?_, fun pre post hSplit => ?_⟩
  · exact hLogged.nodup_concat hNew
  · obtain hj | rfl := mem_logs.mp hj
    · exact hLogged.queued j hj
    · exact hReady
  · obtain hj | rfl := mem_logs.mp hj
    · exact mem_logs.mpr (.inl (hLogged.begun j hj))
    · exact mem_logs.mpr (.inl hReady.2)
  · obtain hj | rfl := mem_logs.mp hj
    · exact hLogged.handled hStyle j hj
    · rw [hReady.1] at hStyle
      cases hStyle
  · obtain ⟨rfl, rfl⟩ | ⟨post', hOld⟩ := split_concat hSplit
    · exact hLogged.awaited j (hLeft hReady j)
    · exact hLogged.order pre post' hOld j
  · obtain ⟨rfl, rfl⟩ | ⟨post', hOld⟩ := split_concat hSplit
    · exact hReady
    · exact hLogged.last pre post' hOld

theorem begin_call_others (g : Shared k) {i j : Option (Fin k)} (call : Call) (hji : j ≠ i) :
    (begin_call g i call).point j = g.point j := by
  cases call <;> exact goto_point_of_ne hji ..

theorem Logged.of_line (hLogged : Logged style s) {line : Nat} (hLine : s.line ≤ line) (group : Shared k) :
    Logged style { s with line := line, group := group } where
  nodup := hLogged.nodup
  queued j hj := Nat.lt_of_lt_of_le (hLogged.queued j hj) (Nat.div_le_div_right hLine)
  begun := hLogged.begun
  awaited := hLogged.awaited
  handled := hLogged.handled
  order := hLogged.order
  last := hLogged.last

theorem Logged.of_left (hLogged : Logged style s) {j : Fin k} (hAwaited : style.awaited j ∈ s.log) (group : Shared k) :
    Logged style { s with left := Function.update s.left j true, group := group } where
  nodup := hLogged.nodup
  queued := hLogged.queued
  begun := hLogged.begun
  awaited j' hj' := by
    obtain rfl | hji := eq_or_ne j' j
    · exact hAwaited
    · exact hLogged.awaited j' ((Function.update_of_ne hji ..).symm.trans hj')
  handled hStyle j' hj' := by
    obtain rfl | hji := eq_or_ne j' j
    · exact Function.update_self ..
    · exact (Function.update_of_ne hji ..).trans (hLogged.handled hStyle j' hj')
  order := hLogged.order
  last := hLogged.last

theorem Logged.ends (hLogged : Logged .enterLeave s) {j : Fin k} (hBegun : .begins j ∈ s.log) (hNew : .ends j ∉ s.log)
    (group : Shared k) :
    Logged .enterLeave { s with log := s.log ++ [.ends j], left := Function.update s.left j true, group := group } := by
  refine ⟨?_, fun j' hj' => ?_, fun j' hj' => ?_, fun j' hj' => ?_, fun _ j' hj' => ?_, fun pre post hSplit j' => ?_,
    fun pre post hSplit => ?_⟩
  · exact hLogged.nodup_concat hNew
  · exact hLogged.queued j' ((mem_logs.mp hj').resolve_right fun hSame => by cases hSame)
  · obtain hj' | hSame := mem_logs.mp hj'
    · exact mem_logs.mpr (.inl (hLogged.begun j' hj'))
    · cases hSame
      exact mem_logs.mpr (.inl hBegun)
  · obtain rfl | hji := eq_or_ne j' j
    · exact mem_logs.mpr (.inr rfl)
    · exact mem_logs.mpr (.inl (hLogged.awaited j' ((Function.update_of_ne hji ..).symm.trans hj')))
  · obtain rfl | hji := eq_or_ne j' j
    · exact Function.update_self ..
    · refine (Function.update_of_ne hji ..).trans (hLogged.handled rfl j' ((mem_logs.mp hj').resolve_right fun hSame => hji ?_))
      exact LogLine.ends.inj hSame
  · obtain ⟨_, hSame⟩ | ⟨post', hOld⟩ := split_concat hSplit
    · cases hSame
    · exact hLogged.order pre post' hOld j'
  · obtain ⟨_, hSame⟩ | ⟨post', hOld⟩ := split_concat hSplit
    · cases hSame
    · exact hLogged.last pre post' hOld

theorem fits_of_steps (hK : k < 2 ^ 30) (hFits : Fits style s h t) {o : Option (Event (Option (Fin k)))}
    (hSteps : Steps style s o s') : ∃ h' t', Fits style s' h' t' := by
  have hAlive := hFits.alive
  have hCounted := hFits.counted
  cases hSteps with
  | enters hIdle hEven hMore =>
    refine ⟨h, _, hAlive, hCounted.enters hAlive hIdle hEven hMore, fun hLine => ?_, hFits.logged.of_line (Nat.le_succ _) _⟩
    change 2 * k < s.line + 1 at hLine
    omega
  | asyncs hIdle hOdd hMore =>
    refine ⟨h, t, hAlive, hCounted.asyncs hIdle hOdd hMore, fun hLine => ?_, hFits.logged.of_line (Nat.le_succ _) _⟩
    change 2 * k < s.line + 1 at hLine
    omega
  | notifies hIdle hLast =>
    have hLogged := hFits.logged.of_line (Nat.le_succ s.line) (begin_call s.group none .notify)
    rw [hLast] at hCounted
    obtain ⟨hCounted', hEmptied'⟩ := hCounted.notifies hAlive hIdle
    rw [← hLast] at hCounted' hEmptied'
    exact ⟨h, _, hAlive, hCounted', hEmptied', hLogged⟩
  | logs x hReady hNew =>
    exact ⟨h, t, hAlive, hCounted, hFits.emptied, hFits.logged.logs hReady hNew hFits.all_left⟩
  | endsLeaving j hStyle hBegun hNew hIdle =>
    subst hStyle
    have hLeft : s.left j = false := Bool.eq_false_of_not_eq_true fun hLeft => hNew (hFits.logged.awaited j hLeft)
    have hCounted' := hCounted.leaves hAlive hIdle hLeft (hFits.logged.queued j hBegun)
    exact ⟨h, _, hAlive, hCounted', hFits.emptied.leaves hCounted' fun _ hji => begin_call_others s.group .leave hji,
      hFits.logged.ends hBegun hNew _⟩
  | returns j hStyle hBegun hLeft hIdle =>
    subst hStyle
    have hCounted' := hCounted.leaves hAlive hIdle hLeft (hFits.logged.queued j hBegun)
    exact ⟨h, _, hAlive, hCounted', hFits.emptied.leaves hCounted' fun _ hji => begin_call_others s.group .leave hji, hFits.logged.of_left hBegun _⟩
  | group e g hCall hStep =>
    obtain ⟨_, hMoves⟩ := moves_of_step hStep
    have hCounted' := hCounted.moves hK hAlive hMoves (busy_of_step hStep hCall)
    exact ⟨_, _, hCounted.alive hK hAlive hMoves, hCounted',
      hFits.emptied.moves hCounted' fun _ hji => point_of_moves hMoves hCounted.waits hji, hFits.logged.of_line (Nat.le_refl _) g⟩

theorem fits_start (style : Style) (k : Nat) :
    Fits style (requests style k).start (History.start (Option (Fin k))) ⟨fun _ => false, false⟩ where
  alive := rfl
  counted := by
    have hSafe : Safe 0 (group_create_with_count (Option (Fin k)) 0#32) (History.start (Option (Fin k))) :=
      safe_create (n := 0#32) (by decide)
    have hFields : fields (group_create_with_count (Option (Fin k)) 0#32).dg_state = ⟨0#32, -(0#32).setWidth 30, false, false⟩ :=
      fields_create (by decide)
    refine ⟨hSafe, ⟨fun _ hFiring => ?_, fun _ _ hd => ?_, fun _ _ hd => ?_, fun _ hd => ?_⟩, rfl, Nat.zero_le _, ?_,
      fun _ hPoint => ?_, ?_, fun _ hLeft => ?_, fun _ => ⟨fun _ => rfl, congrArg Fields.notifs hFields, congrArg Fields.waiters hFields⟩, fun _ => rfl, (if_pos (Nat.zero_le _)).symm⟩
    · cases hFiring
    · cases hd
    · cases hd
    · cases hd
    · have hNot : (requests style k).start.group.point none ≠ .enter := fun hPoint => by cases hPoint
      rw [if_neg hNot]
      change 0 = min ((0 + 1) / 2) k
      omega
    · cases hPoint
    · have hPoints : tally Point.leaves (group_create_with_count (Option (Fin k)) 0#32).point = 0 := tally_eq_zero_iff.mpr fun _ => rfl
      have hLeft : tally Bool.toNat (requests style k).start.left = 0 := tally_eq_zero_iff.mpr fun _ => rfl
      rw [hLeft]
      exact (Nat.zero_add _).trans hPoints
    · cases hLeft
  emptied hLine := absurd hLine (Nat.not_lt_zero _)
  logged := by
    refine ⟨.nil, fun _ hj => ?_, fun _ hj => ?_, fun _ hLeft => ?_, fun _ _ hj => ?_, fun pre post hSplit => ?_, fun pre post hSplit => ?_⟩
    · cases hj
    · cases hj
    · cases hLeft
    · cases hj
    · exact absurd hSplit.symm (List.append_ne_nil_of_right_ne_nil _ (List.cons_ne_nil _ _))
    · exact absurd hSplit.symm (List.append_ne_nil_of_right_ne_nil _ (List.cons_ne_nil _ _))

theorem fits_of_reachable (hK : k < 2 ^ 30) (hReach : (requests style k).Reachable s) : ∃ h t, Fits style s h t := by
  refine Machine.invariant (P := fun s => ∃ h t, Fits style s h t) ⟨_, _, fits_start style k⟩ ?_ hReach
  intro s l s' ⟨h, t, hFits⟩ hStep
  exact fits_of_steps hK hFits (steps_of_step hStep).2

/-- The steps of a thread in a call. -/
def goes (i : Option (Fin 3)) (n : Nat) : List (Label 3) := List.replicate n (.group (.go i))

/-- The main thread enters the group three times and hands over the notification. -/
def startsRequests : List (Label 3) :=
  [.main] ++ goes none 2 ++ [.main, .main] ++ goes none 1 ++ [.main, .main] ++ goes none 1 ++ [.main, .main] ++ goes none 5 ++
    [.runs 0, .runs 1, .runs 2]

def answersRequests : List (Label 3) :=
  startsRequests ++ [.ends 2] ++ goes (some 2) 1 ++ [.ends 0] ++ goes (some 0) 1 ++ [.ends 1] ++ goes (some 1) 6 ++
    [.summary, .success]

/-- With `dispatch_group_async` the summary may be logged before any request has ended. -/
example : (test_dispatch_group_notify.run (startsRequests ++ [.returns 0] ++ goes (some 0) 1 ++ [.returns 1] ++ goes (some 1) 1 ++
    [.returns 2] ++ goes (some 2) 6 ++ [.summary, .success, .ends 0, .ends 1, .ends 2])).map (fun s => s.log) =
    some [.begins 0, .begins 1, .begins 2, .summary, .success, .ends 0, .ends 1, .ends 2] := by
  decide +kernel

section Progress

def Label.calm : Label k → Bool
  | .group e => e.calm
  | _ => true

/-- All is done: every line has been logged, and no call of the group is under way. -/
structure Finished (s : App k) : Prop where
  logged : ∀ x, x ∈ s.log
  idle : ∀ i, (s.group.point i).idle = true
  disposable : group_dispose s.group = none

/-- The statements, lines and leaves that are left. -/
def remaining (s : App k) : Nat :=
  (2 * k + 1 - s.line) + (Finset.univ \ s.log.toFinset).card + tally (fun b => (!b).toNat) s.left

def workload (s : App k) : Nat :=
  remaining s * (4 * (11 * Fintype.card (Option (Fin k)) + 1) + 1) + variant s.group

theorem workload_of_remaining (hRemaining : remaining s' < remaining s)
    (hVariant : variant s'.group ≤ variant s.group + 4 * (11 * Fintype.card (Option (Fin k)) + 1)) : workload s' < workload s := by
  have hMul := Nat.mul_le_mul_right (4 * (11 * Fintype.card (Option (Fin k)) + 1) + 1) (Nat.succ_le_of_lt hRemaining)
  rw [Nat.succ_mul] at hMul
  unfold workload
  omega

theorem card_logs {log : List (LogLine k)} {x : LogLine k} (hNew : x ∉ log) :
    (Finset.univ \ (log ++ [x]).toFinset).card < (Finset.univ \ log.toFinset).card := by
  have hMem : ∀ {log : List (LogLine k)} {y}, y ∈ Finset.univ \ log.toFinset ↔ y ∉ log := by
    intro log y
    rw [Finset.mem_sdiff, List.mem_toFinset]
    exact and_iff_right (Finset.mem_univ y)
  apply Finset.card_lt_card
  constructor
  · intro y hy
    exact hMem.mpr fun hIn => hMem.mp hy (mem_logs.mpr (.inl hIn))
  · intro hSub
    exact hMem.mp (hSub (hMem.mpr hNew)) (mem_logs.mpr (.inr rfl))

theorem tally_leaves_for {left : Fin k → Bool} {j : Fin k} (hLeft : left j = false) :
    tally (fun b => (!b).toNat) (Function.update left j true) < tally (fun b => (!b).toNat) left := by
  have hTally := tally_update (fun b => (!b).toNat) left j true
  rw [hLeft] at hTally
  simp only [Bool.not_false, Bool.not_true, Bool.toNat_true, Bool.toNat_false] at hTally
  omega

/-- Every step brings the program closer to its end. -/
theorem workload_of_steps (hFits : Fits style s h t) (hLength : s'.group.submitted.length ≤ s'.group.allocated)
    (hAlive : s'.group.crashed = none) {o : Option (Event (Option (Fin k)))} (hCalm : ∀ e, o = some e → e.calm = true)
    (hSteps : Steps style s o s') : workload s' < workload s := by
  have hLine := hFits.counted.line_le
  cases hSteps with
  | enters | notifies =>
    apply workload_of_remaining
    · simp only [remaining]
      omega
    · exact variant_begin_call ..
  | asyncs =>
    apply workload_of_remaining
    · simp only [remaining]
      omega
    · exact Nat.le_add_right ..
  | logs x hReady hNew =>
    have hCard := card_logs hNew
    apply workload_of_remaining
    · simp only [remaining]
      omega
    · exact Nat.le_add_right ..
  | endsLeaving j hStyle hBegun hNew =>
    subst hStyle
    have hCard := card_logs hNew
    have hLeft := tally_leaves_for (Bool.eq_false_of_not_eq_true fun hLeft => hNew (hFits.logged.awaited j hLeft))
    apply workload_of_remaining
    · simp only [remaining]
      omega
    · exact variant_begin_call ..
  | returns j hStyle hBegun hLeft =>
    have hLess := tally_leaves_for hLeft
    apply workload_of_remaining
    · simp only [remaining]
      omega
    · exact variant_begin_call ..
  | group e g hCall hStep => exact Nat.add_lt_add_left (variant_of_calm (hCalm e rfl) hStep hAlive hLength) _

/-- The group has been left for every request once nobody is in a call of it. -/
theorem Fits.empty_of_idle (hFits : Fits style s h t) (hIdle : ∀ i, (s.group.point i).idle = true) (hLine : 2 * k < s.line)
    (hLeft : ∀ j, s.left j = true) : s.group.count = 0 := by
  have hLeaving := hFits.counted.leaving
  have hNone : tally Point.leaves s.group.point = 0 := tally_eq_zero_iff.mpr fun i => Point.leaves_of_idle (hIdle i)
  have hBalanced := hFits.counted.safe.balanced
  have hEntered := hFits.counted.entered
  have hAll : tally Bool.toNat s.left = k := by
    calc tally Bool.toNat s.left = ∑ _j : Fin k, 1 := Finset.sum_congr rfl fun j _ => congrArg Bool.toNat (hLeft j)
      _ = k := by simp
  rw [if_neg (not_enter_of_idle (hIdle none))] at hEntered
  omega

theorem call_of_groupEvent {l : Label k} (hProgram : l.event = none) {e : Event (Option (Fin k))} (he : groupEvent style s l = some e) :
    ∃ i call, e = .call i call := by
  cases l with
  | group => cases hProgram
  | runs | summary | success => cases he
  | returns j => exact ⟨_, _, (Option.some.inj he).symm⟩
  | ends j => exact ⟨_, _, (Option.some.inj (Option.ite_none_right_eq_some.mp he).2).symm⟩
  | main =>
    simp only [groupEvent] at he
    split at he
    · exact ⟨_, _, (Option.some.inj he).symm⟩
    · exact ⟨_, _, (Option.some.inj he).symm⟩
    · cases he

/-- While nobody is in a call of the group the program goes on with what it is ready for. -/
theorem step_of_advance {l : Label k} {a : App k} (hAlive : s.group.crashed = none) (hIdle : ∀ i, (s.group.point i).idle = true)
    (hProgram : l.event = none) (hAdvance : advance style s l = some a) : ∃ s', step style s l = some s' := by
  rw [step, if_neg (not_crashed hAlive), hAdvance]
  cases hEvent : groupEvent style s l with
  | none => exact ⟨_, rfl⟩
  | some e =>
    obtain ⟨i, call, rfl⟩ := call_of_groupEvent hProgram hEvent
    refine ⟨{ a with group := begin_call s.group i call }, ?_⟩
    change (Group.step s.group (.call i call)).map _ = _
    rw [step_call hAlive (hIdle i)]
    rfl

/-- As long as something is left to do, somebody can go on. -/
theorem Fits.goes_on (hFits : Fits style s h t) (hNot : ¬ Finished s) : ∃ (l : Label k) (s' : App k), l.calm = true ∧ step style s l = some s' := by
  have hAlive := hFits.alive
  have hSafe := hFits.counted.safe
  by_cases hIdle : ∀ i, (s.group.point i).idle = true
  · have hGo : ∀ {l : Label k} {a : App k}, l.calm = true → l.event = none → advance style s l = some a →
        ∃ (l : Label k) (s' : App k), l.calm = true ∧ step style s l = some s' := by
      intro l a hCalm hProgram hAdvance
      obtain ⟨s', hStep⟩ := step_of_advance hAlive hIdle hProgram hAdvance
      exact ⟨l, s', hCalm, hStep⟩
    by_cases hLine : s.line ≤ 2 * k
    · exact hGo (l := .main) rfl rfl (if_pos ⟨hIdle none, hLine⟩)
    · have hLast : s.line = 2 * k + 1 := by
        have hLe := hFits.counted.line_le
        omega
      by_cases hBegun : ∀ j, .begins j ∈ s.log
      · by_cases hEnded : ∀ j, .ends j ∈ s.log
        · by_cases hLeft : ∀ j, s.left j = true
          · have hEmpty := hFits.empty_of_idle hIdle (by omega) hLeft
            obtain ⟨hSubmitted, _, hDispose⟩ := hSafe.of_idle hIdle hEmpty
            by_cases hSummary : .summary ∈ s.log
            · by_cases hSuccess : .success ∈ s.log
              · refine absurd ⟨fun x => ?_, hIdle, hDispose⟩ hNot
                cases x with
                | begins j => exact hBegun j
                | ends j => exact hEnded j
                | summary => exact hSummary
                | success => exact hSuccess
              · exact hGo (l := .success) rfl rfl (if_pos ⟨hSummary, hSuccess⟩)
            · have hAllocated := hFits.counted.allocated
              rw [if_neg hLine] at hAllocated
              have hZero : 0 ∈ s.group.submitted := hSubmitted 0 (hAllocated ▸ Nat.one_pos)
              exact hGo (l := .summary) rfl rfl (if_pos ⟨hZero, hSummary⟩)
          · push Not at hLeft
            obtain ⟨j, hj⟩ := hLeft
            have hFalse := Bool.eq_false_of_not_eq_true hj
            cases style with
            | enterLeave => exact absurd (hFits.logged.handled rfl j (hEnded j)) hj
            | groupAsync => exact hGo (l := .returns j) rfl rfl (if_pos ⟨rfl, hBegun j, hFalse⟩)
        · push Not at hEnded
          obtain ⟨j, hj⟩ := hEnded
          exact hGo (l := .ends j) rfl rfl (if_pos ⟨hBegun j, hj⟩)
      · push Not at hBegun
        obtain ⟨j, hj⟩ := hBegun
        have hQueued : j.val < s.line / 2 := by
          have hLt := j.isLt
          omega
        exact hGo (l := .runs j) rfl rfl (if_pos ⟨hQueued, hj⟩)
  · push Not at hIdle
    obtain ⟨i, hi⟩ := hIdle
    have hAwake : ∀ timeout gen, s.group.point i ≠ .asleep timeout gen := by
      intro timeout gen hPoint
      have hWaits := hFits.counted.waits i
      rw [hPoint] at hWaits
      cases hWaits
    obtain ⟨j, g, hGo⟩ := go_of_busy hSafe.listed hSafe.guarded (Bool.eq_false_of_not_eq_true hi) hAwake
    refine ⟨.group (.go j), { s with group := g }, rfl, ?_⟩
    rw [step, if_neg (not_crashed hAlive)]
    change (Group.step s.group (.go j)).map _ = _
    rw [step_go hAlive, hGo]
    rfl

/-- From any state that can be reached, every request ends and the summary is logged, if the
requests are answered at all. -/
theorem requests_finish (hK : k < 2 ^ 30) (hReach : (requests style k).Reachable s) :
    ((requests style k).restrict Label.calm).Inevitably Finished s := by
  refine Machine.inevitably_of_variant (fun s => ∃ h t, Fits style s h t) workload ?_ ?_ (fits_of_reachable hK hReach)
  · intro s ⟨h, t, hFits⟩ hNot
    obtain ⟨l, s', hCalm, hStep⟩ := hFits.goes_on hNot
    exact ⟨l, s', Machine.restrict_step.mpr ⟨hCalm, hStep⟩⟩
  · intro s l s' ⟨h, t, hFits⟩ _ hStep
    obtain ⟨hCalm, hStep⟩ := Machine.restrict_step.mp hStep
    obtain ⟨_, hSteps⟩ := steps_of_step hStep
    obtain ⟨h', t', hFits'⟩ := fits_of_steps hK hFits hSteps
    refine .inr ⟨⟨h', t', hFits'⟩, ?_⟩
    refine workload_of_steps hFits hFits'.counted.safe.listed.submitted_length hFits'.alive (fun e he => ?_) hSteps
    cases l with
    | group e' =>
      cases he
      exact hCalm
    | _ => cases he

theorem requests_finish_from_notify : ∃ s, test_dispatch_group_notify.run startsRequests = some s ∧
    s.log = [.begins 0, .begins 1, .begins 2] ∧ (test_dispatch_group_notify.restrict Label.calm).Inevitably Finished s := by
  obtain ⟨s, hRun⟩ := Option.isSome_iff_exists.mp
    (show (test_dispatch_group_notify.run startsRequests).isSome = true by decide +kernel)
  have hLog := Machine.read_of_run hRun (f := fun s => s.log) (x := [.begins 0, .begins 1, .begins 2]) (by decide +kernel)
  exact ⟨s, hRun, hLog, requests_finish (k := 3) (by decide) ⟨_, hRun⟩⟩

end Progress

end OCNote.Requests
