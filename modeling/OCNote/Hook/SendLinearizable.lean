import OCNote.Hook.CacheCoherence

/-! # What a message runs while the tables change

A bucket array is never cleared, only replaced, so that a scan that still reads an old array can
only find what was cached while it was under way or before. Every message therefore
runs what the method tables said at some moment between its start and its end. -/

namespace OCNote.Hook
open OCNote.Support Dispatcher
set_option autoImplicit false

universe u

variable {Cls Sel Imp : Type u} [DecidableEq Cls] [DecidableEq Sel] [DecidableEq Imp] {address : Sel → Nat}
  {forward_imp : Imp} {F : Forest Cls} {known : List Cls} {T : MethodTables Cls Sel Imp}

/-- The event by which the message `k` starts. -/
def Starts (e : Event Cls Sel Imp) (k : Nat) (cls : Cls) (sel : Sel) : Prop :=
  e = .objc_msgSend k cls sel ∨ e = .lookUpImpTryCache k cls sel

variable (forward_imp F known T) in
/-- At a moment of the run after the start of the message `k`, the tables answered `imp`. -/
def AnsweredDuring (address : Sel → Nat) (es : List (Event Cls Sel Imp)) (k : Nat) (cls : Cls) (sel : Sel)
    (imp : Option Imp) : Prop :=
  ∃ pre e mid post s, es = pre ++ e :: (mid ++ post) ∧ Starts e k cls sel ∧
    (dispatcher forward_imp F known T : Machine (Dispatcher Cls Sel Imp address) _).run (pre ++ e :: mid) = some s ∧
    answer forward_imp F s.published cls sel = imp

theorem AnsweredDuring.append {es : List (Event Cls Sel Imp)} {k : Nat} {cls : Cls} {sel : Sel} {imp : Option Imp}
    (h : AnsweredDuring forward_imp F known T address es k cls sel imp) (f : Event Cls Sel Imp) :
    AnsweredDuring forward_imp F known T address (es ++ [f]) k cls sel imp := by
  obtain ⟨pre, e, mid, post, s, rfl, hStarts, hRun, hImp⟩ := h
  exact ⟨pre, e, mid, post ++ [f], s, by simp, hStarts, hRun, hImp⟩

/-- The message has started, so that the present moment counts. -/
def Started (es : List (Event Cls Sel Imp)) (k : Nat) (cls : Cls) (sel : Sel) : Prop :=
  ∃ pre e post, es = pre ++ e :: post ∧ Starts e k cls sel

omit [DecidableEq Cls] [DecidableEq Sel] [DecidableEq Imp] in
theorem Started.append {es : List (Event Cls Sel Imp)} {k : Nat} {cls : Cls} {sel : Sel}
    (h : Started es k cls sel) (f : Event Cls Sel Imp) : Started (es ++ [f]) k cls sel := by
  obtain ⟨pre, e, post, rfl, hStarts⟩ := h
  exact ⟨pre, e, post ++ [f], by simp, hStarts⟩

theorem Started.now {es : List (Event Cls Sel Imp)} {k : Nat} {cls : Cls} {sel : Sel} {imp : Option Imp}
    {s : Dispatcher Cls Sel Imp address} (h : Started es k cls sel)
    (hRun : (dispatcher forward_imp F known T).run es = some s)
    (hImp : answer forward_imp F s.published cls sel = imp) :
    AnsweredDuring forward_imp F known T address es k cls sel imp := by
  obtain ⟨pre, e, post, rfl, hStarts⟩ := h
  exact ⟨pre, e, post, [], s, by simp, hStarts, hRun, hImp⟩

variable (forward_imp F known T) in
/-- What is known of a message in each phase. -/
def Tracks (es : List (Event Cls Sel Imp)) (s : Dispatcher Cls Sel Imp address) (k : Nat)
    (message : Message Cls Sel Imp) : SendPhase Imp → Prop
  | .scanning _ generation _ =>
    generation ≤ (s.caches message.cls).1.generation ∧ ∀ i imp,
      (s.view message.cls generation).entry i = some (message.sel, imp) →
        AnsweredDuring forward_imp F known T address es k message.cls message.sel imp
  | .missed _ => True
  | .resolving => True
  | .returned imp => AnsweredDuring forward_imp F known T address es k message.cls message.sel imp

section Views

variable {s : Dispatcher Cls Sel Imp address} {cls : Cls} {c : ValidCache Imp address}

omit [DecidableEq Cls] [DecidableEq Imp] in
theorem view_current (s : Dispatcher Cls Sel Imp address) (cls : Cls) :
    s.view cls (s.caches cls).1.generation = (s.caches cls).1.buckets := if_pos rfl

omit [DecidableEq Imp] in
theorem view_setCache_of_ne {d : Cls} (h : d ≠ cls) (generation : Nat) :
    (s.setCache cls c).view d generation = s.view d generation := by
  unfold view
  rw [setCache_of_ne s h]
  congr 1
  unfold setCache
  dsimp only
  split
  · rfl
  · rw [Function.update_of_ne h]

omit [DecidableEq Imp] in
/-- Replacing the buckets leaves the array that is scanned where it can be read. -/
theorem view_setCache_replaced (hNext : c.1.generation = (s.caches cls).1.generation + 1) {generation : Nat}
    (hOld : generation ≤ (s.caches cls).1.generation) :
    (s.setCache cls c).view cls generation = s.view cls generation := by
  have hNe : c.1.generation ≠ (s.caches cls).1.generation := by omega
  unfold view
  rw [setCache_self, if_neg (by omega)]
  unfold setCache
  dsimp only
  rw [if_neg hNe, Function.update_self]
  split
  · rename_i hCurrent
    rw [hCurrent, Function.update_self]
  · rename_i hEarlier
    rw [Function.update_of_ne hEarlier]

omit [DecidableEq Imp] in
theorem view_setCache_kept (hSame : c.1.generation = (s.caches cls).1.generation) (generation : Nat) :
    (s.setCache cls c).view cls generation =
      if generation = (s.caches cls).1.generation then c.1.buckets else s.view cls generation := by
  unfold view
  rw [setCache_self, hSame]
  split
  · rfl
  · unfold setCache
    rw [if_pos hSame]

variable (forward_imp F) in
/-- Arrays that can be scanned stay, and gain only what the tables answer. -/
def Extends (s s' : Dispatcher Cls Sel Imp address) : Prop :=
  ∀ cls generation, generation ≤ (s.caches cls).1.generation →
    generation ≤ (s'.caches cls).1.generation ∧
      ∀ i sel imp, (s'.view cls generation).entry i = some (sel, imp) →
        (s.view cls generation).entry i = some (sel, imp) ∨ answer forward_imp F s.published cls sel = imp

omit [DecidableEq Cls] [DecidableEq Imp] in
theorem extends_of_same {s' : Dispatcher Cls Sel Imp address} (hCaches : s'.caches = s.caches)
    (hRetired : s'.retired = s.retired) : Extends forward_imp F s s' := by
  intro cls generation hOld
  refine ⟨hCaches ▸ hOld, fun i sel imp hEntry => .inl ?_⟩
  rw [view, hCaches, hRetired] at hEntry
  exact hEntry

omit [DecidableEq Imp] in
theorem extends_setCache
    (hGeneration : c.1.generation = (s.caches cls).1.generation ∨
      c.1.generation = (s.caches cls).1.generation + 1)
    (hEntries : c.1.generation = (s.caches cls).1.generation → ∀ i sel imp,
      c.1.buckets.entry i = some (sel, imp) → (s.caches cls).1.buckets.entry i = some (sel, imp) ∨
        answer forward_imp F s.published cls sel = imp) :
    Extends forward_imp F s (s.setCache cls c) := by
  intro d generation hOld
  obtain rfl | hd := eq_or_ne d cls
  · rw [setCache_self]
    obtain hSame | hNext := hGeneration
    · refine ⟨hSame ▸ hOld, fun i sel imp hEntry => ?_⟩
      rw [view_setCache_kept hSame] at hEntry
      split at hEntry
      · rename_i hCurrent
        rw [hCurrent, view_current]
        exact hEntries hSame i sel imp hEntry
      · exact .inl hEntry
    · refine ⟨by omega, fun i sel imp hEntry => .inl ?_⟩
      rwa [view_setCache_replaced hNext hOld] at hEntry
  · rw [setCache_of_ne s hd]
    refine ⟨hOld, fun i sel imp hEntry => .inl ?_⟩
    rwa [view_setCache_of_ne hd] at hEntry

omit [DecidableEq Imp] in
theorem extends_insert (initialized : Bool) {sel : Sel} {imp : Option Imp}
    (hImp : answer forward_imp F s.published cls sel = imp) :
    Extends forward_imp F s (s.setCache cls ((s.caches cls).insert initialized sel imp)) := by
  have hInserts := (s.caches cls).inserts initialized sel imp
  refine extends_setCache (hInserts.array.imp_left And.left) fun _ i key v hEntry => ?_
  obtain ⟨rfl, rfl⟩ | ⟨_, hOld⟩ := hInserts.entries i key v hEntry
  · exact .inr hImp
  · exact .inl hOld

theorem extends_lookUpStep (h : Sound forward_imp F known s) (hFree : s.flushing = none) (k : Nat)
    (message : Message Cls Sel Imp) (retry noCache : Bool) :
    Extends forward_imp F s (lookUpStep forward_imp F s k message retry noCache) := by
  have hFound := h.lookUp hFree message.cls message.sel
  unfold lookUpStep
  dsimp only
  generalize lookUpFrom forward_imp _ _ (F.chain message.cls) = found at hFound
  split
  · exact extends_of_same rfl rfl
  · cases noCache with
    | true => exact extends_of_same rfl rfl
    | false => exact extends_insert (s := { s with tree := _ }) _ hFound.symm

theorem extends_of_steps {e : Event Cls Sel Imp} {s s' : Dispatcher Cls Sel Imp address}
    (h : Sound forward_imp F known s) (hStep : Steps forward_imp F known s e s') :
    Extends forward_imp F s s' := by
  cases hStep with
  | scans _ => exact extends_of_same rfl rfl
  | lookUp _ _ hFree _ => exact extends_lookUpStep h hFree _ _ _ _
  | setInitialized => exact extends_of_same rfl rfl
  | mutate _ _ => exact extends_of_same rfl rfl
  | @erase cls todo predicate _ _ =>
    obtain ⟨_, _, hNone, hSame | hNext⟩ := CacheT.eraseNolock_spec (s.caches cls).2
    · refine extends_setCache (s := { s with flushing := _ }) (.inl (congrArg _ hSame)) fun _ i sel imp hEntry => ?_
      rw [show (s.caches cls).eraseNolock.1.buckets.entry i = none from hNone i] at hEntry
      cases hEntry
    · refine extends_setCache (s := { s with flushing := _ }) (.inr hNext) fun _ i sel imp hEntry => ?_
      rw [show (s.caches cls).eraseNolock.1.buckets.entry i = none from hNone i] at hEntry
      cases hEntry
  | keep _ _ => exact extends_of_same rfl rfl
  | unlock _ => exact extends_of_same rfl rfl

end Views

section Run

theorem Tracks.extend {es : List (Event Cls Sel Imp)} {s s' : Dispatcher Cls Sel Imp address} {k : Nat}
    {message : Message Cls Sel Imp} {phase : SendPhase Imp}
    (h : Tracks forward_imp F known T es s k message phase)
    (hRun : (dispatcher forward_imp F known T).run es = some s) (hStarted : Started es k message.cls message.sel)
    (hExtends : Extends forward_imp F s s') (e : Event Cls Sel Imp) :
    Tracks forward_imp F known T (es ++ [e]) s' k message phase := by
  cases phase with
  | scanning retry generation path =>
    obtain ⟨hOld, hView⟩ := h
    obtain ⟨hOld', hView'⟩ := hExtends message.cls generation hOld
    refine ⟨hOld', fun i imp hEntry => ?_⟩
    obtain hEntry | hImp := hView' i message.sel imp hEntry
    · exact (hView i imp hEntry).append e
    · exact (hStarted.now hRun hImp).append e
  | missed retry => trivial
  | resolving => trivial
  | returned imp => exact AnsweredDuring.append h e

/-- A scan that begins finds only what the tables answer now. -/
theorem tracks_scanStart {es : List (Event Cls Sel Imp)} {s s' : Dispatcher Cls Sel Imp address} {k : Nat}
    {message : Message Cls Sel Imp} (hSound : Sound forward_imp F known s')
    (hRun : (dispatcher forward_imp F known T).run es = some s') (hStarted : Started es k message.cls message.sel)
    (hCaches : s'.caches = s.caches) (retry : Bool) :
    Tracks forward_imp F known T es s' k message (s.scanStart message.cls message.sel retry) := by
  refine ⟨Nat.le_of_eq (by rw [hCaches]), fun i imp hEntry => ?_⟩
  rw [← hCaches, view_current] at hEntry
  exact hStarted.now hRun (hSound.coherent message.cls i message.sel imp hEntry)

theorem tracks_scanStep {es : List (Event Cls Sel Imp)} {s : Dispatcher Cls Sel Imp address} {k : Nat}
    {message : Message Cls Sel Imp} {retry : Bool} {generation : Nat} {path : List Nat}
    (h : Tracks forward_imp F known T es s k message (.scanning retry generation path)) :
    Tracks forward_imp F known T es s k message
      (scanStep (s.view message.cls generation) message.sel retry generation path) := by
  cases path with
  | nil => trivial
  | cons i path =>
    rw [scanStep]
    split
    · trivial
    · rename_i key imp hEntry
      split
      · rename_i hKey
        split
        · trivial
        · exact h.2 i imp (by rw [hEntry, hKey])
      · exact h

theorem tracks_scans {es : List (Event Cls Sel Imp)} {s : Dispatcher Cls Sel Imp address} {e : Event Cls Sel Imp}
    {k : Nat} {message : Message Cls Sel Imp} {phase : SendPhase Imp} (hScans : Scans s e k message phase)
    (hSound : Sound forward_imp F known (s.setPhase k message phase))
    (hRun : (dispatcher forward_imp F known T).run (es ++ [e]) = some (s.setPhase k message phase))
    (hOld : s.messages k = some message → Started (es ++ [e]) k message.cls message.sel ∧
      Tracks forward_imp F known T (es ++ [e]) (s.setPhase k message phase) k message message.phase) :
    Started (es ++ [e]) k message.cls message.sel ∧
      Tracks forward_imp F known T (es ++ [e]) (s.setPhase k message phase) k message phase := by
  cases hScans with
  | @msgSend k cls sel _ =>
    have hStarted : Started (es ++ [Event.objc_msgSend k cls sel]) k cls sel := ⟨es, _, [], rfl, .inl rfl⟩
    exact ⟨hStarted, tracks_scanStart hSound hRun hStarted rfl false⟩
  | @tryCache k cls sel _ =>
    have hStarted : Started (es ++ [Event.lookUpImpTryCache k cls sel]) k cls sel := ⟨es, _, [], rfl, .inr rfl⟩
    exact ⟨hStarted, tracks_scanStart hSound hRun hStarted rfl true⟩
  | bucket hMessage hPhase =>
    obtain ⟨hStarted, hTracks⟩ := hOld hMessage
    rw [hPhase] at hTracks
    exact ⟨hStarted, tracks_scanStep hTracks⟩
  | recover hMessage _ => exact ⟨(hOld hMessage).1, trivial⟩
  | resolved hMessage _ =>
    have hStarted := (hOld hMessage).1
    exact ⟨hStarted, tracks_scanStart hSound hRun hStarted rfl true⟩

/-- With the lock held a message is told what the tables answer, or is sent to the resolver. -/
theorem lookUpStep_messages {s : Dispatcher Cls Sel Imp address} (h : Sound forward_imp F known s)
    (hFree : s.flushing = none) (k : Nat) (message : Message Cls Sel Imp) (retry noCache : Bool) :
    ∃ phase, (phase = .resolving ∨ phase = .returned (answer forward_imp F s.published message.cls message.sel)) ∧
      (lookUpStep forward_imp F s k message retry noCache).messages =
        Function.update s.messages k (some { message with phase := phase }) := by
  have hFound := h.lookUp hFree message.cls message.sel
  unfold lookUpStep
  dsimp only
  generalize lookUpFrom forward_imp _ _ (F.chain message.cls) = found at hFound
  split
  · exact ⟨.resolving, .inl rfl, rfl⟩
  · refine ⟨.returned (found.imp forward_imp), .inr (by rw [hFound]), ?_⟩
    cases noCache <;> rfl

theorem tracked {es : List (Event Cls Sel Imp)} {s : Dispatcher Cls Sel Imp address}
    (h : (dispatcher forward_imp F known T).run es = some s) :
    ∀ k message, s.messages k = some message → Started es k message.cls message.sel ∧
      Tracks forward_imp F known T es s k message message.phase := by
  refine Machine.run_induction (P := fun es s => ∀ k message, s.messages k = some message →
    Started es k message.cls message.sel ∧ Tracks forward_imp F known T es s k message message.phase)
    (fun k message hMessage => by cases hMessage) ?_ es s h
  intro es s e s' hRun ih hNext k message hMessage
  have hSound := sound_of_reachable T ⟨es, hRun⟩
  have hStep := steps_of_dispatchStep hNext
  have hExtends := extends_of_steps hSound hStep
  have hRun' : (dispatcher forward_imp F known T).run (es ++ [e]) = some s' := by
    rw [Machine.run_concat, hRun]
    exact hNext
  have hFrame : ∀ message, s.messages k = some message → Started (es ++ [e]) k message.cls message.sel ∧
      Tracks forward_imp F known T (es ++ [e]) s' k message message.phase := fun message hOld =>
    ⟨(ih k message hOld).1.append e, (ih k message hOld).2.extend hRun (ih k message hOld).1 hExtends e⟩
  cases hStep with
  | @scans _ j moved phase hScans =>
    obtain rfl | hj := eq_or_ne k j
    · rw [setPhase_self] at hMessage
      cases hMessage
      have hNew := tracks_scans hScans (sound_of_reachable T ⟨es ++ [e], hRun'⟩) hRun' (hFrame moved)
      exact ⟨hNew.1, hNew.2⟩
    · rw [setPhase_of_ne s hj] at hMessage
      exact hFrame message hMessage
  | @lookUp j noCache moved retry hMoved _ hFree _ =>
    obtain ⟨phase, hPhase, hMessages⟩ := lookUpStep_messages hSound hFree j moved retry noCache
    rw [hMessages] at hMessage
    obtain rfl | hj := eq_or_ne k j
    · rw [Function.update_self] at hMessage
      cases hMessage
      have hStarted := (ih k moved hMoved).1
      refine ⟨hStarted.append _, ?_⟩
      obtain rfl | rfl := hPhase
      · trivial
      · exact (hStarted.now hRun rfl).append _
    · rw [Function.update_of_ne hj] at hMessage
      exact hFrame message hMessage
  | setInitialized => exact hFrame message hMessage
  | mutate _ _ => exact hFrame message hMessage
  | erase _ _ => exact hFrame message hMessage
  | keep _ _ => exact hFrame message hMessage
  | unlock _ => exact hFrame message hMessage

/-- Every message runs what the method tables answered at a moment between its start and its
end, whatever was sent, cached, changed and flushed meanwhile. -/
theorem msgSend_linearizable {es : List (Event Cls Sel Imp)} {s : Dispatcher Cls Sel Imp address}
    (h : (dispatcher forward_imp F known T).run es = some s) {k : Nat} {cls : Cls} {sel : Sel} {imp : Option Imp}
    (hReturned : s.messages k = some ⟨cls, sel, .returned imp⟩) :
    AnsweredDuring forward_imp F known T address es k cls sel imp := (tracked h k _ hReturned).2

end Run

section Demo

/-- The second message hits the old entry while the implementations are being exchanged. -/
def sendDuringExchange : List (Event Bool Bool Nat) :=
  sendOnce ++ [.objc_msgSend 1 true false,
    .mutate (.exchangeImplementations (some ⟨true, false⟩) (some ⟨true, true⟩)), .scanBucket 1, .flush]

theorem msgSend_linearizable_during_exchange :
    ∃ s : Dispatcher Bool Bool Nat boolAddress,
      (dispatcher 0 parentAndChild [true, false] ownHook).run sendDuringExchange = some s ∧
      s.messages 1 = some ⟨true, false, .returned (some 1)⟩ ∧
      AnsweredDuring 0 parentAndChild [true, false] ownHook boolAddress sendDuringExchange 1 true false (some 1) := by
  obtain ⟨s, h⟩ := Option.isSome_iff_exists.mp (show ((dispatcher 0 parentAndChild [true, false] ownHook :
    Machine (Dispatcher Bool Bool Nat boolAddress) _).run sendDuringExchange).isSome = true by decide +kernel)
  have hReturned : s.messages 1 = some ⟨true, false, .returned (some 1)⟩ :=
    Machine.read_of_run h (f := fun s => s.messages 1) (by decide +kernel)
  exact ⟨s, h, hReturned, msgSend_linearizable h hReturned⟩

end Demo

end OCNote.Hook
