import Mathlib.Data.List.Perm.Subperm
import OCNote.Hook.CachedDispatch

/-! # Caches agree with the method tables

Whatever is cached is what the tables said when the runtime lock was last free. During a
critical section a cache either is still to be visited by a flush that will erase it, or agrees
with the changed tables already. -/

namespace OCNote.Hook
open OCNote.Support Dispatcher
set_option autoImplicit false

universe u

variable {Cls Sel Imp : Type u} [DecidableEq Cls] [DecidableEq Sel] [DecidableEq Imp] {address : Sel → Nat}
  {forward_imp : Imp} {F : Forest Cls} {known : List Cls}

/-- What a message does that starts or goes on without the lock. -/
inductive Scans (s : Dispatcher Cls Sel Imp address) :
    Event Cls Sel Imp → Nat → Message Cls Sel Imp → SendPhase Imp → Prop
  | msgSend {k cls sel} (hNew : s.messages k = none) :
    Scans s (.objc_msgSend k cls sel) k ⟨cls, sel, .resolving⟩ (s.scanStart cls sel false)
  | tryCache {k cls sel} (hNew : s.messages k = none) :
    Scans s (.lookUpImpTryCache k cls sel) k ⟨cls, sel, .resolving⟩ (s.scanStart cls sel true)
  | bucket {k message retry generation path} (hMessage : s.messages k = some message)
      (hPhase : message.phase = .scanning retry generation path) :
    Scans s (.scanBucket k) k message
      (scanStep (s.view message.cls generation) message.sel retry generation path)
  | recover {k message retry generation path} (hMessage : s.messages k = some message)
      (hPhase : message.phase = .scanning retry generation path) :
    Scans s (.recover k) k message (.missed retry)
  | resolved {k message} (hMessage : s.messages k = some message) (hPhase : message.phase = .resolving) :
    Scans s (.resolved k) k message (s.scanStart message.cls message.sel true)

/-- What each event does. -/
inductive Steps (forward_imp : Imp) (F : Forest Cls) (known : List Cls) (s : Dispatcher Cls Sel Imp address) :
    Event Cls Sel Imp → Dispatcher Cls Sel Imp address → Prop
  | scans {e k message phase} (h : Scans s e k message phase) :
    Steps forward_imp F known s e (s.setPhase k message phase)
  | lookUp {k noCache message retry} (hMessage : s.messages k = some message)
      (hPhase : message.phase = .missed retry) (hFree : s.flushing = none)
      (hKnown : ∀ d ∈ F.chain message.cls, d ∈ known) :
    Steps forward_imp F known s (.lookUpImpOrForward k noCache)
      (lookUpStep forward_imp F s k message retry noCache)
  | setInitialized {cls} :
    Steps forward_imp F known s (.setInitialized cls)
      { s with initialized := Function.update s.initialized cls true }
  | mutate {m flushing} (hFree : s.flushing = none)
      (hFlush : flushList F known s.tree (mutate address s.tables m).2 = some flushing) :
    Steps forward_imp F known s (.mutate m)
      { s with tables := (mutate address s.tables m).1, flushing := some flushing }
  | erase {cls todo predicate} (hFlushing : s.flushing = some ⟨cls :: todo, predicate⟩)
      (hErase : predicate (s.caches cls).1 = true) :
    Steps forward_imp F known s .flush
      (setCache { s with flushing := some ⟨todo, predicate⟩ } cls (s.caches cls).eraseNolock)
  | keep {cls todo predicate} (hFlushing : s.flushing = some ⟨cls :: todo, predicate⟩)
      (hKeep : predicate (s.caches cls).1 = false) :
    Steps forward_imp F known s .flush { s with flushing := some ⟨todo, predicate⟩ }
  | unlock {predicate} (hFlushing : s.flushing = some ⟨[], predicate⟩) :
    Steps forward_imp F known s .unlock { s with flushing := none, published := s.tables }

theorem steps_of_dispatchStep {s s' : Dispatcher Cls Sel Imp address} {e : Event Cls Sel Imp}
    (h : dispatchStep forward_imp F known s e = some s') : Steps forward_imp F known s e s' := by
  cases e with
  | objc_msgSend k cls sel =>
    simp only [dispatchStep] at h
    split at h
    · cases h
      exact .scans (.msgSend ‹_›)
    · cases h
  | lookUpImpTryCache k cls sel =>
    simp only [dispatchStep] at h
    split at h
    · cases h
      exact .scans (.tryCache ‹_›)
    · cases h
  | scanBucket k =>
    simp only [dispatchStep] at h
    split at h
    · split at h
      · cases h
        exact .scans (.bucket ‹_› ‹_›)
      · cases h
    · cases h
  | recover k =>
    simp only [dispatchStep] at h
    split at h
    · split at h
      · cases h
        exact .scans (.recover ‹_› ‹_›)
      · cases h
    · cases h
  | lookUpImpOrForward k noCache =>
    simp only [dispatchStep] at h
    split at h
    · split at h
      · split at h
        · rename_i hBoth
          cases h
          exact .lookUp ‹_› ‹_› (Option.isNone_iff_eq_none.mp hBoth.1) hBoth.2
        · cases h
      · cases h
    · cases h
  | resolved k =>
    simp only [dispatchStep] at h
    split at h
    · split at h
      · cases h
        exact .scans (.resolved ‹_› ‹_›)
      · cases h
    · cases h
  | setInitialized cls =>
    cases h
    exact .setInitialized
  | mutate m =>
    simp only [dispatchStep] at h
    split at h
    · rename_i hFree
      obtain ⟨flushing, hFlush, rfl⟩ := Option.map_eq_some_iff.mp h
      exact .mutate (Option.isNone_iff_eq_none.mp hFree) hFlush
    · cases h
  | flush =>
    simp only [dispatchStep] at h
    split at h
    · rename_i hFlushing
      cases h
      split
      · exact .erase hFlushing ‹_›
      · rename_i hKeep
        exact .keep hFlushing (Bool.eq_false_iff.mpr hKeep)
    · cases h
  | unlock =>
    simp only [dispatchStep] at h
    split at h
    · cases h
      exact .unlock ‹_›
    · cases h

variable (forward_imp F known)

/-- The invariant of the runtime; messages do not matter to it. -/
structure Sound (s : Dispatcher Cls Sel Imp address) : Prop where
  tree : ∃ loaded, s.tree = realizeAll F loaded ∧ ∀ c ∈ loaded, ∀ d ∈ F.chain c, d ∈ known
  realized : ∀ cls i e, (s.caches cls).1.buckets.entry i = some e → s.tree.realized cls = true
  coherent : ∀ cls, Coherent forward_imp F s.published cls (s.caches cls).1.buckets
  free : s.flushing = none → s.tables = s.published
  pending : ∀ flushing, s.flushing = some flushing → ∀ cls,
    (cls ∈ flushing.todo ∧ flushing.predicate (s.caches cls).1 = true) ∨
      Coherent forward_imp F s.tables cls (s.caches cls).1.buckets

variable {forward_imp F known}

omit [DecidableEq Imp] in
theorem Sound.setPhase {s : Dispatcher Cls Sel Imp address} (h : Sound forward_imp F known s) (k : Nat)
    (message : Message Cls Sel Imp) (phase : SendPhase Imp) :
    Sound forward_imp F known (s.setPhase k message phase) :=
  ⟨h.tree, h.realized, h.coherent, h.free, h.pending⟩

omit [DecidableEq Imp] in
/-- A walk makes out exactly the realized classes that a change can concern. -/
theorem Sound.mem_flushList {s : Dispatcher Cls Sel Imp address} (h : Sound forward_imp F known s)
    {flush : FlushCaches Cls Sel Imp} {flushing : Flushing Cls Sel Imp}
    (hFlush : flushList F known s.tree (some flush) = some flushing) {cls : Cls}
    (hRealized : s.tree.realized cls = true) (hBelow : ∀ c, flush.cls = some c → c ∈ F.chain cls) :
    cls ∈ flushing.todo ∧ flushing.predicate = flush.predicate := by
  obtain ⟨loaded, hTree, hKnown⟩ := h.tree
  have hCount : ∀ l : List Cls, l.Nodup → (∀ d ∈ l, (realizeAll F loaded).realized d = true) →
      l.length ≤ 8 * (known.length + 1) := by
    intro l hNodup hl
    obtain ⟨_, _, _, hIff⟩ := realizeAll_represents F loaded
    have hSubset : l ⊆ known := fun d hd => by
      obtain ⟨c, hc, hMem⟩ := (hIff d).mp (hl d hd)
      exact hKnown c hc d hMem
    have hLength := (hNodup.subperm hSubset).length_le
    omega
  obtain ⟨hBelowTop, l, hAll, _, hMem⟩ := foreach_realized_class_visits F loaded hCount (fun _ => true)
  rw [← hTree] at hBelowTop hAll hMem
  obtain ⟨top, predicate⟩ := flush
  cases top with
  | none =>
    rw [flushList, hAll] at hFlush
    cases hFlush
    exact ⟨(hMem cls).mpr hRealized, rfl⟩
  | some top =>
    simp only [flushList] at hFlush
    split at hFlush
    · rename_i hTop
      obtain ⟨l, hWalk, _, hMem⟩ := hBelowTop top hTop
      rw [hWalk] at hFlush
      cases hFlush
      exact ⟨(hMem cls).mpr ⟨hRealized, hBelow top rfl, fun _ _ _ _ => rfl⟩, rfl⟩
    · cases hFlush

theorem Sound.lookUp {s : Dispatcher Cls Sel Imp address} (h : Sound forward_imp F known s)
    (hFree : s.flushing = none) (cls : Cls) (sel : Sel) :
    (lookUpFrom forward_imp (fun d => ownImp s.tables d sel)
      (fun d => (s.caches d).1.cache_getImp address sel) (F.chain cls)).imp forward_imp =
        answer forward_imp F s.published cls sel := by
  rw [lookUpFrom_eq, h.free hFree]
  intro d _ imp hCached
  rw [h.free hFree]
  obtain ⟨i, hEntry⟩ := (CacheT.CacheLookup_eq_some (s.caches d).2).mp (Option.join_eq_some_iff.mp hCached)
  exact h.coherent d i sel (some imp) hEntry

omit [DecidableEq Cls] [DecidableEq Imp] in
theorem coherent_of_inserts {T : MethodTables Cls Sel Imp} {cls : Cls} {c c' : CacheT Sel Imp}
    {initialized : Bool} {sel : Sel} {imp : Option Imp}
    (hInserts : CacheT.Inserts address c c' initialized sel imp)
    (h : Coherent forward_imp F T cls c.buckets) (hImp : answer forward_imp F T cls sel = imp) :
    Coherent forward_imp F T cls c'.buckets := by
  intro i key v hEntry
  obtain ⟨rfl, rfl⟩ | ⟨_, hOld⟩ := hInserts.entries i key v hEntry
  · exact hImp
  · exact h i key v hOld

omit [DecidableEq Imp] in
theorem Sound.insert {s : Dispatcher Cls Sel Imp address} (h : Sound forward_imp F known s)
    (hFree : s.flushing = none) {cls : Cls} (hRealized : s.tree.realized cls = true) (initialized : Bool) {sel : Sel}
    {imp : Option Imp} (hImp : answer forward_imp F s.published cls sel = imp) :
    Sound forward_imp F known (s.setCache cls ((s.caches cls).insert initialized sel imp)) where
  tree := h.tree
  realized d i e hEntry := by
    obtain rfl | hd := eq_or_ne d cls
    · exact hRealized
    · rw [setCache_of_ne s hd] at hEntry
      exact h.realized d i e hEntry
  coherent d := by
    obtain rfl | hd := eq_or_ne d cls
    · rw [setCache_self]
      exact coherent_of_inserts ((s.caches d).inserts initialized sel imp) (h.coherent d) hImp
    · rw [setCache_of_ne s hd]
      exact h.coherent d
  free := h.free
  pending flushing hFlushing := by
    rw [show s.flushing = some flushing from hFlushing] at hFree
    cases hFree

theorem Sound.step_lookUp {s : Dispatcher Cls Sel Imp address} (h : Sound forward_imp F known s) (k : Nat)
    (message : Message Cls Sel Imp) (retry noCache : Bool) (hFree : s.flushing = none)
    (hKnown : ∀ d ∈ F.chain message.cls, d ∈ known) :
    Sound forward_imp F known (lookUpStep forward_imp F s k message retry noCache) := by
  obtain ⟨loaded, hTree, hLoaded⟩ := h.tree
  have hAll : realizeClassWithoutSwift F s.tree message.cls = realizeAll F (loaded ++ [message.cls]) := by
    rw [hTree, realizeAll_concat]
  obtain ⟨_, _, _, hOld⟩ := realizeAll_represents F loaded
  obtain ⟨_, _, _, hNew⟩ := realizeAll_represents F (loaded ++ [message.cls])
  have hKeeps : ∀ d, s.tree.realized d = true →
      (realizeClassWithoutSwift F s.tree message.cls).realized d = true := by
    intro d hd
    rw [hTree, hOld] at hd
    obtain ⟨c, hc, hMem⟩ := hd
    rw [hAll, hNew]
    exact ⟨c, List.mem_append_left _ hc, hMem⟩
  have hSelf : (realizeClassWithoutSwift F s.tree message.cls).realized message.cls = true := by
    rw [hAll, hNew]
    exact ⟨message.cls, List.mem_append_right _ (List.mem_singleton_self _), F.mem_chain_self _⟩
  have hRealize : Sound forward_imp F known
      { s with tree := realizeClassWithoutSwift F s.tree message.cls } := by
    refine ⟨⟨_, hAll, fun c hc => ?_⟩, fun cls i e hEntry => ?_, h.coherent, h.free, h.pending⟩
    · obtain hc | hc := List.mem_append.mp hc
      · exact hLoaded c hc
      · rw [List.mem_singleton.mp hc]
        exact hKnown
    · exact hKeeps cls (h.realized cls i e hEntry)
  have hFound := h.lookUp hFree message.cls message.sel
  unfold lookUpStep
  dsimp only
  generalize lookUpFrom forward_imp _ _ (F.chain message.cls) = found at hFound
  split
  · exact hRealize.setPhase k message _
  · refine Sound.setPhase ?_ k message _
    cases noCache with
    | true => exact hRealize
    | false =>
      exact hRealize.insert hFree hSelf _ hFound.symm

theorem Sound.step {s s' : Dispatcher Cls Sel Imp address} {e : Event Cls Sel Imp}
    (h : Sound forward_imp F known s) (hStep : Steps forward_imp F known s e s') : Sound forward_imp F known s' := by
  cases hStep with
  | scans hScans => exact h.setPhase _ _ _
  | lookUp _ _ hFree hKnown => exact h.step_lookUp _ _ _ _ hFree hKnown
  | setInitialized => exact ⟨h.tree, h.realized, h.coherent, h.free, h.pending⟩
  | @mutate m flushing hFree hFlush =>
    refine ⟨h.tree, h.realized, h.coherent, fun hNone => (nomatch hNone), ?_⟩
    rintro _ ⟨⟩ cls
    have hOld : Coherent forward_imp F s.tables cls (s.caches cls).1.buckets := by
      rw [h.free hFree]
      exact h.coherent cls
    obtain ⟨flush, hFlush', hBelow, hPredicate⟩ | hNew := coherent_mutate m (s.caches cls).2 hOld
    · rw [hFlush'] at hFlush
      by_cases hRealized : s.tree.realized cls = true
      · obtain ⟨hMem, hSame⟩ := h.mem_flushList hFlush hRealized hBelow
        exact .inl ⟨hMem, by rw [hSame]; exact hPredicate⟩
      · right
        intro i sel imp hEntry
        exact absurd (h.realized cls i _ hEntry) hRealized
    · exact .inr hNew
  | @erase cls todo predicate hFlushing hErase =>
    have hErased : ∀ i, (s.caches cls).eraseNolock.1.buckets.entry i = none :=
      (CacheT.eraseNolock_spec (s.caches cls).2).2.2.1
    refine ⟨h.tree, fun d i e hEntry => ?_, fun d => ?_, fun hFree => (nomatch hFree), ?_⟩
    · obtain rfl | hd := eq_or_ne d cls
      · rw [setCache_self, hErased] at hEntry
        cases hEntry
      · rw [setCache_of_ne _ hd] at hEntry
        exact h.realized d i e hEntry
    · obtain rfl | hd := eq_or_ne d cls
      · intro i sel imp hEntry
        rw [setCache_self, hErased] at hEntry
        cases hEntry
      · rw [setCache_of_ne _ hd]
        exact h.coherent d
    · rintro _ ⟨⟩ d
      obtain rfl | hd := eq_or_ne d cls
      · right
        intro i sel imp hEntry
        rw [setCache_self, hErased] at hEntry
        cases hEntry
      · rw [setCache_of_ne _ hd]
        refine (h.pending _ hFlushing d).imp_left fun hPending => ⟨?_, hPending.2⟩
        exact (List.mem_cons.mp hPending.1).resolve_left hd
  | @keep cls todo predicate hFlushing hKeep =>
    refine ⟨h.tree, h.realized, h.coherent, fun hFree => (nomatch hFree), ?_⟩
    rintro _ ⟨⟩ d
    refine (h.pending _ hFlushing d).imp_left fun hPending => ⟨?_, hPending.2⟩
    refine (List.mem_cons.mp hPending.1).resolve_left ?_
    rintro rfl
    exact absurd hPending.2 (Bool.eq_false_iff.mp hKeep)
  | unlock hFlushing =>
    refine ⟨h.tree, h.realized, fun cls => ?_, fun _ => rfl, fun flushing hNone => nomatch hNone⟩
    refine (h.pending _ hFlushing cls).resolve_left fun hPending => ?_
    cases hPending.1

theorem sound_of_reachable (T : MethodTables Cls Sel Imp) {s : Dispatcher Cls Sel Imp address}
    (h : (dispatcher forward_imp F known T).Reachable s) : Sound forward_imp F known s := by
  refine Machine.invariant (P := Sound forward_imp F known) ?_ ?_ h
  · have hEmpty : ∀ i, Slots.entry ([none] : Slots Sel (Option Imp)) i = none := Slots.entry_replicate 1
    refine ⟨⟨[], rfl, fun c hc => absurd hc List.not_mem_nil⟩, ?_, ?_, fun _ => rfl, ?_⟩
    · intro cls i e hEntry
      rw [show (((dispatcher forward_imp F known T).start.caches cls).1.buckets.entry i) = none from hEmpty i] at hEntry
      cases hEntry
    · intro cls i sel imp hEntry
      rw [show (((dispatcher forward_imp F known T).start.caches cls).1.buckets.entry i) = none from hEmpty i] at hEntry
      cases hEntry
    · intro flushing hFlushing
      cases hFlushing
  · intro s e s' hs hStep
    exact hs.step (steps_of_dispatchStep hStep)

/-- In every interleaving, with the lock free, a hit in any cache is what a search of the
method tables finds, and no scan of a cache ever fails. -/
theorem cached_eq_dispatch (T : MethodTables Cls Sel Imp) {s : Dispatcher Cls Sel Imp address}
    (h : (dispatcher forward_imp F known T).Reachable s) (hFree : s.flushing = none) {cls : Cls} {sel : Sel}
    {imp : Option Imp} (hHit : (s.caches cls).1.CacheLookup address sel = some imp) :
    imp = (dispatch F s.tables cls sel).getD (some forward_imp) := by
  have hSound := sound_of_reachable T h
  obtain ⟨i, hEntry⟩ := (CacheT.CacheLookup_eq_some (s.caches cls).2).mp hHit
  rw [hSound.free hFree]
  exact (hSound.coherent cls i sel imp hEntry).symm

section Demo

/-- A class with both methods, as in a category that hooks its own class. -/
def ownHook : MethodTables Bool Bool Nat := fun cls sel =>
  if cls then some ⟨some (if sel then 2 else 1), "v20@0:8B16"⟩ else none

def boolAddress : Bool → Nat
  | false => 0x100
  | true => 0x180

def sendOnce : List (Event Bool Bool Nat) :=
  [.setInitialized true, .objc_msgSend 0 true false, .scanBucket 0, .lookUpImpOrForward 0 false]

theorem cached_eq_dispatch_after_send :
    ∃ s : Dispatcher Bool Bool Nat boolAddress,
      (dispatcher 0 parentAndChild [true, false] ownHook).run sendOnce = some s ∧
      (s.caches true).1.CacheLookup boolAddress false = some (some 1) ∧
      some 1 = (dispatch parentAndChild s.tables true false).getD (some 0) := by
  obtain ⟨s, h⟩ := Option.isSome_iff_exists.mp (show ((dispatcher 0 parentAndChild [true, false] ownHook :
    Machine (Dispatcher Bool Bool Nat boolAddress) _).run sendOnce).isSome = true by decide +kernel)
  have hHit : (s.caches true).1.CacheLookup boolAddress false = some (some 1) :=
    Machine.read_of_run h (f := fun s => (s.caches true).1.CacheLookup boolAddress false) (by decide +kernel)
  have hFree : s.flushing = none :=
    Option.isNone_iff_eq_none.mp (Machine.read_of_run h (f := fun s => s.flushing.isNone) (by decide +kernel))
  exact ⟨s, h, hHit, cached_eq_dispatch ownHook ⟨sendOnce, h⟩ hFree hHit⟩

end Demo

end OCNote.Hook
