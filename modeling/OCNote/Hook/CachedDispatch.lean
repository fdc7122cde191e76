import OCNote.Hook.ClassTree
import OCNote.Hook.MethodCache
import OCNote.Hook.Runtime

/-! # Messages sent through the method caches

`objc_msgSend` scans a bucket array without a lock, one bucket at a time, and takes the runtime
lock only after a miss. A change of the method tables and the cache flushes that follow it
are one critical section, during which the scans of other messages go on. -/

namespace OCNote.Hook
open OCNote.Support
set_option autoImplicit false

universe u

variable {Cls Sel Imp : Type u} [DecidableEq Cls] [DecidableEq Sel] [DecidableEq Imp]

/-- What the tables say is run; a selector that is not found is forwarded. -/
def answer (forward_imp : Imp) (F : Forest Cls) (T : MethodTables Cls Sel Imp) (cls : Cls) (sel : Sel) :
    Option Imp := (dispatch F T cls sel).getD (some forward_imp)

section Mutation

inductive Mutation (Cls Sel Imp : Type u) where
  | addMethod (cls : Cls) (name : Sel) (imp : Option Imp) (types : String) (replace : Bool)
  | setImplementation (m : Method Cls Sel) (imp : Option Imp)
  | exchangeImplementations (m₁ m₂ : Option (Method Cls Sel))

/-- The arguments of a call of `flushCaches`; no class stands for all classes. -/
structure FlushCaches (Cls Sel Imp : Type u) where
  cls : Option Cls
  predicate : CacheT Sel Imp → Bool

variable (address : Sel → Nat)

def _method_setImplementation (T : MethodTables Cls Sel Imp) (cls : Option Cls) (m : Method Cls Sel)
    (imp : Option Imp) : MethodTables Cls Sel Imp × Option (FlushCaches Cls Sel Imp) :=
  match imp with
  | none => (T, none)
  | some imp =>
    let old := method_getImplementation T (some m)
    (setImp T m (some imp), some ⟨cls, fun c => c.shouldFlush address m.name old⟩)

/-- The new tables and the flush that is made before the lock is released. -/
def mutate (T : MethodTables Cls Sel Imp) :
    Mutation Cls Sel Imp → MethodTables Cls Sel Imp × Option (FlushCaches Cls Sel Imp)
  | .addMethod cls name imp types replace =>
    match T cls name with
    | some _ =>
      if replace then _method_setImplementation address T (some cls) ⟨cls, name⟩ imp else (T, none)
    | none => (store T cls name ⟨imp, types⟩, some ⟨some cls, fun _ => true⟩)
  | .setImplementation m imp => _method_setImplementation address T none m imp
  | .exchangeImplementations (some m₁) (some m₂) =>
    let imp₁ := method_getImplementation T (some m₁)
    let imp₂ := method_getImplementation T (some m₂)
    (setImp (setImp T m₁ imp₂) m₂ imp₁, some ⟨none, fun c =>
      c.shouldFlush address m₁.name imp₁ || c.shouldFlush address m₂.name imp₂⟩)
  | .exchangeImplementations _ _ => (T, none)

theorem mutate_addMethod (T : MethodTables Cls Sel Imp) (cls : Cls) (name : Sel) (imp : Option Imp)
    (types : String) (replace : Bool) :
    (mutate address T (.addMethod cls name imp types replace)).1 = (addMethod T cls name imp types replace).1 := by
  cases hOwn : T cls name with
  | none => simp only [mutate, addMethod, hOwn]
  | some record =>
    simp only [mutate, addMethod, hOwn]
    cases replace with
    | false => rfl
    | true => cases imp <;> rfl

theorem mutate_exchange (T : MethodTables Cls Sel Imp) (m₁ m₂ : Option (Method Cls Sel)) :
    (mutate address T (.exchangeImplementations m₁ m₂)).1 = method_exchangeImplementations T m₁ m₂ := by
  cases m₁ with
  | none => rfl
  | some m₁ => cases m₂ <;> rfl

variable {address} {F : Forest Cls} {forward_imp : Imp}

omit [DecidableEq Cls] [DecidableEq Sel] [DecidableEq Imp] in
theorem answer_congr {T T' : MethodTables Cls Sel Imp} {cls : Cls} {sel : Sel}
    (h : ∀ d ∈ F.chain cls, ownImp T' d sel = ownImp T d sel) :
    answer forward_imp F T' cls sel = answer forward_imp F T cls sel := by
  rw [answer, dispatch_congr F h]
  rfl

omit [DecidableEq Cls] [DecidableEq Sel] [DecidableEq Imp] in
/-- An answer survives a change of the tables that keeps it where it is stored. -/
theorem answer_of_kept {T T' : MethodTables Cls Sel Imp} {cls : Cls} {sel : Sel} {imp : Option Imp}
    (hDomain : ∀ d, (ownImp T' d sel).isSome = (ownImp T d sel).isSome)
    (hKept : ∀ d, ownImp T d sel = some imp → ownImp T' d sel = some imp)
    (h : answer forward_imp F T cls sel = imp) : answer forward_imp F T' cls sel = imp := by
  unfold answer at h ⊢
  cases hOld : dispatch F T cls sel with
  | none =>
    have hNone : dispatch F T' cls sel = none := by
      refine List.findSome?_eq_none_iff.mpr fun d hd => ?_
      have hOwn : ownImp T d sel = none := List.findSome?_eq_none_iff.mp hOld d hd
      have hSame := hDomain d
      rw [hOwn] at hSame
      change ownImp T' d sel = none
      exact Option.not_isSome_iff_eq_none.mp (by rw [hSame]; exact Bool.false_ne_true)
    rwa [hNone, ← hOld]
  | some found =>
    rw [hOld] at h
    cases h
    obtain ⟨d, _, hOwn, hAll⟩ := F.nearest_eq_some hOld
    have hNew : dispatch F T' cls sel = ownImp T' d sel := hAll (fun e => ownImp T' e sel) hDomain
    rw [hNew, hKept d hOwn]
    rfl

omit [DecidableEq Imp] in
theorem ownImp_setImp_kept {T : MethodTables Cls Sel Imp} {m : Method Cls Sel} {v : Option Imp} {sel : Sel}
    (hOther : sel = m.name → v ≠ method_getImplementation T (some m)) (imp : Option Imp) {d : Cls}
    (h : ownImp T d sel = some v) : ownImp (setImp T m imp) d sel = some v := by
  by_cases hSame : d = m.owner ∧ sel = m.name
  · refine absurd ?_ (hOther hSame.2)
    rw [hSame.1, hSame.2] at h
    rw [getImplementation_eq, h]
    rfl
  · cases hm : T m.owner m.name with
    | none => rwa [setImp, hm]
    | some record => rw [ownImp_setImp (by simp [ownImp, hm]), if_neg hSame, h]

omit [DecidableEq Imp] in
/-- Whatever is written to the first method, the second one then has the implementation it had
if that is what was written. -/
theorem getImplementation_setImp (T : MethodTables Cls Sel Imp) (m₁ m₂ : Method Cls Sel) :
    method_getImplementation (setImp T m₁ (method_getImplementation T (some m₂))) (some m₂) =
      method_getImplementation T (some m₂) := by
  obtain ⟨owner, name⟩ := m₂
  cases hm : T m₁.owner m₁.name with
  | none => rw [setImp, hm]
  | some record =>
    generalize hImp : method_getImplementation T (some ⟨owner, name⟩) = imp
    rw [getImplementation_eq, ownImp_setImp (by simp [ownImp, hm])]
    split
    · rfl
    · rw [← hImp, getImplementation_eq]

/-- The cache holds what the tables say for its class. -/
def Coherent (forward_imp : Imp) (F : Forest Cls) (T : MethodTables Cls Sel Imp) (cls : Cls)
    (b : Slots Sel (Option Imp)) : Prop :=
  ∀ i sel imp, b.entry i = some (sel, imp) → answer forward_imp F T cls sel = imp

omit [DecidableEq Cls] [DecidableEq Imp] in
theorem getImp_of_entry {c : CacheT Sel Imp} (hc : c.Valid address) {i : Nat} {sel : Sel} {imp : Option Imp}
    (h : c.buckets.entry i = some (sel, imp)) : c.cache_getImp address sel = imp := by
  rw [CacheT.cache_getImp, (CacheT.CacheLookup_eq_some hc).mpr ⟨i, h⟩]
  rfl

theorem coherent_setImplementation {T : MethodTables Cls Sel Imp} {top : Option Cls} {m : Method Cls Sel}
    (hTop : ∀ c, top = some c → c = m.owner) (imp : Option Imp) {cls : Cls} {c : CacheT Sel Imp}
    (hc : c.Valid address) (h : Coherent forward_imp F T cls c.buckets) :
    (∃ flush, (_method_setImplementation address T top m imp).2 = some flush ∧
      (∀ c, flush.cls = some c → c ∈ F.chain cls) ∧ flush.predicate c = true) ∨
    Coherent forward_imp F (_method_setImplementation address T top m imp).1 cls c.buckets := by
  cases imp with
  | none => exact .inr h
  | some imp =>
    by_cases hFlush : c.shouldFlush address m.name (method_getImplementation T (some m)) = true
    · by_cases hBelow : ∀ c, top = some c → c ∈ F.chain cls
      · exact .inl ⟨_, rfl, hBelow, hFlush⟩
      · right
        intro i sel v hEntry
        have hOwner : m.owner ∉ F.chain cls := by
          push Not at hBelow
          obtain ⟨d, hd, hNot⟩ := hBelow
          rwa [← hTop d hd]
        refine (answer_congr fun d hd => ?_).trans (h i sel v hEntry)
        have hNe : d ≠ m.owner := fun hEq => hOwner (hEq ▸ hd)
        change ownImp (setImp T m (some imp)) d sel = _
        unfold setImp
        split
        · rfl
        · rw [ownImp_store, if_neg fun hSame => hNe hSame.1]
    · right
      intro i sel v hEntry
      refine answer_of_kept (isSome_setImp T m (some imp) · sel) (fun d => ownImp_setImp_kept ?_ _)
        (h i sel v hEntry)
      rintro rfl rfl
      refine hFlush ?_
      rw [CacheT.shouldFlush, getImp_of_entry hc hEntry]
      exact beq_self_eq_true _

/-- A cache that answered with the old tables answers with the new ones, unless the flush
of the change is meant for it. -/
theorem coherent_mutate {T : MethodTables Cls Sel Imp} (m : Mutation Cls Sel Imp) {cls : Cls} {c : CacheT Sel Imp}
    (hc : c.Valid address) (h : Coherent forward_imp F T cls c.buckets) :
    (∃ flush, (mutate address T m).2 = some flush ∧
      (∀ c, flush.cls = some c → c ∈ F.chain cls) ∧ flush.predicate c = true) ∨
    Coherent forward_imp F (mutate address T m).1 cls c.buckets := by
  cases m with
  | addMethod owner name imp types replace =>
    cases hOwn : T owner name with
    | some record =>
      simp only [mutate, hOwn]
      cases replace with
      | false => exact .inr h
      | true =>
        refine coherent_setImplementation (m := ⟨owner, name⟩) ?_ imp hc h
        rintro _ ⟨⟩
        rfl
    | none =>
      simp only [mutate, hOwn]
      by_cases hBelow : owner ∈ F.chain cls
      · refine .inl ⟨_, rfl, ?_, rfl⟩
        rintro _ ⟨⟩
        exact hBelow
      · right
        intro i sel v hEntry
        refine (answer_congr fun d hd => ?_).trans (h i sel v hEntry)
        rw [ownImp_store, if_neg]
        rintro ⟨rfl, _⟩
        exact hBelow hd
  | setImplementation m imp =>
    refine coherent_setImplementation ?_ imp hc h
    rintro _ ⟨⟩
  | exchangeImplementations m₁ m₂ =>
    cases m₁ with
    | none => exact .inr h
    | some m₁ =>
      cases m₂ with
      | none => exact .inr h
      | some m₂ =>
        by_cases hFlush : (c.shouldFlush address m₁.name (method_getImplementation T (some m₁)) ||
            c.shouldFlush address m₂.name (method_getImplementation T (some m₂))) = true
        · refine .inl ⟨_, rfl, ?_, hFlush⟩
          rintro _ ⟨⟩
        · right
          intro i sel v hEntry
          rw [Bool.or_eq_true, not_or] at hFlush
          have hOther : ∀ m, ¬ c.shouldFlush address m.name (method_getImplementation T (some m)) = true →
              sel = m.name → v ≠ method_getImplementation T (some m) := by
            rintro m hNot rfl rfl
            refine hNot ?_
            rw [CacheT.shouldFlush, getImp_of_entry hc hEntry]
            exact beq_self_eq_true _
          refine answer_of_kept (fun d => ?_) (fun d hOwn => ?_) (h i sel v hEntry)
          · exact (isSome_setImp _ m₂ _ d sel).trans (isSome_setImp T m₁ _ d sel)
          · have hFirst := ownImp_setImp_kept (hOther m₁ hFlush.1) (method_getImplementation T (some m₂)) hOwn
            refine ownImp_setImp_kept (fun hSel => ?_) _ hFirst
            rw [getImplementation_setImp]
            exact hOther m₂ hFlush.2 hSel

end Mutation

section LookUp

/-- The search of `lookUpImpOrForward` ends with a method or with a forward. -/
inductive LookUp (Imp : Type u) where
  | found (imp : Option Imp)
  | forward
  deriving DecidableEq, Repr

/-- The loop over a class and its superclasses: the method list of each, then the cache of
the next one. `own` reads a method list and `getImp` a cache. -/
def lookUpFrom (forward_imp : Imp) (own : Cls → Option (Option Imp)) (getImp : Cls → Option Imp) :
    List Cls → LookUp Imp
  | [] => .forward
  | [rootClass] =>
    match own rootClass with
    | some imp => .found imp
    | none => .forward
  | curClass :: superclass :: rest =>
    match own curClass with
    | some imp => .found imp
    | none =>
      match getImp superclass with
      | some imp => if imp = forward_imp then .forward else .found (some imp)
      | none => lookUpFrom forward_imp own getImp (superclass :: rest)

def LookUp.imp (forward_imp : Imp) : LookUp Imp → Option Imp
  | .found imp => imp
  | .forward => some forward_imp

omit [DecidableEq Cls] [DecidableEq Sel] in
/-- The search agrees with the tables if the caches that it reads do. -/
theorem lookUpFrom_eq {F : Forest Cls} {T : MethodTables Cls Sel Imp} {sel : Sel} {forward_imp : Imp}
    {getImp : Cls → Option Imp} {cls : Cls}
    (h : ∀ d ∈ F.chain cls, ∀ imp, getImp d = some imp → answer forward_imp F T d sel = some imp) :
    (lookUpFrom forward_imp (fun d => ownImp T d sel) getImp (F.chain cls)).imp forward_imp =
      answer forward_imp F T cls sel := by
  induction cls using F.induction with
  | hRoot c hp =>
    have hDispatch : dispatch F T c sel = ownImp T c sel := F.nearest_of_root _ hp
    rw [F.chain_of_root hp, lookUpFrom, answer, hDispatch]
    cases ownImp T c sel <;> rfl
  | hChild c p hp ih =>
    have hDispatch : dispatch F T c sel = (ownImp T c sel).or (dispatch F T p sel) := F.nearest_of_parent _ hp
    have hSuper := ih fun d hd => h d (F.mem_chain_of_parent hp hd)
    have hp' := h p (F.mem_chain_of_parent hp (F.mem_chain_self p))
    obtain ⟨rest, hChain⟩ : ∃ rest, F.chain p = p :: rest := by
      cases hq : F.parent p with
      | none => exact ⟨[], F.chain_of_root hq⟩
      | some q => exact ⟨F.chain q, F.chain_of_parent hq⟩
    rw [F.chain_of_parent hp, hChain, lookUpFrom, answer, hDispatch]
    cases ownImp T c sel with
    | some imp => rfl
    | none =>
      rw [Option.none_or]
      cases hCached : getImp p with
      | none =>
        rw [hChain] at hSuper
        exact hSuper
      | some imp =>
        refine Eq.trans ?_ (hp' imp hCached).symm
        dsimp only
        split
        · rename_i hForward
          rw [hForward]
          rfl
        · rfl

end LookUp

/-- A cache that is not corrupted, and stays so. -/
structure ValidCache (Imp : Type u) (address : Sel → Nat) where
  val : CacheT Sel Imp
  property : val.Valid address

namespace ValidCache

variable {address : Sel → Nat}

def insert (c : ValidCache Imp address) (initialized : Bool) (sel : Sel) (imp : Option Imp) :
    ValidCache Imp address :=
  ⟨(c.1.insert address initialized sel imp).get (by
      obtain ⟨c', hInsert, _⟩ := CacheT.insert_spec c.2 initialized sel imp
      rw [hInsert]
      rfl), by
    obtain ⟨c', hInsert, hc'⟩ := CacheT.insert_spec c.2 initialized sel imp
    simp only [hInsert, Option.get_some]
    exact hc'.valid⟩

def eraseNolock (c : ValidCache Imp address) : ValidCache Imp address :=
  ⟨c.1.eraseNolock, (CacheT.eraseNolock_spec c.2).1⟩

omit [DecidableEq Imp] in
theorem inserts (c : ValidCache Imp address) (initialized : Bool) (sel : Sel) (imp : Option Imp) :
    CacheT.Inserts address c.1 (c.insert initialized sel imp).1 initialized sel imp := by
  obtain ⟨c', hInsert, hc'⟩ := CacheT.insert_spec c.2 initialized sel imp
  simp only [insert, hInsert, Option.get_some]
  exact hc'

end ValidCache

section Messages

/-- Where a message is between `objc_msgSend` and the implementation it runs. `retry` says
that the method resolver has been tried. -/
inductive SendPhase (Imp : Type u) where
  | scanning (retry : Bool) (generation : Nat) (path : List Nat)
  | missed (retry : Bool)
  | resolving
  | returned (imp : Option Imp)
  deriving DecidableEq, Repr

structure Message (Cls Sel Imp : Type u) where
  cls : Cls
  sel : Sel
  phase : SendPhase Imp
  deriving DecidableEq, Repr

/-- A critical section that has changed the tables and still has to visit `todo`. -/
structure Flushing (Cls Sel Imp : Type u) where
  todo : List Cls
  predicate : CacheT Sel Imp → Bool

structure Dispatcher (Cls Sel Imp : Type u) [DecidableEq Sel] (address : Sel → Nat) where
  tables : MethodTables Cls Sel Imp
  /-- The tables when the runtime lock was last free. -/
  published : MethodTables Cls Sel Imp
  tree : ClassTree Cls
  initialized : Cls → Bool
  caches : Cls → ValidCache Imp address
  /-- Bucket arrays that have been replaced and can still be scanned. -/
  retired : Cls → Nat → Slots Sel (Option Imp)
  flushing : Option (Flushing Cls Sel Imp)
  messages : Nat → Option (Message Cls Sel Imp)

inductive Event (Cls Sel Imp : Type u) where
  | objc_msgSend (k : Nat) (cls : Cls) (sel : Sel)
  | lookUpImpTryCache (k : Nat) (cls : Cls) (sel : Sel)
  | scanBucket (k : Nat)
  | recover (k : Nat)
  | lookUpImpOrForward (k : Nat) (noCache : Bool)
  | resolved (k : Nat)
  | setInitialized (cls : Cls)
  | mutate (m : Mutation Cls Sel Imp)
  | flush
  | unlock

variable {address : Sel → Nat}

namespace Dispatcher

/-- What a scan of the array `generation` of the class reads. -/
def view (s : Dispatcher Cls Sel Imp address) (cls : Cls) (generation : Nat) : Slots Sel (Option Imp) :=
  if generation = (s.caches cls).1.generation then (s.caches cls).1.buckets else s.retired cls generation

def setCache (s : Dispatcher Cls Sel Imp address) (cls : Cls) (c : ValidCache Imp address) :
    Dispatcher Cls Sel Imp address :=
  { s with
    caches := Function.update s.caches cls c
    retired := if c.1.generation = (s.caches cls).1.generation then s.retired else
      Function.update s.retired cls
        (Function.update (s.retired cls) (s.caches cls).1.generation (s.caches cls).1.buckets) }

omit [DecidableEq Imp] in
theorem setCache_self (s : Dispatcher Cls Sel Imp address) (cls : Cls) (c : ValidCache Imp address) :
    (s.setCache cls c).caches cls = c := by
  unfold setCache
  exact Function.update_self _ _ _

omit [DecidableEq Imp] in
theorem setCache_of_ne (s : Dispatcher Cls Sel Imp address) {cls d : Cls} (h : d ≠ cls)
    (c : ValidCache Imp address) : (s.setCache cls c).caches d = s.caches d := by
  unfold setCache
  exact Function.update_of_ne h _ _

def setPhase (s : Dispatcher Cls Sel Imp address) (k : Nat) (message : Message Cls Sel Imp)
    (phase : SendPhase Imp) : Dispatcher Cls Sel Imp address :=
  { s with messages := Function.update s.messages k (some { message with phase := phase }) }

omit [DecidableEq Cls] [DecidableEq Imp] in
theorem setPhase_self (s : Dispatcher Cls Sel Imp address) (k : Nat) (message : Message Cls Sel Imp)
    (phase : SendPhase Imp) :
    (s.setPhase k message phase).messages k = some { message with phase := phase } := by
  unfold setPhase
  exact Function.update_self _ _ _

omit [DecidableEq Cls] [DecidableEq Imp] in
theorem setPhase_of_ne (s : Dispatcher Cls Sel Imp address) {j k : Nat} (h : j ≠ k)
    (message : Message Cls Sel Imp) (phase : SendPhase Imp) :
    (s.setPhase k message phase).messages j = s.messages j := by
  unfold setPhase
  exact Function.update_of_ne h _ _

/-- The buckets that `CacheLookup` looks at, the first of them perhaps twice. -/
def lookupPath (mask first : Nat) : List Nat :=
  downFrom 0 (first + 1) ++ mask :: downFrom (first + 1) (mask - first - 1)

/-- The load of the buckets pointer together with the mask. -/
def scanStart (s : Dispatcher Cls Sel Imp address) (cls : Cls) (sel : Sel) (retry : Bool) : SendPhase Imp :=
  let c := (s.caches cls).1
  .scanning retry c.generation (lookupPath c.mask (cache_hash (address sel) c.mask))

end Dispatcher

open Dispatcher

variable (forward_imp : Imp) (F : Forest Cls) (known : List Cls)

/-- The classes that a flush visits; there is no result where the walk is given up. -/
def flushList (t : ClassTree Cls) : Option (FlushCaches Cls Sel Imp) → Option (Flushing Cls Sel Imp)
  | none => some ⟨[], fun _ => false⟩
  | some ⟨some cls, predicate⟩ =>
    if t.realized cls then
      (foreach_realized_class_and_subclass F t (fun _ => true) cls known.length).map (⟨·, predicate⟩)
    else none
  | some ⟨none, predicate⟩ =>
    (foreach_realized_class_and_metaclass F t (fun _ => true) known.length).map (⟨·, predicate⟩)

/-- One bucket of a scan. In the retry a cached nil counts as a miss. -/
def scanStep (b : Slots Sel (Option Imp)) (sel : Sel) (retry : Bool) (generation : Nat) :
    List Nat → SendPhase Imp
  | [] => .missed retry
  | i :: path =>
    match b.entry i with
    | none => .missed retry
    | some (key, imp) =>
      if key = sel then if retry && imp.isNone then .missed retry else .returned imp
      else .scanning retry generation path

/-- Realizing, searching and filling the cache, all with the lock held. -/
def lookUpStep (s : Dispatcher Cls Sel Imp address) (k : Nat) (message : Message Cls Sel Imp) (retry noCache : Bool) :
    Dispatcher Cls Sel Imp address :=
  let s := { s with tree := realizeClassWithoutSwift F s.tree message.cls }
  let found := lookUpFrom forward_imp (fun d => ownImp s.tables d message.sel)
    (fun d => (s.caches d).1.cache_getImp address message.sel) (F.chain message.cls)
  if found = .forward ∧ retry = false then s.setPhase k message .resolving
  else
    let imp := found.imp forward_imp
    let s := if noCache then s else
      s.setCache message.cls ((s.caches message.cls).insert (s.initialized message.cls) message.sel imp)
    s.setPhase k message (.returned imp)

def dispatchStep (s : Dispatcher Cls Sel Imp address) : Event Cls Sel Imp → Option (Dispatcher Cls Sel Imp address)
  | .objc_msgSend k cls sel =>
    match s.messages k with
    | none => some (s.setPhase k ⟨cls, sel, .resolving⟩ (s.scanStart cls sel false))
    | some _ => none
  | .lookUpImpTryCache k cls sel =>
    match s.messages k with
    | none => some (s.setPhase k ⟨cls, sel, .resolving⟩ (s.scanStart cls sel true))
    | some _ => none
  | .scanBucket k =>
    match s.messages k with
    | some message =>
      match message.phase with
      | .scanning retry generation path =>
        some (s.setPhase k message
          (scanStep (s.view message.cls generation) message.sel retry generation path))
      | _ => none
    | none => none
  | .recover k =>
    match s.messages k with
    | some message =>
      match message.phase with
      | .scanning retry _ _ => some (s.setPhase k message (.missed retry))
      | _ => none
    | none => none
  | .lookUpImpOrForward k noCache =>
    match s.messages k with
    | some message =>
      match message.phase with
      | .missed retry =>
        -- the lock is free and the class is a known one, as are its superclasses
        if s.flushing.isNone ∧ ∀ d ∈ F.chain message.cls, d ∈ known then
          some (lookUpStep forward_imp F s k message retry noCache)
        else none
      | _ => none
    | none => none
  | .resolved k =>
    match s.messages k with
    | some message =>
      match message.phase with
      | .resolving => some (s.setPhase k message (s.scanStart message.cls message.sel true))
      | _ => none
    | none => none
  | .setInitialized cls => some { s with initialized := Function.update s.initialized cls true }
  | .mutate m =>
    if s.flushing.isNone then
      let (T, flush) := mutate address s.tables m
      (flushList F known s.tree flush).map fun flushing => { s with tables := T, flushing := some flushing }
    else none
  | .flush =>
    match s.flushing with
    | some ⟨cls :: todo, predicate⟩ =>
      let s := { s with flushing := some ⟨todo, predicate⟩ }
      some (if predicate (s.caches cls).1 then s.setCache cls (s.caches cls).eraseNolock else s)
    | _ => none
  | .unlock =>
    match s.flushing with
    | some ⟨[], _⟩ => some { s with flushing := none, published := s.tables }
    | _ => none

/-- At the start no class is realized and every cache is empty. -/
def dispatcher (T : MethodTables Cls Sel Imp) : Machine (Dispatcher Cls Sel Imp address) (Event Cls Sel Imp) where
  start := {
    tables := T
    published := T
    tree := .empty
    initialized := fun _ => false
    caches := fun _ => ⟨.initializeToEmpty, CacheT.valid_initializeToEmpty⟩
    retired := fun _ _ => []
    flushing := none
    messages := fun _ => none }
  step := dispatchStep forward_imp F known

end Messages

end OCNote.Hook
