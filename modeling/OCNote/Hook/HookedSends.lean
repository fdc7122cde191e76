import OCNote.Hook.SendLinearizable

/-! # Messages sent after a hook has been installed

`hookClass:fromSelector:toSelector:` as the changes of the method tables that it makes. Once
they are made, every later message runs the swapped implementation, however many caches held the
old one before. -/

namespace OCNote.Hook
open OCNote.Support Dispatcher
set_option autoImplicit false

universe u

variable {Cls Sel Imp : Type u} [DecidableEq Cls] [DecidableEq Sel] [DecidableEq Imp]

def Event.mutation? : Event Cls Sel Imp → Option (Mutation Cls Sel Imp)
  | .mutate m => some m
  | _ => none

def mutationsOf (es : List (Event Cls Sel Imp)) : List (Mutation Cls Sel Imp) := es.filterMap Event.mutation?

/-- The calls of the runtime that `hookClass` makes, with the arguments it reads. -/
def hookMutations (F : Forest Cls) (T : MethodTables Cls Sel Imp) (classObject : Cls)
    (fromSelector toSelector : Sel) : List (Mutation Cls Sel Imp) :=
  let fromMethod := class_getInstanceMethod F T classObject fromSelector
  let toMethod := class_getInstanceMethod F T classObject toSelector
  let imp := method_getImplementation T toMethod
  let types := (method_getTypeEncoding T toMethod).getD ""
  let (T', added) := class_addMethod T classObject fromSelector imp (method_getTypeEncoding T toMethod)
  .addMethod classObject fromSelector imp types false ::
    if added then
      [.addMethod classObject toSelector (method_getImplementation T' fromMethod)
        ((method_getTypeEncoding T' fromMethod).getD "") true]
    else [.exchangeImplementations fromMethod toMethod]

variable (address : Sel → Nat)

def applyAll (T : MethodTables Cls Sel Imp) (ms : List (Mutation Cls Sel Imp)) : MethodTables Cls Sel Imp :=
  ms.foldl (fun T m => (mutate address T m).1) T

theorem applyAll_hookMutations (F : Forest Cls) (T : MethodTables Cls Sel Imp) (classObject : Cls)
    (fromSelector toSelector : Sel) :
    applyAll address T (hookMutations F T classObject fromSelector toSelector) =
      hookClass F T classObject fromSelector toSelector := by
  obtain ⟨⟨T', added⟩, hAdd⟩ : ∃ result, class_addMethod T classObject fromSelector
      (method_getImplementation T (class_getInstanceMethod F T classObject toSelector))
      (method_getTypeEncoding T (class_getInstanceMethod F T classObject toSelector)) = result := ⟨_, rfl⟩
  have hFirst : (mutate address T (.addMethod classObject fromSelector
      (method_getImplementation T (class_getInstanceMethod F T classObject toSelector))
      ((method_getTypeEncoding T (class_getInstanceMethod F T classObject toSelector)).getD "") false)).1 = T' := by
    rw [mutate_addMethod]
    have hTables := congrArg Prod.fst hAdd
    exact hTables
  simp only [hookMutations, hookClass, hAdd, applyAll, List.foldl_cons, hFirst]
  cases added with
  | true => exact mutate_addMethod address T' _ _ _ _ _
  | false => exact mutate_exchange address T' _ _

variable {address} {forward_imp : Imp} {F : Forest Cls} {known : List Cls} {T : MethodTables Cls Sel Imp}

theorem lookUpStep_tables (s : Dispatcher Cls Sel Imp address) (k : Nat) (message : Message Cls Sel Imp)
    (retry noCache : Bool) :
    (lookUpStep forward_imp F s k message retry noCache).tables = s.tables ∧
      (lookUpStep forward_imp F s k message retry noCache).published = s.published ∧
      (lookUpStep forward_imp F s k message retry noCache).flushing = s.flushing := by
  unfold lookUpStep
  dsimp only
  split
  · exact ⟨rfl, rfl, rfl⟩
  · cases noCache <;> exact ⟨rfl, rfl, rfl⟩

/-- The tables are changed by the mutations of a run and by nothing else. -/
theorem tables_of_run {es : List (Event Cls Sel Imp)} {s : Dispatcher Cls Sel Imp address}
    (h : (dispatcher forward_imp F known T).run es = some s) :
    s.tables = applyAll address T (mutationsOf es) := by
  refine Machine.run_induction (P := fun es s => s.tables = applyAll address T (mutationsOf es)) rfl ?_ es s h
  intro es s e s' _ ih hNext
  have hConcat : mutationsOf (es ++ [e]) = mutationsOf es ++ (e.mutation?).toList := by
    unfold mutationsOf
    rw [List.filterMap_append]
    cases e <;> rfl
  rw [hConcat, applyAll, List.foldl_append]
  change _ = List.foldl _ (applyAll address T (mutationsOf es)) _
  rw [← ih]
  cases steps_of_dispatchStep hNext with
  | scans hScans => cases hScans <;> rfl
  | lookUp _ _ _ _ => exact (lookUpStep_tables _ _ _ _ _).1
  | setInitialized => rfl
  | mutate _ _ => rfl
  | erase _ _ => rfl
  | keep _ _ => rfl
  | unlock _ => rfl

theorem published_of_quiet {es : List (Event Cls Sel Imp)} {s s' : Dispatcher Cls Sel Imp address}
    (hFree : s.flushing = none) (hQuiet : mutationsOf es = [])
    (hRun : (dispatcher forward_imp F known T).runFrom s es = some s') : s'.published = s.published := by
  induction es generalizing s with
  | nil =>
    cases hRun
    rfl
  | cons e es ih =>
    rw [Machine.runFrom] at hRun
    obtain ⟨t, hNext, hRun⟩ := Option.bind_eq_some_iff.mp hRun
    have hNone : e.mutation? = none ∧ mutationsOf es = [] := by
      unfold mutationsOf at hQuiet
      rw [List.filterMap_cons] at hQuiet
      cases hMutation : e.mutation? with
      | none =>
        rw [hMutation] at hQuiet
        exact ⟨rfl, hQuiet⟩
      | some m =>
        rw [hMutation] at hQuiet
        cases hQuiet
    have hSame : t.published = s.published ∧ t.flushing = none := by
      cases steps_of_dispatchStep hNext with
      | scans _ => exact ⟨rfl, hFree⟩
      | lookUp _ _ _ _ =>
        obtain ⟨_, hPublished, hFlushing⟩ := lookUpStep_tables s _ _ _ _
        exact ⟨hPublished, hFlushing.trans hFree⟩
      | setInitialized => exact ⟨rfl, hFree⟩
      | mutate _ _ => cases hNone.1
      | erase hFlushing _ =>
        rw [hFree] at hFlushing
        cases hFlushing
      | keep hFlushing _ =>
        rw [hFree] at hFlushing
        cases hFlushing
      | unlock hFlushing =>
        rw [hFree] at hFlushing
        cases hFlushing
    exact (ih hSame.2 hNone.2 hRun).trans hSame.1

theorem message_of_started {es : List (Event Cls Sel Imp)} {s : Dispatcher Cls Sel Imp address}
    (h : (dispatcher forward_imp F known T).run es = some s) {e : Event Cls Sel Imp} {k : Nat} {cls : Cls}
    {sel : Sel} (he : e ∈ es) (hStarts : Starts e k cls sel) : s.messages k ≠ none := by
  refine Machine.run_induction (P := fun es s => e ∈ es → s.messages k ≠ none)
    (fun hMem => absurd hMem List.not_mem_nil) ?_ es s h he
  intro es s f s' hRun ih hNext hMem
  have hStep := steps_of_dispatchStep hNext
  have hKept : s.messages k ≠ none → s'.messages k ≠ none := by
    intro hOld
    cases hStep with
    | @scans _ j message phase _ =>
      obtain rfl | hj := eq_or_ne k j
      · rw [setPhase_self]
        exact Option.some_ne_none _
      · rwa [setPhase_of_ne s hj]
    | @lookUp j noCache message retry _ _ hFree _ =>
      obtain ⟨phase, _, hMessages⟩ := lookUpStep_messages (sound_of_reachable T ⟨es, hRun⟩) hFree j message retry noCache
      rw [hMessages]
      obtain rfl | hj := eq_or_ne k j
      · rw [Function.update_self]
        exact Option.some_ne_none _
      · rwa [Function.update_of_ne hj]
    | setInitialized => exact hOld
    | mutate _ _ => exact hOld
    | erase _ _ => exact hOld
    | keep _ _ => exact hOld
    | unlock _ => exact hOld
  obtain hMem | hMem := List.mem_append.mp hMem
  · exact hKept (ih hMem)
  · rw [← List.mem_singleton.mp hMem] at hStep
    obtain rfl | rfl := hStarts
    · cases hStep with
      | scans hScans =>
        cases hScans
        rw [setPhase_self]
        exact Option.some_ne_none _
    · cases hStep with
      | scans hScans =>
        cases hScans
        rw [setPhase_self]
        exact Option.some_ne_none _

/-- Where a message starts that is not known yet at the end of the first part of a run. -/
theorem starts_after {es₁ es₂ : List (Event Cls Sel Imp)} {s : Dispatcher Cls Sel Imp address}
    (h : (dispatcher forward_imp F known T).run es₁ = some s) {k : Nat} (hNew : s.messages k = none)
    {pre rest : List (Event Cls Sel Imp)} {e : Event Cls Sel Imp} {cls : Cls} {sel : Sel}
    (hEs : es₁ ++ es₂ = pre ++ e :: rest) (hStarts : Starts e k cls sel) : ∃ pre', pre = es₁ ++ pre' := by
  obtain ⟨pre', hPre, _⟩ | ⟨post, hEs₁, hRest⟩ := List.append_eq_append_iff.mp hEs
  · exact ⟨pre', hPre⟩
  · cases post with
    | nil => exact ⟨[], by rw [List.append_nil] at hEs₁ ⊢; exact hEs₁.symm⟩
    | cons f post =>
      obtain ⟨rfl, _⟩ := List.cons_eq_cons.mp hRest
      refine absurd hNew (message_of_started h ?_ hStarts)
      rw [hEs₁]
      exact List.mem_append_right _ List.mem_cons_self

section Demo

/-- The hooked method is cached before the hook is installed. -/
def sendThenHook : List (Event Bool Bool Nat) :=
  sendOnce ++ [.mutate (.addMethod true false (some 2) "v20@0:8B16" false), .unlock,
    .mutate (.exchangeImplementations (some ⟨true, false⟩) (some ⟨true, true⟩)), .flush, .flush, .unlock]

def sendAgain : List (Event Bool Bool Nat) :=
  [.objc_msgSend 1 true false, .scanBucket 1, .lookUpImpOrForward 1 false]

end Demo

end OCNote.Hook
