import OCNote.Hook.Runtime

/-! # Swapping two implementations with SMHook

`hookClass:fromSelector:toSelector:` adds the hook to a class that inherits the hooked
method and exchanges implementations when the class has the method itself. The two
records that are exchanged need not belong to the same class. -/

namespace OCNote.Hook
open OCNote.Support
set_option autoImplicit false

universe u

variable {Cls Sel Imp : Type u} [DecidableEq Cls] [DecidableEq Sel]

def hookClass (F : Forest Cls) (T : MethodTables Cls Sel Imp) (classObject : Cls)
    (fromSelector toSelector : Sel) : MethodTables Cls Sel Imp :=
  let fromMethod := class_getInstanceMethod F T classObject fromSelector
  let toMethod := class_getInstanceMethod F T classObject toSelector
  let (T', added) := class_addMethod T classObject fromSelector
    (method_getImplementation T toMethod) (method_getTypeEncoding T toMethod)
  if added then
    (class_replaceMethod T' classObject toSelector
      (method_getImplementation T' fromMethod) (method_getTypeEncoding T' fromMethod)).1
  else method_exchangeImplementations T' fromMethod toMethod

def Resolves (F : Forest Cls) (T : MethodTables Cls Sel Imp) (cls : Cls) (sel : Sel) : Prop :=
  ∃ imp, dispatch F T cls sel = some (some imp)

/-- Between `T` and `T'` instances of `cls` have the implementations of the two
selectors swapped, and nothing else is different outside the subclasses of `cls`. -/
structure SwapsExactly (F : Forest Cls) (T T' : MethodTables Cls Sel Imp) (cls : Cls)
    (fromSelector toSelector : Sel) : Prop where
  from_eq : dispatch F T' cls fromSelector = dispatch F T cls toSelector
  to_eq : dispatch F T' cls toSelector = dispatch F T cls fromSelector
  other : ∀ c sel, sel ≠ fromSelector → sel ≠ toSelector → dispatch F T' c sel = dispatch F T c sel
  elsewhere : ∀ c, cls ∉ F.chain c → dispatch F T' c fromSelector = dispatch F T c fromSelector ∧
    dispatch F T' c toSelector = dispatch F T c toSelector

section Tables

variable {F : Forest Cls} {T : MethodTables Cls Sel Imp} {cls : Cls} {fromSelector toSelector : Sel}

theorem ownImp_hookClass_of_inherited {f t : Imp}
    (hFrom : dispatch F T cls fromSelector = some (some f))
    (hTo : dispatch F T cls toSelector = some (some t)) (hOwn : ownImp T cls fromSelector = none)
    (d : Cls) (sel : Sel) :
    ownImp (hookClass F T cls fromSelector toSelector) d sel =
      if d = cls ∧ sel = toSelector then some (some f)
      else if d = cls ∧ sel = fromSelector then some (some t) else ownImp T d sel := by
  obtain ⟨A, _, hA, hToMethod⟩ := exists_owner F hTo
  obtain ⟨B, _, hB, hFromMethod⟩ := exists_owner F hFrom
  have hBcls : B ≠ cls := by
    rintro rfl
    rw [hOwn] at hB
    cases hB
  have hToImp : method_getImplementation T (some ⟨A, toSelector⟩) = some t := by
    rw [getImplementation_eq, hA]
    rfl
  simp only [hookClass, hToMethod, hFromMethod, hToImp, class_addMethod_of_none hOwn, if_true]
  have hFromImp (types : String) : method_getImplementation
      (store T cls fromSelector ⟨some t, types⟩) (some ⟨B, fromSelector⟩) = some f := by
    rw [getImplementation_eq, ownImp_store, if_neg fun h => hBcls h.1, hB]
    rfl
  rw [hFromImp, ownImp_replaceMethod, ownImp_store]

/-- The branch that exchanges: the record of the hook may belong to an ancestor `A`. -/
theorem ownImp_hookClass_of_own {f t : Imp} {A : Cls}
    (hFrom : ownImp T cls fromSelector = some (some f)) (hTo : ownImp T A toSelector = some (some t))
    (hOwner : class_getInstanceMethod F T cls toSelector = some ⟨A, toSelector⟩)
    (d : Cls) (sel : Sel) :
    ownImp (hookClass F T cls fromSelector toSelector) d sel =
      if d = A ∧ sel = toSelector then some (some f)
      else if d = cls ∧ sel = fromSelector then some (some t) else ownImp T d sel := by
  have hRecord : ∃ record, T cls fromSelector = some record ∧ record.imp = some f := by
    cases hT : T cls fromSelector with
    | none => simp [ownImp, hT] at hFrom
    | some record => exact ⟨record, rfl, by simpa [ownImp, hT] using hFrom⟩
  obtain ⟨record, hRecord, hImp⟩ := hRecord
  have hFromOwner : class_getInstanceMethod F T cls fromSelector = some ⟨cls, fromSelector⟩ :=
    owner_of_own F (by rw [hFrom]; rfl)
  have hHook : hookClass F T cls fromSelector toSelector =
      method_exchangeImplementations T (some ⟨cls, fromSelector⟩) (some ⟨A, toSelector⟩) := by
    simp only [hookClass, class_addMethod, addMethod, hRecord, hImp, hFromOwner, hOwner]
    rfl
  rw [hHook]
  exact ownImp_exchange hFrom hTo d sel

/-- With the hook in the class itself both branches write the same two entries. -/
theorem ownImp_hookClass {f t : Imp} (hFrom : dispatch F T cls fromSelector = some (some f))
    (hTo : ownImp T cls toSelector = some (some t)) (d : Cls) (sel : Sel) :
    ownImp (hookClass F T cls fromSelector toSelector) d sel =
      if d = cls ∧ sel = toSelector then some (some f)
      else if d = cls ∧ sel = fromSelector then some (some t) else ownImp T d sel := by
  cases hOwn : ownImp T cls fromSelector with
  | none => exact ownImp_hookClass_of_inherited hFrom (dispatch_of_own F hTo) hOwn d sel
  | some imp =>
    have hImp : imp = some f := Option.some.inj ((dispatch_of_own F hOwn).symm.trans hFrom)
    rw [hImp] at hOwn
    exact ownImp_hookClass_of_own hOwn hTo (owner_of_own F (by rw [hTo]; rfl)) d sel

theorem ownImp_hookClass_of_ne (d : Cls) {sel : Sel} (hNotFrom : sel ≠ fromSelector)
    (hNotTo : sel ≠ toSelector) :
    ownImp (hookClass F T cls fromSelector toSelector) d sel = ownImp T d sel := by
  obtain ⟨⟨T', added⟩, hAdd⟩ : ∃ result, class_addMethod T cls fromSelector
      (method_getImplementation T (class_getInstanceMethod F T cls toSelector))
      (method_getTypeEncoding T (class_getInstanceMethod F T cls toSelector)) = result := ⟨_, rfl⟩
  have hSame : ownImp T' d sel = ownImp T d sel := by
    rw [← ownImp_addMethod_of_ne T cls _ _ false d hNotFrom]
    exact congrArg (fun result => ownImp result.1 d sel) hAdd.symm
  simp only [hookClass, hAdd]
  cases added with
  | true => exact (ownImp_addMethod_of_ne _ _ _ _ _ _ hNotTo).trans hSame
  | false =>
    refine (ownImp_exchange_of_ne T' d (fun m hm => ?_) fun m hm => ?_).trans hSame
    · rwa [name_of_getInstanceMethod F hm]
    · rwa [name_of_getInstanceMethod F hm]

theorem SwapsExactly.of_own_tables {T' : MethodTables Cls Sel Imp} {f t : Imp}
    (hFrom : dispatch F T cls fromSelector = some (some f))
    (hTo : dispatch F T cls toSelector = some (some t))
    (hTables : ∀ d sel, ownImp T' d sel =
      if d = cls ∧ sel = toSelector then some (some f)
      else if d = cls ∧ sel = fromSelector then some (some t) else ownImp T d sel) :
    SwapsExactly F T T' cls fromSelector toSelector where
  from_eq := by
    rw [hTo]
    apply dispatch_of_own
    rw [hTables]
    obtain rfl | hSame := eq_or_ne fromSelector toSelector
    · rw [if_pos ⟨rfl, rfl⟩, ← hFrom, hTo]
    · rw [if_neg fun h => hSame h.2, if_pos ⟨rfl, rfl⟩]
  to_eq := by
    rw [hFrom]
    apply dispatch_of_own
    rw [hTables, if_pos ⟨rfl, rfl⟩]
  other c sel hNotFrom hNotTo := dispatch_congr F fun d _ => by
    rw [hTables, if_neg fun h => hNotTo h.2, if_neg fun h => hNotFrom h.2]
  elsewhere c hc := by
    have hSame : ∀ sel, dispatch F T' c sel = dispatch F T c sel := fun sel =>
      dispatch_congr F fun d hd => by
        have hdc : d ≠ cls := fun h => hc (h ▸ hd)
        rw [hTables, if_neg fun h => hdc h.1, if_neg fun h => hdc h.1]
    exact ⟨hSame _, hSame _⟩

/-- When the hook is inherited and the hooked method is not, the ancestor that implements
the hook is left with the implementation of the hooked method. -/
theorem exchange_reaches_ancestor {f t : Imp} (hFrom : ownImp T cls fromSelector = some (some f))
    (hTo : dispatch F T cls toSelector = some (some t)) (hOwn : ownImp T cls toSelector = none) :
    ∃ A ∈ F.chain cls, cls ∉ F.chain A ∧ dispatch F T A toSelector = some (some t) ∧
      dispatch F (hookClass F T cls fromSelector toSelector) A toSelector = some (some f) := by
  obtain ⟨A, hA, hToOwn, hOwner⟩ := exists_owner F hTo
  refine ⟨A, hA, fun h => ?_, dispatch_of_own F hToOwn, dispatch_of_own F ?_⟩
  · rw [F.mem_chain_antisymm hA h, hToOwn] at hOwn
    cases hOwn
  · rw [ownImp_hookClass_of_own hFrom hToOwn hOwner, if_pos ⟨rfl, rfl⟩]

theorem hookClass_of_same {imp : Imp} (hFrom : ownImp T cls fromSelector = some (some imp))
    (hTo : dispatch F T cls toSelector = some (some imp)) (d : Cls) (sel : Sel) :
    ownImp (hookClass F T cls fromSelector toSelector) d sel = ownImp T d sel := by
  obtain ⟨A, _, hToOwn, hOwner⟩ := exists_owner F hTo
  rw [ownImp_hookClass_of_own hFrom hToOwn hOwner]
  split
  · rename_i hA
    rw [hA.1, hA.2, hToOwn]
  · split
    · rename_i hCls
      rw [hCls.1, hCls.2, hFrom]
    · rfl

omit [DecidableEq Cls] [DecidableEq Sel] in
theorem SwapsExactly.of_unchanged {T' : MethodTables Cls Sel Imp}
    (hTables : ∀ d sel, ownImp T' d sel = ownImp T d sel)
    (hSame : dispatch F T cls fromSelector = dispatch F T cls toSelector) :
    SwapsExactly F T T' cls fromSelector toSelector := by
  have hDispatch : ∀ c sel, dispatch F T' c sel = dispatch F T c sel := fun c sel =>
    dispatch_congr F fun d _ => hTables d sel
  exact {
    from_eq := (hDispatch _ _).trans hSame
    to_eq := (hDispatch _ _).trans hSame.symm
    other := fun c sel _ _ => hDispatch c sel
    elsewhere := fun c _ => ⟨hDispatch c _, hDispatch c _⟩ }

end Tables

/-- The hook swaps exactly the two implementations unless the class has the hooked method
itself, inherits the hook, and the two implementations differ. -/
theorem hookClass_swapsExactly_iff (F : Forest Cls) (T : MethodTables Cls Sel Imp) (cls : Cls)
    (fromSelector toSelector : Sel) (hFrom : Resolves F T cls fromSelector)
    (hTo : Resolves F T cls toSelector) :
    SwapsExactly F T (hookClass F T cls fromSelector toSelector) cls fromSelector toSelector ↔
      T cls fromSelector = none ∨ T cls toSelector ≠ none ∨
        dispatch F T cls fromSelector = dispatch F T cls toSelector := by
  obtain ⟨f, hFrom⟩ := hFrom
  obtain ⟨t, hTo⟩ := hTo
  have hNone : ∀ sel, T cls sel = none ↔ ownImp T cls sel = none := fun sel => by simp [ownImp]
  rw [hNone, ne_eq, hNone]
  cases hOwn : ownImp T cls fromSelector with
  | none =>
    exact iff_of_true (.of_own_tables hFrom hTo (ownImp_hookClass_of_inherited hFrom hTo hOwn))
      (.inl rfl)
  | some imp =>
    have hImp : imp = some f := Option.some.inj ((dispatch_of_own F hOwn).symm.trans hFrom)
    subst hImp
    cases hToOwn : ownImp T cls toSelector with
    | some imp =>
      have hImp : imp = some t := Option.some.inj ((dispatch_of_own F hToOwn).symm.trans hTo)
      subst hImp
      refine iff_of_true (.of_own_tables hFrom hTo ?_) (.inr (.inl (by simp)))
      exact ownImp_hookClass_of_own hOwn hToOwn (owner_of_own F (by rw [hToOwn]; rfl))
    | none =>
      constructor
      · intro h
        obtain ⟨A, _, hOutside, hBefore, hAfter⟩ := exchange_reaches_ancestor hOwn hTo hToOwn
        rw [(h.elsewhere A hOutside).2, hBefore] at hAfter
        exact .inr (.inr (by rw [hFrom, hTo, hAfter]))
      · rintro (h | h | hSame)
        · cases h
        · exact absurd rfl h
        · have hft : f = t := by
            rw [hFrom, hTo] at hSame
            exact Option.some.inj (Option.some.inj hSame)
          exact .of_unchanged (hookClass_of_same hOwn (hft ▸ hTo)) hSame

section Inherited

/-- The class `true` and its parent `false`. -/
def parentAndChild : Forest Bool where
  parent c := if c then some false else none
  depth c := if c then 1 else 0
  depth_lt {c p} h := by
    cases c <;> cases p <;> simp at h ⊢

def inheritedHook : MethodTables Bool Bool Nat := fun cls sel =>
  if cls && !sel then some ⟨some 1, "v16@0:8"⟩
  else if !cls && sel then some ⟨some 2, "v16@0:8"⟩ else none

/-- The parent ends up running the implementation of its child. -/
theorem hookClass_changes_parent :
    ¬ ∀ (F : Forest Bool) (T : MethodTables Bool Bool Nat) (cls fromSelector toSelector : Bool),
      Resolves F T cls fromSelector → Resolves F T cls toSelector →
      SwapsExactly F T (hookClass F T cls fromSelector toSelector) cls fromSelector toSelector := by
  intro hClaim
  have hSwaps := hClaim parentAndChild inheritedHook true false true ⟨1, by decide⟩ ⟨2, by decide⟩
  have hParent := (hSwaps.elsewhere false (by decide)).2
  have hAfter : dispatch parentAndChild (hookClass parentAndChild inheritedHook true false true)
      false true = some (some 1) := by decide
  have hBefore : dispatch parentAndChild inheritedHook false true = some (some 2) := by decide
  rw [hAfter, hBefore] at hParent
  cases hParent

theorem hookClass_swapsExactly_iff_added :
    SwapsExactly parentAndChild inheritedHook (hookClass parentAndChild inheritedHook true true false)
      true true false ↔ inheritedHook true true = none ∨ inheritedHook true false ≠ none ∨
        dispatch parentAndChild inheritedHook true true =
          dispatch parentAndChild inheritedHook true false :=
  hookClass_swapsExactly_iff parentAndChild inheritedHook true true false ⟨2, by decide⟩ ⟨1, by decide⟩

end Inherited

end OCNote.Hook
