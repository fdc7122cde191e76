import OCNote.Hook.SMHook

/-! # Hook requests with a missing method

`class_getInstanceMethod` gives nil for a selector that does not resolve, and the hook
goes on with it. Only the exchange notices: with one method missing it does nothing. -/

namespace OCNote.Hook
open OCNote.Support
set_option autoImplicit false

universe u

variable {Cls Sel Imp : Type u}

def SameDispatch (F : Forest Cls) (T T' : MethodTables Cls Sel Imp) : Prop :=
  ∀ c sel, dispatch F T' c sel = dispatch F T c sel

variable [DecidableEq Cls] [DecidableEq Sel] {F : Forest Cls} {T : MethodTables Cls Sel Imp} {cls : Cls}
  {fromSelector toSelector : Sel}

theorem hookClass_of_own_of_missing {f : Imp} (hFrom : ownImp T cls fromSelector = some (some f))
    (hTo : dispatch F T cls toSelector = none) : hookClass F T cls fromSelector toSelector = T := by
  have hExists : ∃ record, T cls fromSelector = some record ∧ record.imp = some f :=
    Option.map_eq_some_iff.mp hFrom
  obtain ⟨record, hRecord, hImp⟩ := hExists
  have hToMethod := getInstanceMethod_eq_none F hTo
  have hFromMethod : class_getInstanceMethod F T cls fromSelector = some ⟨cls, fromSelector⟩ :=
    owner_of_own F (by rw [hFrom]; rfl)
  simp only [hookClass, class_addMethod, addMethod, hRecord, hImp, hToMethod, hFromMethod]
  rfl

/-- Through the add branch both selectors end up with an entry of the class itself. -/
theorem isSome_hookClass_of_added (hAdded : ∀ f, ownImp T cls fromSelector ≠ some (some f)) {sel : Sel}
    (hSel : sel = fromSelector ∨ sel = toSelector) :
    (ownImp (hookClass F T cls fromSelector toSelector) cls sel).isSome = true := by
  have hTrue := (class_addMethod_snd T cls fromSelector
    (method_getImplementation T (class_getInstanceMethod F T cls toSelector))
    (method_getTypeEncoding T (class_getInstanceMethod F T cls toSelector))).mpr hAdded
  simp only [hookClass, hTrue, if_true]
  apply isSome_addMethod
  obtain rfl | rfl := hSel
  · exact .inr (isSome_addMethod _ _ _ _ _ _ (.inl ⟨rfl, rfl⟩))
  · exact .inl ⟨rfl, rfl⟩

/-- A request with a missing method changes nothing exactly if the class itself implements
the method to be hooked. -/
theorem hookClass_unresolved_iff (F : Forest Cls) (T : MethodTables Cls Sel Imp) (cls : Cls)
    (fromSelector toSelector : Sel)
    (hMissing : dispatch F T cls fromSelector = none ∨ dispatch F T cls toSelector = none) :
    SameDispatch F T (hookClass F T cls fromSelector toSelector) ↔
      ∃ f, ownImp T cls fromSelector = some (some f) := by
  constructor
  · intro hSame
    by_contra hNot
    have hAdded : ∀ f, ownImp T cls fromSelector ≠ some (some f) := fun f hf => hNot ⟨f, hf⟩
    have hPresent : ∀ sel, sel = fromSelector ∨ sel = toSelector → dispatch F T cls sel ≠ none := by
      intro sel hSel hNone
      obtain ⟨imp, hOwn⟩ := Option.isSome_iff_exists.mp (isSome_hookClass_of_added (F := F) hAdded hSel)
      have hDispatch := dispatch_of_own F hOwn
      rw [hSame, hNone] at hDispatch
      cases hDispatch
    obtain hNone | hNone := hMissing
    · exact hPresent fromSelector (.inl rfl) hNone
    · exact hPresent toSelector (.inr rfl) hNone
  · rintro ⟨f, hOwn⟩
    have hTo : dispatch F T cls toSelector = none := by
      obtain hNone | hNone := hMissing
      · rw [dispatch_of_own F hOwn] at hNone
        cases hNone
      · exact hNone
    intro c sel
    rw [hookClass_of_own_of_missing hOwn hTo]

section Missing

def hookOnly : MethodTables Bool Bool Nat := fun cls sel =>
  if cls && sel then some ⟨some 1, "v16@0:8"⟩ else none

/-- The method to be hooked is missing: the hook becomes its implementation and goes on
sending its own selector to itself. -/
theorem hookClass_installs_hook_for_missing :
    ¬ ∀ (F : Forest Bool) (T : MethodTables Bool Bool Nat) (cls fromSelector toSelector : Bool),
      dispatch F T cls fromSelector = none ∨ dispatch F T cls toSelector = none →
      SameDispatch F T (hookClass F T cls fromSelector toSelector) := by
  intro hClaim
  have hSame := hClaim parentAndChild hookOnly true false true (.inl (by decide)) true false
  have hAfter : dispatch parentAndChild (hookClass parentAndChild hookOnly true false true) true false =
      some (some 1) := by decide
  have hBefore : dispatch parentAndChild hookOnly true false = none := by decide
  rw [hAfter, hBefore] at hSame
  cases hSame

theorem hookClass_unresolved_iff_own :
    SameDispatch parentAndChild hookOnly (hookClass parentAndChild hookOnly true true false) ↔
      ∃ f, ownImp hookOnly true true = some (some f) :=
  hookClass_unresolved_iff parentAndChild hookOnly true true false (.inr (by decide))

end Missing

end OCNote.Hook
