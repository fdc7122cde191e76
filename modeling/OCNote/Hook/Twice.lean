import OCNote.Hook.Unresolved

/-! # The same hook a second time

A second request for the same pair takes the first one back. After the add branch the
class keeps entries of its own for both selectors; they hold what it inherited before. -/

namespace OCNote.Hook
open OCNote.Support
set_option autoImplicit false

universe u

variable {Cls Sel Imp : Type u}

section Stored

variable {F : Forest Cls} {T T' : MethodTables Cls Sel Imp} {sel : Sel}

/-- The owner of a method is decided by which entries there are. -/
theorem getInstanceMethod_congr (h : ∀ d, (ownImp T' d sel).isSome = (ownImp T d sel).isSome) (cls : Cls) :
    class_getInstanceMethod F T' cls sel = class_getInstanceMethod F T cls sel := by
  refine F.nearest_congr fun d _ => ?_
  have hSame := h d
  rw [ownImp, ownImp, Option.isSome_map, Option.isSome_map] at hSame
  cases hT : T d sel <;> cases hT' : T' d sel <;> simp [hT, hT'] at hSame ⊢

theorem dispatch_of_stored {cls : Cls} (hOther : ∀ d, d ≠ cls → ownImp T' d sel = ownImp T d sel)
    (hStored : ownImp T' cls sel = dispatch F T cls sel) (c : Cls) :
    dispatch F T' c sel = dispatch F T c sel := F.nearest_of_stored hOther hStored c

end Stored

variable [DecidableEq Cls] [DecidableEq Sel] {F : Forest Cls} {T : MethodTables Cls Sel Imp} {cls : Cls}
  {fromSelector toSelector : Sel} {f t : Imp}

/-- Two exchanges of the same records, whoever owns them, restore every entry. -/
theorem ownImp_twice_of_own (hFrom : ownImp T cls fromSelector = some (some f))
    (hTo : dispatch F T cls toSelector = some (some t)) (d : Cls) (sel : Sel) :
    ownImp (hookClass F (hookClass F T cls fromSelector toSelector) cls fromSelector toSelector) d sel =
      ownImp T d sel := by
  obtain ⟨A, _, hToOwn, hOwner⟩ := exists_owner F hTo
  have hFirst := ownImp_hookClass_of_own hFrom hToOwn hOwner
  have hKept : ∀ d sel, (ownImp (hookClass F T cls fromSelector toSelector) d sel).isSome =
      (ownImp T d sel).isSome := by
    intro d sel
    rw [hFirst]
    split
    · rename_i hAt
      rw [hAt.1, hAt.2, hToOwn]
      rfl
    · split
      · rename_i hAt
        rw [hAt.1, hAt.2, hFrom]
        rfl
      · rfl
  have hOwner' : class_getInstanceMethod F (hookClass F T cls fromSelector toSelector) cls toSelector =
      some ⟨A, toSelector⟩ := (getInstanceMethod_congr (fun d => hKept d toSelector) cls).trans hOwner
  have hTo' : ownImp (hookClass F T cls fromSelector toSelector) A toSelector = some (some f) := by
    rw [hFirst, if_pos ⟨rfl, rfl⟩]
  have hFrom' : ownImp (hookClass F T cls fromSelector toSelector) cls fromSelector = some (some t) := by
    rw [hFirst]
    split
    · rename_i hAt
      rw [← hFrom, ← hToOwn, hAt.1, hAt.2]
    · exact if_pos ⟨rfl, rfl⟩
  rw [ownImp_hookClass_of_own hFrom' hTo' hOwner']
  split
  · rename_i hAt
    rw [hAt.1, hAt.2, hToOwn]
  · rename_i hNotTo
    split
    · rename_i hAt
      rw [hAt.1, hAt.2, hFrom]
    · rename_i hNotFrom
      rw [hFirst, if_neg hNotTo, if_neg hNotFrom]

/-- The first request adds entries to the class, the second one exchanges them. -/
theorem ownImp_twice_of_inherited (hFrom : dispatch F T cls fromSelector = some (some f))
    (hTo : dispatch F T cls toSelector = some (some t)) (hOwn : ownImp T cls fromSelector = none)
    (d : Cls) (sel : Sel) :
    ownImp (hookClass F (hookClass F T cls fromSelector toSelector) cls fromSelector toSelector) d sel =
      if d = cls ∧ sel = toSelector then some (some t)
      else if d = cls ∧ sel = fromSelector then some (some f) else ownImp T d sel := by
  have hFirst := ownImp_hookClass_of_inherited hFrom hTo hOwn
  have hTo' : ownImp (hookClass F T cls fromSelector toSelector) cls toSelector = some (some f) := by
    rw [hFirst, if_pos ⟨rfl, rfl⟩]
  have hFrom' : ownImp (hookClass F T cls fromSelector toSelector) cls fromSelector = some (some t) := by
    rw [hFirst]
    split
    · rename_i hAt
      rw [← hFrom, ← hTo, hAt.2]
    · exact if_pos ⟨rfl, rfl⟩
  rw [ownImp_hookClass (dispatch_of_own F hFrom') hTo', hFirst]
  split
  · rfl
  · split <;> rfl

/-- A request made twice in a row changes no dispatch, whether the class has the two
methods itself or inherits them. -/
theorem hookClass_twice (F : Forest Cls) (T : MethodTables Cls Sel Imp) (cls : Cls)
    (fromSelector toSelector : Sel) (hFrom : Resolves F T cls fromSelector)
    (hTo : Resolves F T cls toSelector) :
    SameDispatch F T
      (hookClass F (hookClass F T cls fromSelector toSelector) cls fromSelector toSelector) := by
  obtain ⟨f, hFrom⟩ := hFrom
  obtain ⟨t, hTo⟩ := hTo
  intro c sel
  cases hOwn : ownImp T cls fromSelector with
  | some imp =>
    have hImp : imp = some f := Option.some.inj ((dispatch_of_own F hOwn).symm.trans hFrom)
    rw [hImp] at hOwn
    exact dispatch_congr F fun d _ => ownImp_twice_of_own hOwn hTo d sel
  | none =>
    have hTables := ownImp_twice_of_inherited hFrom hTo hOwn
    have hOther : ∀ d, d ≠ cls → ownImp
        (hookClass F (hookClass F T cls fromSelector toSelector) cls fromSelector toSelector) d sel =
          ownImp T d sel := by
      intro d hd
      rw [hTables, if_neg fun h => hd h.1, if_neg fun h => hd h.1]
    obtain rfl | hNotTo := eq_or_ne sel toSelector
    · refine dispatch_of_stored hOther ?_ c
      rw [hTables, if_pos ⟨rfl, rfl⟩, hTo]
    obtain rfl | hNotFrom := eq_or_ne sel fromSelector
    · refine dispatch_of_stored hOther ?_ c
      rw [hTables, if_neg fun h => hNotTo h.2, if_pos ⟨rfl, rfl⟩, hFrom]
    · refine dispatch_congr F fun d _ => ?_
      rw [hTables, if_neg fun h => hNotTo h.2, if_neg fun h => hNotFrom h.2]

/-- The hook is inherited here, so that both exchanges reach the parent. -/
theorem hookClass_twice_inherited : SameDispatch parentAndChild inheritedHook
    (hookClass parentAndChild (hookClass parentAndChild inheritedHook true false true) true false true) :=
  hookClass_twice parentAndChild inheritedHook true false true ⟨1, by decide⟩ ⟨2, by decide⟩

end OCNote.Hook
