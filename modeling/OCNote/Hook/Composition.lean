import OCNote.Hook.Sending
import OCNote.Hook.SMHook

/-! # Several hooks of one method

Hooks of the same class stack up: the newest runs first and each one leads to the next
older. A hook that the subclass took over by inheritance is another matter: the subclass
keeps the implementation that was there when it was hooked. -/

namespace OCNote.Hook
open OCNote.Support
set_option autoImplicit false

universe u

variable {Cls Sel Imp : Type u} [DecidableEq Cls] [DecidableEq Sel]

def hookAll (F : Forest Cls) (T : MethodTables Cls Sel Imp) (cls : Cls) (requests : List (Sel × Sel)) :
    MethodTables Cls Sel Imp :=
  requests.foldl (fun T request => hookClass F T cls request.1 request.2) T

section Stack

variable {F : Forest Cls} {T : MethodTables Cls Sel Imp} {body : Imp → List Sel} {cls : Cls}
  {fromSelector : Sel} {hook : Sel → Imp} {original : Imp}

/-- The selectors can be used as hooks of `fromSelector`: each is implemented in the class
itself, by a body that sends its own selector once. -/
structure Hooks (T : MethodTables Cls Sel Imp) (body : Imp → List Sel) (cls : Cls) (fromSelector : Sel)
    (hook : Sel → Imp) (toSelectors : List Sel) : Prop where
  distinct : toSelectors.Nodup
  notFrom : fromSelector ∉ toSelectors
  own : ∀ sel ∈ toSelectors, ownImp T cls sel = some (some (hook sel))
  sendsOwn : ∀ sel ∈ toSelectors, body (hook sel) = [sel]

/-- The requests for `fromSelector` are those with the given hooks, in this order. The
others are for selectors outside of these. -/
structure Interleaves (fromSelector : Sel) (toSelectors : List Sel) (requests : List (Sel × Sel)) : Prop where
  hooks : requests.filter (fun request => request.1 = fromSelector) =
    toSelectors.map fun sel => (fromSelector, sel)
  others : ∀ request ∈ requests, request.1 ≠ fromSelector →
    request.1 ∉ toSelectors ∧ request.2 ≠ fromSelector ∧ request.2 ∉ toSelectors

/-- `top` is the newest of the hooks in `done`, which are listed from the newest to the
oldest. The selector of each leads to the next older, that of the oldest to the original. -/
def Stacked (T : MethodTables Cls Sel Imp) (cls : Cls) (hook : Sel → Imp) (original : Imp) :
    List Sel → Imp → Prop
  | [], top => top = original
  | sel :: older, top => top = hook sel ∧ ∃ next, ownImp T cls sel = some (some next) ∧
      Stacked T cls hook original older next

omit [DecidableEq Cls] [DecidableEq Sel] in
theorem Stacked.congr {T' : MethodTables Cls Sel Imp} {done : List Sel} {top : Imp}
    (h : Stacked T cls hook original done top) (hSame : ∀ sel ∈ done, ownImp T' cls sel = ownImp T cls sel) :
    Stacked T' cls hook original done top := by
  induction done generalizing top with
  | nil => exact h
  | cons sel older ih =>
    obtain ⟨hTop, next, hNext, hOlder⟩ := h
    refine ⟨hTop, next, ?_, ih hOlder fun sel' hSel => hSame sel' (List.mem_cons_of_mem sel hSel)⟩
    rw [hSame sel List.mem_cons_self, hNext]

/-- What has been reached when the hooks `done` have been installed and `rest` have not. -/
structure StackInv (F : Forest Cls) (T : MethodTables Cls Sel Imp) (cls : Cls) (fromSelector : Sel)
    (hook : Sel → Imp) (original : Imp) (done rest : List Sel) (top : Imp) : Prop where
  runs : dispatch F T cls fromSelector = some (some top)
  stacked : Stacked T cls hook original done top
  own : ∀ sel ∈ rest, ownImp T cls sel = some (some (hook sel))

theorem StackInv.install {done rest : List Sel} {sel : Sel} {top : Imp}
    (h : StackInv F T cls fromSelector hook original done (sel :: rest) top)
    (hFrom : fromSelector ∉ done ++ sel :: rest) (hDistinct : (done ++ sel :: rest).Nodup) :
    StackInv F (hookClass F T cls fromSelector sel) cls fromSelector hook original (sel :: done) rest
      (hook sel) := by
  have hOwn := ownImp_hookClass h.runs (h.own sel List.mem_cons_self)
  have hSelFrom : fromSelector ≠ sel := by
    rintro rfl
    exact hFrom (List.mem_append_right _ List.mem_cons_self)
  have hOther : ∀ s, s ≠ fromSelector → s ≠ sel →
      ownImp (hookClass F T cls fromSelector sel) cls s = ownImp T cls s := by
    intro s hs hs'
    rw [hOwn, if_neg fun h => hs' h.2, if_neg fun h => hs h.2]
  have hApart := List.nodup_append.mp hDistinct
  refine ⟨?_, ⟨rfl, top, ?_, h.stacked.congr fun s hs => ?_⟩, fun s hs => ?_⟩
  · apply dispatch_of_own
    rw [hOwn, if_neg fun h => hSelFrom h.2, if_pos ⟨rfl, rfl⟩]
  · rw [hOwn, if_pos ⟨rfl, rfl⟩]
  · refine hOther s ?_ (hApart.2.2 s hs sel List.mem_cons_self)
    rintro rfl
    exact hFrom (List.mem_append_left _ hs)
  · rw [hOther s, h.own s (List.mem_cons_of_mem sel hs)]
    · rintro rfl
      exact hFrom (List.mem_append_right _ (List.mem_cons_of_mem sel hs))
    · rintro rfl
      exact (List.nodup_cons.mp hApart.2.1).1 hs

theorem StackInv.other {done rest : List Sel} {top : Imp} {request : Sel × Sel}
    (h : StackInv F T cls fromSelector hook original done rest top)
    (hOutside : ∀ sel, sel = fromSelector ∨ sel ∈ done ++ rest → sel ≠ request.1 ∧ sel ≠ request.2) :
    StackInv F (hookClass F T cls request.1 request.2) cls fromSelector hook original done rest top := by
  have hSame : ∀ d sel, sel = fromSelector ∨ sel ∈ done ++ rest →
      ownImp (hookClass F T cls request.1 request.2) d sel = ownImp T d sel :=
    fun d sel hSel => ownImp_hookClass_of_ne d (hOutside sel hSel).1 (hOutside sel hSel).2
  refine ⟨?_, h.stacked.congr fun sel hSel => ?_, fun sel hSel => ?_⟩
  · rw [dispatch_congr F fun d _ => hSame d fromSelector (.inl rfl)]
    exact h.runs
  · exact hSame cls sel (.inr (List.mem_append_left _ hSel))
  · rw [hSame cls sel (.inr (List.mem_append_right _ hSel))]
    exact h.own sel hSel

theorem StackInv.hookAll {done rest : List Sel} {top : Imp} {requests : List (Sel × Sel)}
    (h : StackInv F T cls fromSelector hook original done rest top)
    (hFrom : fromSelector ∉ done ++ rest) (hDistinct : (done ++ rest).Nodup)
    (hHooks : requests.filter (fun request => request.1 = fromSelector) =
      rest.map fun sel => (fromSelector, sel))
    (hOthers : ∀ request ∈ requests, request.1 ≠ fromSelector →
      ∀ sel, sel = fromSelector ∨ sel ∈ done ++ rest → sel ≠ request.1 ∧ sel ≠ request.2) :
    ∃ top', StackInv F (hookAll F T cls requests) cls fromSelector hook original (rest.reverse ++ done) []
      top' := by
  induction requests generalizing T done rest top with
  | nil =>
    obtain rfl : rest = [] := by simpa using hHooks.symm
    exact ⟨top, h⟩
  | cons request requests ih =>
    have hLater : ∀ r ∈ requests, r.1 ≠ fromSelector → ∀ sel, sel = fromSelector ∨ sel ∈ done ++ rest →
        sel ≠ r.1 ∧ sel ≠ r.2 := fun r hr => hOthers r (List.mem_cons_of_mem request hr)
    by_cases hRequest : request.1 = fromSelector
    · rw [List.filter_cons_of_pos (by simpa using hRequest)] at hHooks
      cases rest with
      | nil => cases hHooks
      | cons sel rest =>
        obtain ⟨rfl, hRest⟩ := List.cons.inj hHooks
        have hPerm : (sel :: done ++ rest).Perm (done ++ sel :: rest) := List.perm_middle.symm
        obtain ⟨top', hTop⟩ := ih (h.install hFrom hDistinct) (fun hMem => hFrom (hPerm.mem_iff.mp hMem))
          (hPerm.nodup_iff.mpr hDistinct) hRest fun r hr hOther s hs =>
            hLater r hr hOther s (hs.imp_right hPerm.mem_iff.mp)
        exact ⟨top', by rw [List.reverse_cons, List.append_assoc]; exact hTop⟩
    · rw [List.filter_cons_of_neg (by simpa using hRequest)] at hHooks
      exact ih (h.other (hOthers request List.mem_cons_self hRequest)) hFrom hDistinct hHooks hLater

omit [DecidableEq Cls] [DecidableEq Sel] in
/-- A stack of hooks runs from the newest to the oldest and then the original. -/
theorem Stacked.sends_iff {done : List Sel} {top : Imp} {sel : Sel}
    (h : Stacked T cls hook original done top) (hBody : ∀ s ∈ done, body (hook s) = [s])
    (hTop : dispatch F T cls sel = some (some top)) (trace : List Imp) :
    Sends F T body cls sel trace ↔ ∃ runs, SendsAll F T body cls (body original) runs ∧
      trace = done.map hook ++ original :: runs := by
  induction done generalizing sel top trace with
  | nil =>
    cases h
    exact OCNote.Hook.sends_iff hTop trace
  | cons s older ih =>
    obtain ⟨rfl, next, hNext, hOlder⟩ := h
    have hRest := ih hOlder (fun s' hs => hBody s' (List.mem_cons_of_mem s hs)) (dispatch_of_own F hNext)
    rw [sends_iff_of_body hTop (hBody s List.mem_cons_self)]
    constructor
    · rintro ⟨_, hSends, rfl⟩
      obtain ⟨runs, hRuns, rfl⟩ := (hRest _).mp hSends
      exact ⟨runs, hRuns, rfl⟩
    · rintro ⟨runs, hRuns, rfl⟩
      exact ⟨_, (hRest _).mpr ⟨runs, hRuns, rfl⟩, rfl⟩

/-- After hooks of one class have been installed in any company of other hooks, a message
runs them from the newest to the oldest, then the original once, and then whatever the
original sends; it terminates if these messages do. -/
theorem hooks_run_newest_first (F : Forest Cls) (T : MethodTables Cls Sel Imp) (body : Imp → List Sel)
    (cls : Cls) (fromSelector : Sel) (hook : Sel → Imp) (original : Imp) (toSelectors : List Sel)
    (requests : List (Sel × Sel)) (hOriginal : dispatch F T cls fromSelector = some (some original))
    (hHooks : Hooks T body cls fromSelector hook toSelectors)
    (hRequests : Interleaves fromSelector toSelectors requests) :
    (∀ trace, Sends F (hookAll F T cls requests) body cls fromSelector trace ↔
      ∃ runs, SendsAll F (hookAll F T cls requests) body cls (body original) runs ∧
        trace = (toSelectors.map hook).reverse ++ original :: runs) ∧
    (body original = [] → Sends F (hookAll F T cls requests) body cls fromSelector
      ((toSelectors.map hook).reverse ++ [original])) := by
  have hStart : StackInv F T cls fromSelector hook original [] toSelectors original :=
    ⟨hOriginal, rfl, hHooks.own⟩
  obtain ⟨top, hTop⟩ := hStart.hookAll (by simpa using hHooks.notFrom) (by simpa using hHooks.distinct)
    hRequests.hooks fun request hr hOther sel hSel => by
      obtain ⟨hFirst, hNotFrom, hSecond⟩ := hRequests.others request hr hOther
      obtain rfl | hSel := hSel
      · exact ⟨Ne.symm hOther, Ne.symm hNotFrom⟩
      · exact ⟨fun h => hFirst (h ▸ hSel), fun h => hSecond (h ▸ hSel)⟩
  have hSends : ∀ trace, Sends F (hookAll F T cls requests) body cls fromSelector trace ↔
      ∃ runs, SendsAll F (hookAll F T cls requests) body cls (body original) runs ∧
        trace = (toSelectors.map hook).reverse ++ original :: runs := by
    intro trace
    have hIff : Sends F _ body cls fromSelector trace ↔ _ := hTop.stacked.sends_iff
      (fun s hs => hHooks.sendsOwn s (by simpa using hs)) hTop.runs trace
    simpa using hIff
  refine ⟨hSends, fun hLeaf => (hSends _).mpr ⟨[], ?_, rfl⟩⟩
  rw [hLeaf, sendsAll_nil]

def loggerBodies : Nat → List Nat
  | 11 => [1]
  | 12 => [2]
  | _ => []

/-- The child inherits the method 0 and implements the hooks 1 and 2. -/
def loggerTables : MethodTables Bool Nat Nat := fun cls sel =>
  match cls, sel with
  | false, 0 => some ⟨some 10, "v20@0:8B16"⟩
  | true, 1 => some ⟨some 11, "v20@0:8B16"⟩
  | true, 2 => some ⟨some 12, "v20@0:8B16"⟩
  | _, _ => none

def loggerHook (sel : Nat) : Nat := sel + 10

theorem hooks_run_newest_first_two :
    Sends parentAndChild (hookAll parentAndChild loggerTables true [(0, 1), (5, 6), (0, 2)]) loggerBodies true 0
      [12, 11, 10] :=
  (hooks_run_newest_first parentAndChild loggerTables loggerBodies true 0 loggerHook 10 [1, 2]
    [(0, 1), (5, 6), (0, 2)] (by decide) ⟨by decide, by decide, by decide, by decide⟩
    ⟨by decide, by decide⟩).2 rfl

end Stack

section ParentAndChild

/-- The class `parent` implements the method, and nothing below it on the way to `child`
does. Each of the two has a hook that is implemented nowhere else. -/
structure ParentHook (F : Forest Cls) (T : MethodTables Cls Sel Imp) (body : Imp → List Sel)
    (parent child : Cls) (fromSelector toParent toChild : Sel) (hookParent hookChild original : Imp) :
    Prop where
  descends : parent ∈ F.chain child
  strict : child ≠ parent
  original : ownImp T parent fromSelector = some (some original)
  below : ∀ d ∈ F.chain child, d ∉ F.chain parent → ownImp T d fromSelector = none
  parentHook : ownImp T parent toParent = some (some hookParent)
  parentOnly : ∀ d, d ≠ parent → ownImp T d toParent = none
  parentBody : body hookParent = [toParent]
  parentDistinct : toParent ≠ fromSelector
  childHook : ownImp T child toChild = some (some hookChild)
  childOnly : ∀ d, d ≠ child → ownImp T d toChild = none
  childBody : body hookChild = [toChild]

variable {F : Forest Cls} {T : MethodTables Cls Sel Imp} {body : Imp → List Sel} {parent child : Cls}
  {fromSelector toParent toChild : Sel} {hookParent hookChild original : Imp}

namespace ParentHook

omit [DecidableEq Cls] [DecidableEq Sel] in
theorem child_not_above (h : ParentHook F T body parent child fromSelector toParent toChild hookParent
    hookChild original) : child ∉ F.chain parent :=
  fun hAbove => h.strict (F.mem_chain_antisymm hAbove h.descends).symm

omit [DecidableEq Cls] [DecidableEq Sel] in
theorem childDistinct (h : ParentHook F T body parent child fromSelector toParent toChild hookParent
    hookChild original) : toChild ≠ fromSelector ∧ toChild ≠ toParent := by
  have hChild := h.childHook
  constructor
  · rintro rfl
    rw [h.below child (F.mem_chain_self child) h.child_not_above] at hChild
    cases hChild
  · rintro rfl
    rw [h.parentOnly child h.strict] at hChild
    cases hChild

omit [DecidableEq Cls] [DecidableEq Sel] in
theorem dispatch_child (h : ParentHook F T body parent child fromSelector toParent toChild hookParent
    hookChild original) {T' : MethodTables Cls Sel Imp} {sel : Sel} {imp : Imp}
    (hSame : ∀ d, d ≠ parent → d ∈ F.chain child → d ∉ F.chain parent → ownImp T' d sel = none)
    (hOwn : ownImp T' parent sel = some (some imp)) : dispatch F T' child sel = some (some imp) := by
  rw [dispatch_of_below F h.descends, dispatch_of_own F hOwn]
  intro d hd hNotAbove
  refine hSame d ?_ hd hNotAbove
  rintro rfl
  exact hNotAbove (F.mem_chain_self d)

/-- The add branch copies the hook of the parent, so the child reaches it. -/
theorem parent_first (h : ParentHook F T body parent child fromSelector toParent toChild hookParent
    hookChild original) (trace : List Imp) :
    Sends F (hookClass F (hookClass F T parent fromSelector toParent) child fromSelector toChild) body child
        fromSelector trace ↔
      ∃ runs, SendsAll F (hookClass F (hookClass F T parent fromSelector toParent) child fromSelector toChild)
        body child (body original) runs ∧ trace = hookChild :: hookParent :: original :: runs := by
  obtain ⟨hChildFrom, hChildParent⟩ := h.childDistinct
  have hFirst := ownImp_hookClass (dispatch_of_own F h.original) h.parentHook
  have hOutside : ∀ d sel, d ≠ parent →
      ownImp (hookClass F T parent fromSelector toParent) d sel = ownImp T d sel := by
    intro d sel hd
    rw [hFirst, if_neg fun h => hd h.1, if_neg fun h => hd h.1]
  have hRuns : dispatch F (hookClass F T parent fromSelector toParent) child fromSelector =
      some (some hookParent) := by
    refine h.dispatch_child (fun d hd hChain hBelow => ?_) ?_
    · rw [hOutside d _ hd, h.below d hChain hBelow]
    · rw [hFirst, if_neg fun hSame => h.parentDistinct hSame.2.symm, if_pos ⟨rfl, rfl⟩]
  have hSecond := ownImp_hookClass hRuns ((hOutside child toChild h.strict).trans h.childHook)
  have hFrom := dispatch_of_own F ((hSecond child fromSelector).trans
    ((if_neg fun hSame => hChildFrom hSame.2.symm).trans (if_pos ⟨rfl, rfl⟩)))
  have hTo := dispatch_of_own F ((hSecond child toChild).trans (if_pos ⟨rfl, rfl⟩))
  have hLast : dispatch F (hookClass F (hookClass F T parent fromSelector toParent) child fromSelector toChild)
      child toParent = some (some original) := by
    refine h.dispatch_child (fun d hd _ _ => ?_) ?_
    · rw [hSecond, if_neg fun hSame => hChildParent hSame.2.symm,
        if_neg fun hSame => h.parentDistinct hSame.2, hOutside d _ hd, h.parentOnly d hd]
    · rw [hSecond, if_neg fun hSame => hChildParent hSame.2.symm,
        if_neg fun hSame => h.parentDistinct hSame.2, hFirst, if_pos ⟨rfl, rfl⟩]
  rw [sends_iff_of_body hFrom h.childBody]
  simp only [sends_iff_of_body hTo h.parentBody, sends_iff hLast]
  constructor
  · rintro ⟨_, ⟨_, ⟨runs, hRuns, rfl⟩, rfl⟩, rfl⟩
    exact ⟨runs, hRuns, rfl⟩
  · rintro ⟨runs, hRuns, rfl⟩
    exact ⟨_, ⟨_, ⟨runs, hRuns, rfl⟩, rfl⟩, rfl⟩

/-- The add branch copies the original, and the later hook of the parent does not touch
the copy. -/
theorem child_first (h : ParentHook F T body parent child fromSelector toParent toChild hookParent
    hookChild original) (trace : List Imp) :
    Sends F (hookClass F (hookClass F T child fromSelector toChild) parent fromSelector toParent) body child
        fromSelector trace ↔
      ∃ runs, SendsAll F (hookClass F (hookClass F T child fromSelector toChild) parent fromSelector toParent)
        body child (body original) runs ∧ trace = hookChild :: original :: runs := by
  obtain ⟨hChildFrom, _⟩ := h.childDistinct
  have hRuns : dispatch F T child fromSelector = some (some original) :=
    h.dispatch_child (fun d _ hChain hBelow => h.below d hChain hBelow) h.original
  have hFirst := ownImp_hookClass hRuns h.childHook
  have hParent : ∀ sel, ownImp (hookClass F T child fromSelector toChild) parent sel = ownImp T parent sel := by
    intro sel
    rw [hFirst, if_neg fun hSame => h.strict hSame.1.symm, if_neg fun hSame => h.strict hSame.1.symm]
  have hSecond := ownImp_hookClass (dispatch_of_own F ((hParent fromSelector).trans h.original))
    ((hParent toParent).trans h.parentHook)
  have hChild : ∀ sel, ownImp (hookClass F (hookClass F T child fromSelector toChild) parent fromSelector
      toParent) child sel = ownImp (hookClass F T child fromSelector toChild) child sel := by
    intro sel
    rw [hSecond, if_neg fun hSame => h.strict hSame.1, if_neg fun hSame => h.strict hSame.1]
  have hFrom := dispatch_of_own F ((hChild fromSelector).trans ((hFirst child fromSelector).trans
    ((if_neg fun hSame => hChildFrom hSame.2.symm).trans (if_pos ⟨rfl, rfl⟩))))
  have hTo := dispatch_of_own F ((hChild toChild).trans ((hFirst child toChild).trans (if_pos ⟨rfl, rfl⟩)))
  rw [sends_iff_of_body hFrom h.childBody]
  simp only [sends_iff hTo]
  constructor
  · rintro ⟨_, ⟨runs, hRuns, rfl⟩, rfl⟩
    exact ⟨runs, hRuns, rfl⟩
  · rintro ⟨runs, hRuns, rfl⟩
    exact ⟨_, ⟨runs, hRuns, rfl⟩, rfl⟩

end ParentHook

/-- The hook of the parent is seen through the child exactly if it was there first. -/
theorem hook_order_decides (F : Forest Cls) (T : MethodTables Cls Sel Imp) (body : Imp → List Sel)
    (parent child : Cls) (fromSelector toParent toChild : Sel) (hookParent hookChild original : Imp)
    (h : ParentHook F T body parent child fromSelector toParent toChild hookParent hookChild original)
    (trace : List Imp) :
    (Sends F (hookClass F (hookClass F T parent fromSelector toParent) child fromSelector toChild) body child
        fromSelector trace ↔
      ∃ runs, SendsAll F (hookClass F (hookClass F T parent fromSelector toParent) child fromSelector toChild)
        body child (body original) runs ∧ trace = hookChild :: hookParent :: original :: runs) ∧
    (Sends F (hookClass F (hookClass F T child fromSelector toChild) parent fromSelector toParent) body child
        fromSelector trace ↔
      ∃ runs, SendsAll F (hookClass F (hookClass F T child fromSelector toChild) parent fromSelector toParent)
        body child (body original) runs ∧ trace = hookChild :: original :: runs) :=
  ⟨h.parent_first trace, h.child_first trace⟩

/-- The parent implements the method 0 and its hook 1, the child implements its hook 2. -/
def inheritedTables : MethodTables Bool Nat Nat := fun cls sel =>
  match cls, sel with
  | false, 0 => some ⟨some 10, "v20@0:8B16"⟩
  | false, 1 => some ⟨some 11, "v20@0:8B16"⟩
  | true, 2 => some ⟨some 12, "v20@0:8B16"⟩
  | _, _ => none

theorem parentHook_inherited :
    ParentHook parentAndChild inheritedTables loggerBodies false true 0 1 2 11 12 10 where
  descends := by decide
  strict := by decide
  original := by decide
  below := by decide
  parentHook := by decide
  parentOnly := by decide
  parentBody := by decide
  parentDistinct := by decide
  childHook := by decide
  childOnly := by decide
  childBody := by decide

/-- With the child hooked first, the hook of the parent is never run. -/
theorem child_first_skips_parent :
    ¬ ∀ (F : Forest Bool) (T : MethodTables Bool Nat Nat) (body : Nat → List Nat) (parent child : Bool)
      (fromSelector toParent toChild hookParent hookChild original : Nat),
      ParentHook F T body parent child fromSelector toParent toChild hookParent hookChild original →
      body original = [] →
      Sends F (hookClass F (hookClass F T parent fromSelector toParent) child fromSelector toChild) body child
        fromSelector [hookChild, hookParent, original] ∧
      Sends F (hookClass F (hookClass F T child fromSelector toChild) parent fromSelector toParent) body child
        fromSelector [hookChild, hookParent, original] := by
  intro hClaim
  obtain ⟨_, hSecond⟩ := hClaim parentAndChild inheritedTables loggerBodies false true 0 1 2 11 12 10
    parentHook_inherited rfl
  obtain ⟨runs, _, hTrace⟩ := (parentHook_inherited.child_first _).mp hSecond
  cases hTrace

theorem hook_order_decides_inherited :
    Sends parentAndChild (hookClass parentAndChild (hookClass parentAndChild inheritedTables false 0 1) true 0 2)
      loggerBodies true 0 [12, 11, 10] ∧
    Sends parentAndChild (hookClass parentAndChild (hookClass parentAndChild inheritedTables true 0 2) false 0 1)
      loggerBodies true 0 [12, 10] := by
  have hOrders := hook_order_decides parentAndChild inheritedTables loggerBodies false true 0 1 2 11 12 10
    parentHook_inherited
  exact ⟨(hOrders _).1.mpr ⟨[], (sendsAll_nil _).mpr rfl, rfl⟩,
    (hOrders _).2.mpr ⟨[], (sendsAll_nil _).mpr rfl, rfl⟩⟩

end ParentAndChild

end OCNote.Hook
