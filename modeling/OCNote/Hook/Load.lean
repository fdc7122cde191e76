import OCNote.Dispatch.OnceSafety
import OCNote.Hook.Composition

/-! # Hooks that +load installs

The categories install their hooks in `+load`, behind a `dispatch_once` token. However often and
from however many threads `+load` is called, every message then runs the hook once and after it
the original implementation. -/

namespace OCNote.Hook
open OCNote.Support Dispatch.Once
set_option autoImplicit false

universe u v

/-- The selectors in `+[UIViewController(logger) load]`. -/
def UIViewController.loadRequests : List (String × String) :=
  [("viewWillAppear:", "hook_viewWillAppear:"), ("viewWillDisappear:", "hook_viewWillDisappear:")]

/-- The selectors in `+[UIControl(logger) load]`. -/
def UIControl.loadRequests : List (String × String) :=
  [("sendAction:to:forEvent:", "hook_sendAction:to:forEvent:")]

section Sends

variable {Cls Sel Imp : Type u} {F : Forest Cls} {T : MethodTables Cls Sel Imp} {body : Imp → List Sel} {cls : Cls}

theorem sendAll_cons (send : Sel → Option (List Imp)) (sel : Sel) (sels : List Sel) :
    sendAll send (sel :: sels) = (send sel).bind fun first => (sendAll send sels).map (first ++ ·) := by
  unfold sendAll
  rw [List.mapM_cons]
  cases send sel with
  | none => rfl
  | some first => cases sels.mapM send <;> rfl

theorem sendAll_mono {send send' : Sel → Option (List Imp)} (h : ∀ sel trace, send sel = some trace → send' sel = some trace)
    (sels : List Sel) : ∀ trace, sendAll send sels = some trace → sendAll send' sels = some trace := by
  induction sels with
  | nil => exact fun _ => id
  | cons sel sels ih =>
    intro trace hAll
    rw [sendAll_cons] at hAll ⊢
    obtain ⟨first, hFirst, hAll⟩ := Option.bind_eq_some_iff.mp hAll
    obtain ⟨rest, hRest, rfl⟩ := Option.map_eq_some_iff.mp hAll
    rw [h sel first hFirst, ih rest hRest]
    rfl

/-- A message that has ended within a bound ends in the same way within a larger one. -/
theorem send_mono {fuel more : Nat} (h : fuel ≤ more) :
    ∀ sel trace, send F T body cls fuel sel = some trace → send F T body cls more sel = some trace := by
  induction fuel generalizing more with
  | zero =>
    intro sel trace hSend
    cases hSend
  | succ fuel ih =>
    obtain ⟨more, rfl⟩ := Nat.exists_eq_add_of_le' h
    intro sel trace hSend
    rw [Nat.add_succ, send] at *
    cases hDispatch : dispatch F T cls sel with
    | none =>
      rw [hDispatch] at hSend
      cases hSend
    | some imp =>
      rw [hDispatch] at hSend
      cases imp with
      | none => cases hSend
      | some imp =>
        obtain ⟨runs, hRuns, rfl⟩ := Option.map_eq_some_iff.mp hSend
        have hMore := sendAll_mono (ih (Nat.le_add_left fuel more)) (body imp) runs hRuns
        exact Option.map_eq_some_iff.mpr ⟨runs, hMore, rfl⟩

theorem sendsAll_cons (sel : Sel) (sels : List Sel) (trace : List Imp) :
    SendsAll F T body cls (sel :: sels) trace ↔
      ∃ first rest, Sends F T body cls sel first ∧ SendsAll F T body cls sels rest ∧ trace = first ++ rest := by
  constructor
  · rintro ⟨fuel, hAll⟩
    rw [sendAll_cons] at hAll
    obtain ⟨first, hFirst, hAll⟩ := Option.bind_eq_some_iff.mp hAll
    obtain ⟨rest, hRest, rfl⟩ := Option.map_eq_some_iff.mp hAll
    exact ⟨first, rest, ⟨fuel, hFirst⟩, ⟨fuel, hRest⟩, rfl⟩
  · rintro ⟨first, rest, ⟨fuel, hFirst⟩, ⟨fuel', hRest⟩, rfl⟩
    refine ⟨max fuel fuel', ?_⟩
    rw [sendAll_cons, send_mono (Nat.le_max_left fuel fuel') sel first hFirst,
      sendAll_mono (send_mono (Nat.le_max_right fuel fuel')) sels rest hRest]
    rfl

theorem sendsAll_append (before sels : List Sel) (trace : List Imp) :
    SendsAll F T body cls (before ++ sels) trace ↔
      ∃ first rest, SendsAll F T body cls before first ∧ SendsAll F T body cls sels rest ∧ trace = first ++ rest := by
  induction before generalizing trace with
  | nil =>
    constructor
    · intro hAll
      exact ⟨[], trace, (sendsAll_nil []).mpr rfl, hAll, rfl⟩
    · rintro ⟨first, rest, hFirst, hAll, rfl⟩
      obtain rfl := (sendsAll_nil first).mp hFirst
      exact hAll
  | cons sel before ih =>
    rw [List.cons_append, sendsAll_cons]
    constructor
    · rintro ⟨first, _, hFirst, hRest, rfl⟩
      obtain ⟨middle, rest, hMiddle, hSels, rfl⟩ := (ih _).mp hRest
      exact ⟨first ++ middle, rest, (sendsAll_cons ..).mpr ⟨first, middle, hFirst, hMiddle, rfl⟩, hSels,
        (List.append_assoc ..).symm⟩
    · rintro ⟨_, rest, hBefore, hRest, rfl⟩
      obtain ⟨first, middle, hFirst, hMiddle, rfl⟩ := (sendsAll_cons ..).mp hBefore
      exact ⟨first, middle ++ rest, hFirst, (ih _).mpr ⟨middle, rest, hMiddle, hRest, rfl⟩, List.append_assoc ..⟩

end Sends

variable {Cls Sel Imp : Type u} [DecidableEq Cls] [DecidableEq Sel] {F : Forest Cls} {T T' : MethodTables Cls Sel Imp}
  {body : Imp → List Sel} {cls : Cls} {requests : List (Sel × Sel)}

/-- The selectors of several requests, none of which occurs twice. -/
def Apart (requests : List (Sel × Sel)) : Prop := (requests.flatMap fun request => [request.1, request.2]).Nodup

example : Apart UIViewController.loadRequests := by
  unfold Apart
  decide

/-- What a category brings along: each hooked method exists, and its hook is in the class itself. -/
def Implemented (F : Forest Cls) (T : MethodTables Cls Sel Imp) (cls : Cls) (requests : List (Sel × Sel)) : Prop :=
  ∀ request ∈ requests, Resolves F T cls request.1 ∧ ∃ hook, ownImp T cls request.2 = some (some hook)

/-- Between `T` and `T'` the two implementations of each request are swapped, and nothing else. -/
structure Installed (F : Forest Cls) (T T' : MethodTables Cls Sel Imp) (cls : Cls) (requests : List (Sel × Sel)) : Prop where
  from_eq : ∀ request ∈ requests, dispatch F T' cls request.1 = dispatch F T cls request.2
  to_eq : ∀ request ∈ requests, dispatch F T' cls request.2 = dispatch F T cls request.1
  other : ∀ d sel, (∀ request ∈ requests, sel ≠ request.1 ∧ sel ≠ request.2) → ownImp T' d sel = ownImp T d sel

omit [DecidableEq Cls] [DecidableEq Sel] in
theorem Apart.cons {request : Sel × Sel} (h : Apart (request :: requests)) :
    request.1 ≠ request.2 ∧ Apart requests ∧
      ∀ other ∈ requests, ∀ sel, sel = other.1 ∨ sel = other.2 → sel ≠ request.1 ∧ sel ≠ request.2 := by
  unfold Apart at h
  rw [List.flatMap_cons] at h
  obtain ⟨hPair, hRest, hApart⟩ := List.nodup_append.mp h
  refine ⟨fun hSame => ?_, hRest, fun other hOther sel hSel => ?_⟩
  · rw [hSame] at hPair
    simp at hPair
  · have hMem : sel ∈ requests.flatMap fun request => [request.1, request.2] := by
      refine List.mem_flatMap.mpr ⟨other, hOther, ?_⟩
      simpa using hSel
    exact ⟨(hApart _ List.mem_cons_self sel hMem).symm,
      (hApart _ (List.mem_cons_of_mem _ List.mem_cons_self) sel hMem).symm⟩

theorem installed_hookAll (hApart : Apart requests) (hImplemented : Implemented F T cls requests) :
    Installed F T (hookAll F T cls requests) cls requests := by
  induction requests generalizing T with
  | nil => exact ⟨fun _ h => absurd h List.not_mem_nil, fun _ h => absurd h List.not_mem_nil, fun _ _ _ => rfl⟩
  | cons request requests ih =>
    obtain ⟨hNe, hApart, hOthers⟩ := hApart.cons
    obtain ⟨⟨f, hFrom⟩, hook, hTo⟩ := hImplemented request List.mem_cons_self
    have hOwn := ownImp_hookClass hFrom hTo
    have hKept : ∀ other ∈ requests, ∀ sel, sel = other.1 ∨ sel = other.2 → ∀ d,
        ownImp (hookClass F T cls request.1 request.2) d sel = ownImp T d sel :=
      fun other hOther sel hSel d => ownImp_hookClass_of_ne d (hOthers other hOther sel hSel).1 (hOthers other hOther sel hSel).2
    have hSame : ∀ other ∈ requests, ∀ sel, sel = other.1 ∨ sel = other.2 →
        dispatch F (hookClass F T cls request.1 request.2) cls sel = dispatch F T cls sel :=
      fun other hOther sel hSel => dispatch_congr F fun d _ => hKept other hOther sel hSel d
    have hRest : Installed F (hookClass F T cls request.1 request.2) (hookAll F T cls (request :: requests)) cls requests := by
      refine ih hApart fun other hOther => ?_
      obtain ⟨⟨g, hg⟩, hook', hOther'⟩ := hImplemented other (List.mem_cons_of_mem _ hOther)
      exact ⟨⟨g, by rw [hSame other hOther _ (.inl rfl), hg]⟩, hook', by rw [hKept other hOther _ (.inr rfl), hOther']⟩
    have hDone : ∀ sel, sel = request.1 ∨ sel = request.2 →
        dispatch F (hookAll F T cls (request :: requests)) cls sel =
          dispatch F (hookClass F T cls request.1 request.2) cls sel := by
      intro sel hSel
      refine dispatch_congr F fun d _ => hRest.other d sel fun other hOther => ⟨?_, ?_⟩
      · rintro rfl
        obtain ⟨hNotFrom, hNotTo⟩ := hOthers other hOther other.1 (.inl rfl)
        exact hSel.elim hNotFrom hNotTo
      · rintro rfl
        obtain ⟨hNotFrom, hNotTo⟩ := hOthers other hOther other.2 (.inr rfl)
        exact hSel.elim hNotFrom hNotTo
    refine ⟨fun other hOther => ?_, fun other hOther => ?_, fun d sel hOutside => ?_⟩
    · obtain rfl | hOther := List.mem_cons.mp hOther
      · rw [hDone _ (.inl rfl), dispatch_of_own F hTo]
        apply dispatch_of_own
        rw [hOwn, if_neg fun h => hNe h.2, if_pos ⟨rfl, rfl⟩]
      · rw [hRest.from_eq other hOther, hSame other hOther _ (.inr rfl)]
    · obtain rfl | hOther := List.mem_cons.mp hOther
      · rw [hDone _ (.inr rfl), hFrom]
        apply dispatch_of_own
        rw [hOwn, if_pos ⟨rfl, rfl⟩]
      · rw [hRest.to_eq other hOther, hSame other hOther _ (.inl rfl)]
    · rw [hRest.other d sel fun other hOther => hOutside other (List.mem_cons_of_mem _ hOther)]
      obtain ⟨hNotFrom, hNotTo⟩ := hOutside request List.mem_cons_self
      exact ownImp_hookClass_of_ne d hNotFrom hNotTo

omit [DecidableEq Cls] [DecidableEq Sel] in
/-- A message then runs the hook, what the hook sends first, and the original implementation. -/
theorem Installed.sends_iff (h : Installed F T T' cls requests) {request : Sel × Sel} (hRequest : request ∈ requests)
    {hook original : Imp} {before : List Sel} (hHook : dispatch F T cls request.2 = some (some hook))
    (hOriginal : dispatch F T cls request.1 = some (some original)) (hBody : body hook = before ++ [request.2])
    (trace : List Imp) :
    Sends F T' body cls request.1 trace ↔ ∃ first rest, SendsAll F T' body cls before first ∧
      SendsAll F T' body cls (body original) rest ∧ trace = hook :: (first ++ original :: rest) := by
  have hTo : ∀ runs, Sends F T' body cls request.2 runs ↔
      ∃ rest, SendsAll F T' body cls (body original) rest ∧ runs = original :: rest :=
    Hook.sends_iff ((h.to_eq request hRequest).trans hOriginal)
  rw [Hook.sends_iff ((h.from_eq request hRequest).trans hHook), hBody]
  constructor
  · rintro ⟨_, hRuns, rfl⟩
    obtain ⟨first, last, hFirst, hLast, rfl⟩ := (sendsAll_append ..).mp hRuns
    obtain ⟨rest, hRest, rfl⟩ := (hTo last).mp ((sendsAll_singleton ..).mp hLast)
    exact ⟨first, rest, hFirst, hRest, rfl⟩
  · rintro ⟨first, rest, hFirst, hRest, rfl⟩
    refine ⟨_, (sendsAll_append ..).mpr ⟨first, original :: rest, hFirst, (sendsAll_singleton ..).mpr ?_, rfl⟩, rfl⟩
    exact (hTo _).mpr ⟨rest, hRest, rfl⟩

/-- `+load`, called by threads of which the build and the system tell the rest. -/
def loading {ι : Type v} (quiescent : Bool) (tid : ι → BitVec 32) (F : Forest Cls) (cls : Cls)
    (requests : List (Sel × Sel)) : Setting ι (MethodTables Cls Sel Imp) where
  quiescent := quiescent
  tid := tid
  block T := hookAll F T cls requests

/-- Once some call of `+load` has returned the hooks are installed, and no other call, whenever
it is made, takes them back. -/
theorem load_installs_once {ι : Type v} [DecidableEq ι] {quiescent : Bool} {tid : ι → BitVec 32}
    {s : State ι (MethodTables Cls Sel Imp)} {i : ι} (hTids : Dispatch.Tids tid) (hApart : Apart requests)
    (hImplemented : Implemented F T cls requests)
    (hReachable : (once (loading quiescent tid F cls requests) T).Reachable s) (hReturned : s.point i = .returned)
    (hAlive : s.crashed = none) {request : Sel × Sel} (hRequest : request ∈ requests)
    {hook original : Imp} {before : List Sel} (hHook : dispatch F T cls request.2 = some (some hook))
    (hOriginal : dispatch F T cls request.1 = some (some original)) (hBody : body hook = before ++ [request.2])
    (trace : List Imp) :
    Sends F s.shared body cls request.1 trace ↔ ∃ first rest, SendsAll F s.shared body cls before first ∧
      SendsAll F s.shared body cls (body original) rest ∧ trace = hook :: (first ++ original :: rest) := by
  have hShared : s.shared = hookAll F T cls requests := by
    obtain ⟨_, hFits⟩ | ⟨hCrashed, _⟩ := safe_of_reachable (E := loading quiescent tid F cls requests) hTids hReachable
    · exact (hFits.done_of_returned hReturned).shared
    · rw [hAlive] at hCrashed
      cases hCrashed
  rw [hShared]
  exact (installed_hookAll hApart hImplemented).sends_iff hRequest hHook hOriginal hBody trace

/-- `UIViewController` with the category, whose hooks log and then send themselves. -/
def withLogger : MethodTables Bool String String := fun _ sel =>
  if sel = "viewWillAppear:" ∨ sel = "viewWillDisappear:" ∨ sel = "hook_viewWillAppear:" ∨
    sel = "hook_viewWillDisappear:" ∨ sel = "insertToViewWillAppear" then some ⟨some sel, "v20@0:8B16"⟩ else none

def loggerBody (imp : String) : List String :=
  if imp = "hook_viewWillAppear:" then ["insertToViewWillAppear", "hook_viewWillAppear:"] else []

/-- Two threads call `+load`. -/
def twoLoads : Setting Bool (MethodTables Bool String String) :=
  loading true Dispatch.Once.countRuns.tid parentAndChild true UIViewController.loadRequests

theorem load_installs_once_two_loads : ∃ s, (once twoLoads withLogger).run sleepsMeanwhile = some s ∧
    (Sends parentAndChild s.shared loggerBody true "viewWillAppear:"
      ["hook_viewWillAppear:", "insertToViewWillAppear", "viewWillAppear:"] ↔
      ∃ first rest, SendsAll parentAndChild s.shared loggerBody true ["insertToViewWillAppear"] first ∧
        SendsAll parentAndChild s.shared loggerBody true [] rest ∧
        ["hook_viewWillAppear:", "insertToViewWillAppear", "viewWillAppear:"] =
          "hook_viewWillAppear:" :: (first ++ "viewWillAppear:" :: rest)) := by
  obtain ⟨s, hRun⟩ := Option.isSome_iff_exists.mp
    (show ((once twoLoads withLogger).run sleepsMeanwhile).isSome = true by decide +kernel)
  have hAlive := Machine.read_of_run hRun (f := fun s => s.crashed) (x := none) (by decide +kernel)
  have hReturned := Machine.read_of_run hRun (f := fun s => s.point true) (x := .returned) (by decide +kernel)
  have hImplemented : Implemented parentAndChild withLogger true UIViewController.loadRequests := by
    intro request hRequest
    obtain rfl | rfl : request = _ ∨ request = _ := by
      simpa [UIViewController.loadRequests] using hRequest
    · exact ⟨⟨"viewWillAppear:", by decide +kernel⟩, "hook_viewWillAppear:", by decide +kernel⟩
    · exact ⟨⟨"viewWillDisappear:", by decide +kernel⟩, "hook_viewWillDisappear:", by decide +kernel⟩
  have hApart : Apart UIViewController.loadRequests := by
    unfold Apart
    decide
  have hRequest : ("viewWillAppear:", "hook_viewWillAppear:") ∈ UIViewController.loadRequests := by decide
  have hHook : dispatch parentAndChild withLogger true "hook_viewWillAppear:" = some (some "hook_viewWillAppear:") := by
    decide +kernel
  have hOriginal : dispatch parentAndChild withLogger true "viewWillAppear:" = some (some "viewWillAppear:") := by
    decide +kernel
  have hBody : loggerBody "hook_viewWillAppear:" = ["insertToViewWillAppear"] ++ ["hook_viewWillAppear:"] := by
    decide +kernel
  exact ⟨s, hRun, load_installs_once countRuns_tids hApart hImplemented ⟨_, hRun⟩ hReturned hAlive hRequest hHook
    hOriginal hBody _⟩

end OCNote.Hook
