import OCNote.Hook.Runtime

/-! # What a message runs

A method body is known by the selectors it sends to `self`, in order. Sending a message
runs the implementation that dispatch finds and then whatever that one sends. -/

namespace OCNote.Hook
open OCNote.Support
set_option autoImplicit false

universe u

variable {Cls Sel Imp : Type u} (F : Forest Cls) (T : MethodTables Cls Sel Imp) (body : Imp → List Sel)
  (cls : Cls)

/-- The implementations run by the messages that one implementation sends to `self`,
where `send` tells what one message runs. -/
def sendAll (send : Sel → Option (List Imp)) (sels : List Sel) : Option (List Imp) :=
  (sels.mapM send).map List.flatten

/-- The implementations run, in order, when an instance of `cls` is sent `sel`. There is
no result if one of the messages is not understood or the nesting exceeds the bound. -/
def send : Nat → Sel → Option (List Imp)
  | 0, _ => none
  | fuel + 1, sel =>
    match dispatch F T cls sel with
    | some (some imp) => (sendAll (send fuel) (body imp)).map (imp :: ·)
    | _ => none

/-- Sending `sel` terminates and runs `trace`. -/
def Sends (sel : Sel) (trace : List Imp) : Prop := ∃ fuel, send F T body cls fuel sel = some trace

def SendsAll (sels : List Sel) (trace : List Imp) : Prop :=
  ∃ fuel, sendAll (send F T body cls fuel) sels = some trace

variable {F T body cls}

theorem sends_iff {sel : Sel} {imp : Imp} (h : dispatch F T cls sel = some (some imp)) (trace : List Imp) :
    Sends F T body cls sel trace ↔ ∃ runs, SendsAll F T body cls (body imp) runs ∧ trace = imp :: runs := by
  constructor
  · rintro ⟨fuel, hSend⟩
    cases fuel with
    | zero => cases hSend
    | succ fuel =>
      simp only [send, h] at hSend
      obtain ⟨runs, hRuns, rfl⟩ := Option.map_eq_some_iff.mp hSend
      exact ⟨runs, ⟨fuel, hRuns⟩, rfl⟩
  · rintro ⟨runs, ⟨fuel, hRuns⟩, rfl⟩
    exact ⟨fuel + 1, by simp only [send, h, hRuns, Option.map_some]⟩

theorem sendsAll_nil (trace : List Imp) : SendsAll F T body cls [] trace ↔ trace = [] := by
  constructor
  · rintro ⟨fuel, hSend⟩
    exact (Option.some.inj hSend).symm
  · rintro rfl
    exact ⟨0, rfl⟩

theorem sendsAll_singleton (sel : Sel) (trace : List Imp) :
    SendsAll F T body cls [sel] trace ↔ Sends F T body cls sel trace := by
  have hOne : ∀ fuel, sendAll (send F T body cls fuel) [sel] = send F T body cls fuel sel := by
    intro fuel
    cases hSend : send F T body cls fuel sel <;> simp [sendAll, hSend]
  simp only [SendsAll, Sends, hOne]

/-- A body that sends the one selector `sel` runs itself and then what `sel` runs. -/
theorem sends_iff_of_body {sel sel' : Sel} {imp : Imp} (h : dispatch F T cls sel = some (some imp))
    (hBody : body imp = [sel']) (trace : List Imp) :
    Sends F T body cls sel trace ↔ ∃ runs, Sends F T body cls sel' runs ∧ trace = imp :: runs := by
  simp only [sends_iff h, hBody, sendsAll_singleton]

end OCNote.Hook
