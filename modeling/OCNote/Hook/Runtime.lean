import Mathlib.Logic.Function.Basic
import OCNote.Support.Forest

/-! # Method tables of the Objective-C runtime

The class tree is fixed; the method tables are the state. A `Method` is a reference to
a record in the table of the class that owns it, so an implementation read through it
is the current one. -/

namespace OCNote.Hook
open OCNote.Support
set_option autoImplicit false

universe u

/-- A record of a method list; a nil implementation can be stored. -/
structure MethodRecord (Imp : Type u) where
  imp : Option Imp
  types : String
  deriving DecidableEq, Repr

structure Method (Cls Sel : Type u) where
  owner : Cls
  name : Sel
  deriving DecidableEq, Repr

abbrev MethodTables (Cls Sel Imp : Type u) := Cls → Sel → Option (MethodRecord Imp)

section Lookup

variable {Cls Sel Imp : Type u}

def method_getImplementation (T : MethodTables Cls Sel Imp) (m : Option (Method Cls Sel)) :
    Option Imp :=
  m.bind fun m => (T m.owner m.name).bind MethodRecord.imp

def method_getTypeEncoding (T : MethodTables Cls Sel Imp) (m : Option (Method Cls Sel)) :
    Option String :=
  m.bind fun m => (T m.owner m.name).map MethodRecord.types

def class_getInstanceMethod (F : Forest Cls) (T : MethodTables Cls Sel Imp) (cls : Cls) (sel : Sel) :
    Option (Method Cls Sel) :=
  F.nearest (fun d => (T d sel).map fun _ => ⟨d, sel⟩) cls

/-- What an instance of `cls` runs for `sel`; `some none` is a nil implementation. -/
def dispatch (F : Forest Cls) (T : MethodTables Cls Sel Imp) (cls : Cls) (sel : Sel) :
    Option (Option Imp) :=
  F.nearest (fun d => (T d sel).map MethodRecord.imp) cls

def ownImp (T : MethodTables Cls Sel Imp) (d : Cls) (sel : Sel) : Option (Option Imp) :=
  (T d sel).map MethodRecord.imp

theorem dispatch_congr (F : Forest Cls) {T T' : MethodTables Cls Sel Imp} {cls : Cls} {sel : Sel}
    (h : ∀ d ∈ F.chain cls, ownImp T' d sel = ownImp T d sel) :
    dispatch F T' cls sel = dispatch F T cls sel := F.nearest_congr h

theorem dispatch_of_own (F : Forest Cls) {T : MethodTables Cls Sel Imp} {cls : Cls} {sel : Sel}
    {imp : Option Imp} (h : ownImp T cls sel = some imp) : dispatch F T cls sel = some imp :=
  F.nearest_of_some h

/-- A selector that resolves is found in one class of the chain, which stores what is run. -/
theorem exists_owner (F : Forest Cls) {T : MethodTables Cls Sel Imp} {cls : Cls} {sel : Sel}
    {imp : Option Imp} (h : dispatch F T cls sel = some imp) :
    ∃ d ∈ F.chain cls, ownImp T d sel = some imp ∧
      class_getInstanceMethod F T cls sel = some ⟨d, sel⟩ := by
  obtain ⟨d, hd, hOwn, hAll⟩ := F.nearest_eq_some h
  refine ⟨d, hd, hOwn, ?_⟩
  rw [class_getInstanceMethod, hAll _ fun e => by simp]
  cases hT : T d sel with
  | none => simp [hT] at hOwn
  | some record => rfl

theorem owner_of_own (F : Forest Cls) {T : MethodTables Cls Sel Imp} {cls : Cls} {sel : Sel}
    (h : (ownImp T cls sel).isSome) :
    class_getInstanceMethod F T cls sel = some ⟨cls, sel⟩ := by
  cases hT : T cls sel with
  | none => simp [ownImp, hT] at h
  | some record => exact F.nearest_of_some (by rw [hT]; rfl)

theorem dispatch_of_below (F : Forest Cls) {T : MethodTables Cls Sel Imp} {cls d : Cls} {sel : Sel}
    (hd : d ∈ F.chain cls) (hBelow : ∀ e ∈ F.chain cls, e ∉ F.chain d → ownImp T e sel = none) :
    dispatch F T cls sel = dispatch F T d sel := F.nearest_of_below hd hBelow

theorem name_of_getInstanceMethod (F : Forest Cls) {T : MethodTables Cls Sel Imp} {cls : Cls} {sel : Sel}
    {m : Method Cls Sel} (h : class_getInstanceMethod F T cls sel = some m) : m.name = sel := by
  obtain ⟨d, _, hd⟩ := List.exists_of_findSome?_eq_some h
  obtain ⟨_, _, rfl⟩ := Option.map_eq_some_iff.mp hd
  rfl

theorem getInstanceMethod_eq_none (F : Forest Cls) {T : MethodTables Cls Sel Imp} {cls : Cls} {sel : Sel}
    (h : dispatch F T cls sel = none) : class_getInstanceMethod F T cls sel = none := by
  refine List.findSome?_eq_none_iff.mpr fun d hd => ?_
  have hNone := List.findSome?_eq_none_iff.mp h d hd
  rw [Option.map_eq_none_iff] at hNone ⊢
  exact hNone

theorem getImplementation_eq (T : MethodTables Cls Sel Imp) (d : Cls) (sel : Sel) :
    method_getImplementation T (some ⟨d, sel⟩) = (ownImp T d sel).join := by
  simp only [method_getImplementation, ownImp, Option.bind_some]
  cases T d sel <;> rfl

end Lookup

section Update

variable {Cls Sel Imp : Type u} [DecidableEq Cls] [DecidableEq Sel]

def store (T : MethodTables Cls Sel Imp) (cls : Cls) (name : Sel) (record : MethodRecord Imp) :
    MethodTables Cls Sel Imp :=
  Function.update T cls (Function.update (T cls) name (some record))

def setImp (T : MethodTables Cls Sel Imp) (m : Method Cls Sel) (imp : Option Imp) :
    MethodTables Cls Sel Imp :=
  match T m.owner m.name with
  | none => T
  | some record => store T m.owner m.name { record with imp := imp }

/-- Setting a nil implementation is ignored. The old implementation is returned. -/
def method_setImplementation (T : MethodTables Cls Sel Imp) (m : Method Cls Sel) (imp : Option Imp) :
    MethodTables Cls Sel Imp × Option Imp :=
  match imp with
  | none => (T, none)
  | some imp => (setImp T m (some imp), method_getImplementation T (some m))

def addMethod (T : MethodTables Cls Sel Imp) (cls : Cls) (name : Sel) (imp : Option Imp)
    (types : String) (replace : Bool) : MethodTables Cls Sel Imp × Option Imp :=
  match T cls name with
  | some record =>
    if replace then method_setImplementation T ⟨cls, name⟩ imp else (T, record.imp)
  | none => (store T cls name ⟨imp, types⟩, none)

/-- Whether a method was added is read off the implementation that `addMethod` returns. -/
def class_addMethod (T : MethodTables Cls Sel Imp) (cls : Cls) (name : Sel) (imp : Option Imp)
    (types : Option String) : MethodTables Cls Sel Imp × Bool :=
  let (T', result) := addMethod T cls name imp (types.getD "") false
  (T', result.isNone)

def class_replaceMethod (T : MethodTables Cls Sel Imp) (cls : Cls) (name : Sel) (imp : Option Imp)
    (types : Option String) : MethodTables Cls Sel Imp × Option Imp :=
  addMethod T cls name imp (types.getD "") true

def method_exchangeImplementations (T : MethodTables Cls Sel Imp) (m₁ m₂ : Option (Method Cls Sel)) :
    MethodTables Cls Sel Imp :=
  match m₁, m₂ with
  | some m₁, some m₂ =>
    let imp₁ := method_getImplementation T (some m₁)
    let imp₂ := method_getImplementation T (some m₂)
    setImp (setImp T m₁ imp₂) m₂ imp₁
  | _, _ => T

theorem store_apply (T : MethodTables Cls Sel Imp) (cls : Cls) (name : Sel) (record : MethodRecord Imp)
    (d : Cls) (sel : Sel) :
    store T cls name record d sel = if d = cls ∧ sel = name then some record else T d sel := by
  unfold store
  obtain rfl | hd := eq_or_ne d cls
  · obtain rfl | hs := eq_or_ne sel name
    · simp
    · simp [hs]
  · simp [hd]

theorem ownImp_store (T : MethodTables Cls Sel Imp) (cls : Cls) (name : Sel)
    (record : MethodRecord Imp) (d : Cls) (sel : Sel) :
    ownImp (store T cls name record) d sel =
      if d = cls ∧ sel = name then some record.imp else ownImp T d sel := by
  rw [ownImp, store_apply]
  split <;> rfl

theorem ownImp_setImp {T : MethodTables Cls Sel Imp} {m : Method Cls Sel}
    (h : (ownImp T m.owner m.name).isSome) (imp : Option Imp) (d : Cls) (sel : Sel) :
    ownImp (setImp T m imp) d sel =
      if d = m.owner ∧ sel = m.name then some imp else ownImp T d sel := by
  cases hm : T m.owner m.name with
  | none => simp [ownImp, hm] at h
  | some record =>
    simp only [setImp, hm]
    exact ownImp_store T m.owner m.name { record with imp := imp } d sel

theorem ownImp_setImp_of_ne {T : MethodTables Cls Sel Imp} {m : Method Cls Sel} (imp : Option Imp) (d : Cls)
    {sel : Sel} (h : sel ≠ m.name) : ownImp (setImp T m imp) d sel = ownImp T d sel := by
  unfold setImp
  split
  · rfl
  · rw [ownImp_store, if_neg fun hSame => h hSame.2]

theorem ownImp_addMethod_of_ne (T : MethodTables Cls Sel Imp) (cls : Cls) {name : Sel} (imp : Option Imp)
    (types : String) (replace : Bool) (d : Cls) {sel : Sel} (h : sel ≠ name) :
    ownImp (addMethod T cls name imp types replace).1 d sel = ownImp T d sel := by
  unfold addMethod
  split
  · split
    · cases imp with
      | none => rfl
      | some imp => exact ownImp_setImp_of_ne _ _ h
    · rfl
  · rw [ownImp_store, if_neg fun hSame => h hSame.2]

theorem isSome_setImp (T : MethodTables Cls Sel Imp) (m : Method Cls Sel) (imp : Option Imp) (d : Cls)
    (sel : Sel) : (ownImp (setImp T m imp) d sel).isSome = (ownImp T d sel).isSome := by
  unfold setImp
  split
  · rfl
  · rename_i record hm
    rw [ownImp_store]
    split
    · rename_i hSame
      rw [hSame.1, hSame.2, ownImp, hm]
      rfl
    · rfl

/-- No entry is ever removed, and the one asked for is there afterwards. -/
theorem isSome_addMethod (T : MethodTables Cls Sel Imp) (cls : Cls) (name : Sel) (imp : Option Imp)
    (types : String) (replace : Bool) {d : Cls} {sel : Sel}
    (h : (d = cls ∧ sel = name) ∨ (ownImp T d sel).isSome = true) :
    (ownImp (addMethod T cls name imp types replace).1 d sel).isSome = true := by
  cases hOwn : T cls name with
  | none =>
    simp only [addMethod, hOwn]
    rw [ownImp_store]
    split
    · rfl
    · obtain hSame | hSome := h
      · contradiction
      · exact hSome
  | some record =>
    have hSome : (ownImp T d sel).isSome = true := by
      obtain ⟨rfl, rfl⟩ | hSome := h
      · rw [ownImp, hOwn]
        rfl
      · exact hSome
    simp only [addMethod, hOwn]
    cases replace with
    | false => exact hSome
    | true =>
      cases imp with
      | none => exact hSome
      | some imp => exact (isSome_setImp T _ _ d sel).trans hSome

/-- An entry with a nil implementation counts as missing. -/
theorem class_addMethod_snd (T : MethodTables Cls Sel Imp) (cls : Cls) (name : Sel) (imp : Option Imp)
    (types : Option String) :
    (class_addMethod T cls name imp types).2 = true ↔ ∀ f, ownImp T cls name ≠ some (some f) := by
  cases hOwn : T cls name with
  | none => simp [class_addMethod, addMethod, ownImp, hOwn]
  | some record => cases hImp : record.imp <;> simp [class_addMethod, addMethod, ownImp, hOwn, hImp]

theorem ownImp_exchange_of_ne (T : MethodTables Cls Sel Imp) {m₁ m₂ : Option (Method Cls Sel)} (d : Cls)
    {sel : Sel} (h₁ : ∀ m, m₁ = some m → sel ≠ m.name) (h₂ : ∀ m, m₂ = some m → sel ≠ m.name) :
    ownImp (method_exchangeImplementations T m₁ m₂) d sel = ownImp T d sel := by
  unfold method_exchangeImplementations
  split
  · rw [ownImp_setImp_of_ne _ _ (h₂ _ rfl), ownImp_setImp_of_ne _ _ (h₁ _ rfl)]
  · rfl

theorem class_addMethod_of_none {T : MethodTables Cls Sel Imp} {cls : Cls} {name : Sel}
    (h : ownImp T cls name = none) (imp : Option Imp) (types : Option String) :
    class_addMethod T cls name imp types = (store T cls name ⟨imp, types.getD ""⟩, true) := by
  have hT : T cls name = none := by simpa [ownImp] using h
  simp [class_addMethod, addMethod, hT]

theorem ownImp_replaceMethod (T : MethodTables Cls Sel Imp) (cls : Cls) (name : Sel) (imp : Imp)
    (types : Option String) (d : Cls) (sel : Sel) :
    ownImp (class_replaceMethod T cls name (some imp) types).1 d sel =
      if d = cls ∧ sel = name then some (some imp) else ownImp T d sel := by
  cases hT : T cls name with
  | none =>
    simp only [class_replaceMethod, addMethod, hT]
    exact ownImp_store T cls name _ d sel
  | some record =>
    simp only [class_replaceMethod, addMethod, hT, if_true, method_setImplementation]
    exact ownImp_setImp (m := ⟨cls, name⟩) (by simp [ownImp, hT]) (some imp) d sel

theorem ownImp_exchange {T : MethodTables Cls Sel Imp} {m₁ m₂ : Method Cls Sel} {f t : Imp}
    (h₁ : ownImp T m₁.owner m₁.name = some (some f))
    (h₂ : ownImp T m₂.owner m₂.name = some (some t)) (d : Cls) (sel : Sel) :
    ownImp (method_exchangeImplementations T (some m₁) (some m₂)) d sel =
      if d = m₂.owner ∧ sel = m₂.name then some (some f)
      else if d = m₁.owner ∧ sel = m₁.name then some (some t) else ownImp T d sel := by
  have hImp₁ : method_getImplementation T (some m₁) = some f := by
    rw [getImplementation_eq, h₁]
    rfl
  have hImp₂ : method_getImplementation T (some m₂) = some t := by
    rw [getImplementation_eq, h₂]
    rfl
  have hStored := ownImp_setImp (T := T) (m := m₁) (by rw [h₁]; rfl) (some t)
  simp only [method_exchangeImplementations, hImp₁, hImp₂]
  rw [ownImp_setImp _ (some f), hStored]
  rw [hStored]
  split
  · rfl
  · rw [h₂]
    rfl

end Update

end OCNote.Hook
