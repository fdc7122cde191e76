import Mathlib.Data.List.Induction
import Mathlib.Data.List.Perm.Subperm
import OCNote.Hook.SMHook
import OCNote.Support.Preorder

/-! # Realized classes and how the runtime walks over them

A realized class is linked into its superclass, or into the list of root classes, through
first-subclass and next-sibling pointers. The walk over a class and its subclasses keeps no stack: it
goes back up along the superclass pointers. -/

namespace OCNote.Hook
open OCNote.Support
set_option autoImplicit false

universe u

variable {Cls : Type u} [DecidableEq Cls]

structure ClassTree (Cls : Type u) where
  realized : Cls → Bool
  _firstRealizedClass : Option Cls
  firstSubclass : Cls → Option Cls
  nextSiblingClass : Cls → Option Cls

def ClassTree.empty : ClassTree Cls := ⟨fun _ => false, none, fun _ => none, fun _ => none⟩

def addRootClass (t : ClassTree Cls) (cls : Cls) : ClassTree Cls :=
  { t with
    nextSiblingClass := Function.update t.nextSiblingClass cls t._firstRealizedClass
    _firstRealizedClass := some cls }

def addSubclass (t : ClassTree Cls) (supercls subcls : Cls) : ClassTree Cls :=
  { t with
    nextSiblingClass := Function.update t.nextSiblingClass subcls (t.firstSubclass supercls)
    firstSubclass := Function.update t.firstSubclass supercls (some subcls) }

def markRealized (t : ClassTree Cls) (cls : Cls) : ClassTree Cls :=
  { t with realized := Function.update t.realized cls true }

/-- The recursion goes up the superclasses, of which there are at most `fuel`. -/
def realizeUpTo (F : Forest Cls) : Nat → ClassTree Cls → Cls → ClassTree Cls
  | 0, t, _ => t
  | fuel + 1, t, cls =>
    if t.realized cls then t else
      match F.parent cls with
      | none => addRootClass (markRealized t cls) cls
      | some supercls => addSubclass (realizeUpTo F fuel (markRealized t cls) supercls) supercls cls

def realizeClassWithoutSwift (F : Forest Cls) (t : ClassTree Cls) (cls : Cls) : ClassTree Cls :=
  realizeUpTo F (F.depth cls + 1) t cls

section Walk

variable (F : Forest Cls) (t : ClassTree Cls) (code : Cls → Bool) (top : Cls)

/-- `while (!cls->data()->nextSiblingClass && cls != top)`: there is no result when the
count runs out. -/
def climbToSibling : Nat → Cls → Option (Cls × Nat)
  | 0, cls => if (t.nextSiblingClass cls).isSome || cls == top then some (cls, 0) else none
  | count + 1, cls =>
    if (t.nextSiblingClass cls).isSome || cls == top then some (cls, count + 1) else
      match F.parent cls with
      | none => none
      | some supercls => if count = 0 then none else climbToSibling count supercls

/-- The classes that `code` is called on, in order, and what is left of the count. The body
of the loop runs at most `fuel` times. -/
def foreachFrom : Nat → Nat → Cls → List Cls → Option (List Cls × Nat)
  | 0, _, _, _ => none
  | fuel + 1, count, cls, visited =>
    if count - 1 = 0 then none else
      match (if code cls then t.firstSubclass cls else none) with
      | some subcls => foreachFrom fuel (count - 1) subcls (visited ++ [cls])
      | none =>
        match climbToSibling F t top (count - 1) cls with
        | none => none
        | some (c, count) =>
          if c = top then some (visited ++ [cls], count) else
            match t.nextSiblingClass c with
            | some sibling => foreachFrom fuel count sibling (visited ++ [cls])
            | none => none

def foreach_realized_class_and_subclass_2 (count : Nat) : Option (List Cls × Nat) :=
  foreachFrom F t code top count count top []

end Walk

/-- Sixteen times the number of named classes and one more. -/
def unreasonableClassCount (named : Nat) : Nat := (named + 1) * 16

def foreach_realized_class_and_subclass (F : Forest Cls) (t : ClassTree Cls) (code : Cls → Bool) (top : Cls)
    (named : Nat) : Option (List Cls) :=
  (foreach_realized_class_and_subclass_2 F t code top (unreasonableClassCount named)).map Prod.fst

/-- The loop over the root classes, with a bound on their number. -/
def foreachRoot (F : Forest Cls) (t : ClassTree Cls) (code : Cls → Bool) :
    Nat → Option Cls → Nat → Option (List Cls)
  | _, none, _ => some []
  | 0, some _, _ => none
  | fuel + 1, some top, count =>
    match foreach_realized_class_and_subclass_2 F t code top count with
    | none => none
    | some (visited, count) => (foreachRoot F t code fuel (t.nextSiblingClass top) count).map (visited ++ ·)

def foreach_realized_class_and_metaclass (F : Forest Cls) (t : ClassTree Cls) (code : Cls → Bool) (named : Nat) :
    Option (List Cls) :=
  foreachRoot F t code (unreasonableClassCount named) t._firstRealizedClass (unreasonableClassCount named)

/-- The pointers stand for the children lists of a forest of realized classes. -/
structure Represents (F : Forest Cls) (t : ClassTree Cls) (kids : Cls → List Cls) (roots : List Cls) : Prop
    extends Branches F (fun c => t.realized c = true) kids where
  kids_linked : ∀ c, Linked t.nextSiblingClass (t.firstSubclass c) (kids c)
  roots_linked : Linked t.nextSiblingClass t._firstRealizedClass roots
  mem_roots : ∀ {c}, c ∈ roots ↔ F.parent c = none ∧ t.realized c = true
  nodup_roots : roots.Nodup

section Walk

variable {F : Forest Cls} {t : ClassTree Cls} {code : Cls → Bool} {top : Cls}

theorem climb_stop {c : Cls} (h : (t.nextSiblingClass c).isSome = true ∨ c = top) (count : Nat) :
    climbToSibling F t top count c = some (c, count) := by
  have hStop : ((t.nextSiblingClass c).isSome || c == top) = true := by simpa using h
  cases count <;> rw [climbToSibling, if_pos hStop]

theorem climb_up {c supercls : Cls} (hLast : t.nextSiblingClass c = none) (hTop : c ≠ top)
    (hParent : F.parent c = some supercls) {count : Nat} (hCount : count ≠ 0) :
    climbToSibling F t top (count + 1) c = climbToSibling F t top count supercls := by
  rw [climbToSibling, if_neg (by simp [hLast, hTop]), hParent]
  exact if_neg hCount

/-- What the loop does once it is done below `c`. -/
def foreachAfter (F : Forest Cls) (t : ClassTree Cls) (code : Cls → Bool) (top : Cls) (fuel count : Nat)
    (c : Cls) (visited : List Cls) : Option (List Cls × Nat) :=
  match climbToSibling F t top count c with
  | none => none
  | some (c, count) =>
    if c = top then some (visited, count) else
      match t.nextSiblingClass c with
      | some sibling => foreachFrom F t code top fuel count sibling visited
      | none => none

theorem foreachFrom_succ {fuel count : Nat} (hCount : count ≠ 0) (c : Cls) (visited : List Cls) :
    foreachFrom F t code top (fuel + 1) (count + 1) c visited =
      match (if code c then t.firstSubclass c else none) with
      | some subcls => foreachFrom F t code top fuel count subcls (visited ++ [c])
      | none => foreachAfter F t code top fuel count c (visited ++ [c]) := by
  rw [foreachFrom, if_neg (by omega), Nat.add_sub_cancel]
  rfl

theorem foreachAfter_top (fuel count : Nat) (visited : List Cls) :
    foreachAfter F t code top fuel count top visited = some (visited, count) := by
  rw [foreachAfter, climb_stop (.inr rfl)]
  exact if_pos rfl

theorem foreachAfter_sibling {c d : Cls} (hNext : t.nextSiblingClass c = some d) (hTop : c ≠ top)
    (fuel count : Nat) (visited : List Cls) :
    foreachAfter F t code top fuel count c visited = foreachFrom F t code top fuel count d visited := by
  rw [foreachAfter, climb_stop (.inl (by rw [hNext]; rfl))]
  simp only [hTop, if_false, hNext]

theorem foreachAfter_last {c supercls : Cls} (hLast : t.nextSiblingClass c = none) (hTop : c ≠ top)
    (hParent : F.parent c = some supercls) {count : Nat} (hCount : count ≠ 0) (fuel : Nat) (visited : List Cls) :
    foreachAfter F t code top fuel (count + 1) c visited =
      foreachAfter F t code top fuel count supercls visited := by
  rw [foreachAfter, climb_up hLast hTop hParent hCount]
  rfl

/-- From `c` the loop visits `l` and goes on as after the class `d`. Every visit counts, and so
does every way back up. -/
def Covers (F : Forest Cls) (t : ClassTree Cls) (code : Cls → Bool) (top c d : Cls) (l : List Cls)
    (ups : Nat) : Prop :=
  ∀ fuel count visited, count ≠ 0 →
    foreachFrom F t code top (fuel + l.length) (count + ups + l.length) c visited =
      foreachAfter F t code top fuel count d (visited ++ l)

theorem covers_siblings {below : Cls → List Cls} {c : Cls} {l : List Cls} {k : Cls}
    (hLinked : Linked t.nextSiblingClass (t.nextSiblingClass k) l)
    (hKids : ∀ d ∈ k :: l, F.parent d = some c ∧ d ≠ top ∧
      ∃ ups < (below d).length, Covers F t code top d d (below d) ups) :
    ∃ ups ≤ ((k :: l).flatMap below).length, Covers F t code top k c ((k :: l).flatMap below) ups := by
  induction l generalizing k with
  | nil =>
    obtain ⟨hParent, hTop, ups, hUps, hCovers⟩ := hKids k List.mem_cons_self
    rw [List.flatMap_cons, List.flatMap_nil, List.append_nil]
    refine ⟨ups + 1, hUps, fun fuel count visited hCount => ?_⟩
    have hRun := hCovers fuel (count + 1) visited (Nat.succ_ne_zero count)
    rw [foreachAfter_last hLinked hTop hParent hCount] at hRun
    rw [← hRun]
    congr 1
    omega
  | cons k' l ih =>
    obtain ⟨_, hTop, ups, hUps, hCovers⟩ := hKids k List.mem_cons_self
    obtain ⟨ups', hUps', hRest⟩ := ih hLinked.2 fun d hd => hKids d (List.mem_cons_of_mem k hd)
    rw [List.flatMap_cons]
    generalize (k' :: l).flatMap below = rest at hUps' hRest
    refine ⟨ups + ups', by rw [List.length_append]; omega, fun fuel count visited hCount => ?_⟩
    calc
      _ = foreachFrom F t code top (fuel + rest.length + (below k).length)
            (count + ups' + rest.length + ups + (below k).length) k visited := by
        rw [List.length_append]
        congr 1 <;> omega
      _ = foreachAfter F t code top (fuel + rest.length) (count + ups' + rest.length) k
            (visited ++ below k) := hCovers _ _ visited (by omega)
      _ = foreachFrom F t code top (fuel + rest.length) (count + ups' + rest.length) k'
            (visited ++ below k) := foreachAfter_sibling hLinked.1 hTop _ _ _
      _ = foreachAfter F t code top fuel count c (visited ++ (below k ++ rest)) := by
        rw [hRest fuel count _ hCount, List.append_assoc]

theorem covers_alone {c : Cls} (hNone : (if code c then t.firstSubclass c else none) = none) :
    Covers F t code top c c [c] 0 := by
  intro fuel count visited hCount
  simp only [List.length_singleton, Nat.add_zero]
  rw [foreachFrom_succ hCount, hNone]

variable (code) in
theorem covers_preorder {kids : Cls → List Cls} {roots : List Cls} (hT : Represents F t kids roots)
    {h : Nat} {c : Cls} (hHeight : Height F (fun c => t.realized c = true) h c) (hTop : top ∈ F.chain c) :
    ∃ ups < (preorder kids code h c).length, Covers F t code top c c (preorder kids code h c) ups := by
  have hLinked := hT.kids_linked c
  induction h generalizing c with
  | zero =>
    refine ⟨0, Nat.zero_lt_one, covers_alone ?_⟩
    rw [hT.kids_of_height_zero hHeight] at hLinked
    rw [show t.firstSubclass c = none from hLinked, ite_self]
  | succ h ih =>
    rw [preorder]
    split
    · rename_i hEnter
      cases hKids : kids c with
      | nil =>
        rw [hKids] at hLinked
        refine ⟨0, Nat.zero_lt_one, covers_alone ?_⟩
        rw [show t.firstSubclass c = none from hLinked, ite_self]
      | cons k l =>
        rw [hKids] at hLinked
        have hEach : ∀ d ∈ k :: l, F.parent d = some c ∧ d ≠ top ∧
            ∃ ups < (preorder kids code h d).length, Covers F t code top d d (preorder kids code h d) ups := by
          intro d hd
          obtain ⟨hParent, _⟩ := hT.mem_kids.mp (hKids ▸ hd)
          have hUp := F.mem_chain_of_parent hParent hTop
          refine ⟨hParent, ?_, ih (hHeight.of_kid hParent) hUp (hT.kids_linked d)⟩
          rintro rfl
          have hLess := F.depth_lt hParent
          have hLe := F.depth_le_of_mem_chain hTop
          omega
        obtain ⟨ups, hUps, hCovers⟩ := covers_siblings hLinked.2 hEach
        refine ⟨ups, Nat.lt_succ_of_le hUps, fun fuel count visited hCount => ?_⟩
        have hRun := hCovers fuel count (visited ++ [c]) hCount
        rw [List.append_assoc] at hRun
        rw [List.length_cons, ← Nat.add_assoc, ← Nat.add_assoc, foreachFrom_succ (by omega), if_pos hEnter,
          hLinked.1]
        exact hRun
    · rename_i hSkip
      exact ⟨0, Nat.zero_lt_one, covers_alone (if_neg hSkip)⟩

variable (code) in
theorem foreach_2_eq (count : Nat) {kids : Cls → List Cls} {roots : List Cls} (hT : Represents F t kids roots)
    {h : Nat} (hHeight : Height F (fun c => t.realized c = true) h top)
    (hCount : 2 * (preorder kids code h top).length ≤ count) :
    ∃ rest, foreach_realized_class_and_subclass_2 F t code top count = some (preorder kids code h top, rest) ∧
      count < rest + 2 * (preorder kids code h top).length := by
  obtain ⟨ups, hUps, hCovers⟩ := covers_preorder code hT hHeight (F.mem_chain_self top)
  generalize preorder kids code h top = l at hUps hCovers hCount
  refine ⟨count - ups - l.length, ?_, by omega⟩
  have hRun := hCovers (count - l.length) (count - ups - l.length) [] (by omega)
  have hFuel : count - l.length + l.length = count := by omega
  have hAll : count - ups - l.length + ups + l.length = count := by omega
  rw [hFuel, hAll, foreachAfter_top, List.nil_append] at hRun
  exact hRun

theorem foreachRoot_eq {kids : Cls → List Cls} {roots : List Cls} (hT : Represents F t kids roots) {h : Nat}
    {l : List Cls} {first : Option Cls} (hLinked : Linked t.nextSiblingClass first l)
    (hHeight : ∀ c ∈ l, Height F (fun c => t.realized c = true) h c) {fuel count : Nat} (hFuel : l.length ≤ fuel)
    (hCount : 2 * (l.flatMap (preorder kids code h)).length ≤ count) :
    foreachRoot F t code fuel first count = some (l.flatMap (preorder kids code h)) := by
  induction l generalizing first fuel count with
  | nil =>
    rw [show first = none from hLinked]
    cases fuel <;> rfl
  | cons c l ih =>
    obtain ⟨fuel, rfl⟩ := Nat.exists_eq_add_one_of_ne_zero (Nat.ne_of_gt (Nat.lt_of_lt_of_le (Nat.succ_pos _) hFuel))
    rw [List.flatMap_cons, List.length_append] at hCount
    obtain ⟨rest, hVisit, hRest⟩ := foreach_2_eq code count hT (hHeight c List.mem_cons_self) (by omega)
    rw [hLinked.1, foreachRoot, hVisit]
    simp only
    rw [ih hLinked.2 (fun d hd => hHeight d (List.mem_cons_of_mem c hd)) (Nat.le_of_succ_le_succ hFuel) (by omega)]
    rfl

end Walk

section Realize

variable {F : Forest Cls} {t : ClassTree Cls} {kids : Cls → List Cls} {roots : List Cls}

theorem markRealized_iff {cls d : Cls} :
    (markRealized t cls).realized d = true ↔ d = cls ∨ t.realized d = true := by
  unfold markRealized
  obtain rfl | hd := eq_or_ne d cls
  · simp
  · simp [hd]

/-- A class that was marked before its superclasses were realized is not met among them. -/
theorem realizeUpTo_mark {cls s : Cls} (h : cls ∉ F.chain s) (fuel : Nat) :
    realizeUpTo F fuel (markRealized t cls) s = markRealized (realizeUpTo F fuel t s) cls := by
  induction fuel generalizing t s with
  | zero => rfl
  | succ fuel ih =>
    have hNe : s ≠ cls := fun hEq => h (hEq ▸ F.mem_chain_self s)
    have hSame : (markRealized t cls).realized s = t.realized s := Function.update_of_ne hNe _ _
    have hComm : markRealized (markRealized t cls) s = markRealized (markRealized t s) cls := by
      simp only [markRealized, Function.update_comm hNe]
    rw [realizeUpTo, realizeUpTo, hSame, hComm]
    split
    · rfl
    · cases hp : F.parent s with
      | none => rfl
      | some p =>
        have hUp : cls ∉ F.chain p := fun hMem => h (F.mem_chain_of_parent hp hMem)
        simp only [ih hUp]
        rfl

omit [DecidableEq Cls] in
theorem Represents.not_mem_kids (hT : Represents F t kids roots) {cls : Cls} (hNew : t.realized cls = false)
    (c : Cls) : cls ∉ kids c := by
  intro hMem
  have hOld := (hT.mem_kids.mp hMem).2
  rw [hNew] at hOld
  cases hOld

omit [DecidableEq Cls] in
theorem Represents.not_mem_roots (hT : Represents F t kids roots) {cls : Cls} (hNew : t.realized cls = false) :
    cls ∉ roots := by
  intro hMem
  have hOld := (hT.mem_roots.mp hMem).2
  rw [hNew] at hOld
  cases hOld

theorem linked_update {first : Option Cls} {l : List Cls} {cls : Cls} {next : Option Cls}
    (hLinked : Linked t.nextSiblingClass first l) (hNew : cls ∉ l) :
    Linked (Function.update t.nextSiblingClass cls next) first l :=
  hLinked.congr fun _ hd => Function.update_of_ne (ne_of_mem_of_not_mem hd hNew) _ _

theorem Represents.addRoot (hT : Represents F t kids roots) {cls : Cls} (hNew : t.realized cls = false)
    (hParent : F.parent cls = none) :
    Represents F (addRootClass (markRealized t cls) cls) kids (cls :: roots) where
  mem_kids {c d} := by
    rw [show ((addRootClass (markRealized t cls) cls).realized d = true ↔ d = cls ∨ t.realized d = true)
      from markRealized_iff, hT.mem_kids]
    refine ⟨fun h => ⟨h.1, .inr h.2⟩, fun h => ⟨h.1, h.2.resolve_left ?_⟩⟩
    rintro rfl
    rw [hParent] at h
    cases h.1
  nodup_kids := hT.nodup_kids
  present_parent {d c} hd hp := by
    refine markRealized_iff.mpr (.inr ?_)
    obtain rfl | hd := markRealized_iff.mp hd
    · rw [hParent] at hp
      cases hp
    · exact hT.present_parent hd hp
  kids_linked c := linked_update (hT.kids_linked c) (hT.not_mem_kids hNew c)
  roots_linked := by
    refine ⟨rfl, ?_⟩
    change Linked _ (Function.update t.nextSiblingClass cls t._firstRealizedClass cls) roots
    rw [Function.update_self]
    exact linked_update hT.roots_linked (hT.not_mem_roots hNew)
  mem_roots {c} := by
    rw [show ((addRootClass (markRealized t cls) cls).realized c = true ↔ c = cls ∨ t.realized c = true)
      from markRealized_iff, List.mem_cons, hT.mem_roots]
    constructor
    · rintro (rfl | h)
      · exact ⟨hParent, .inl rfl⟩
      · exact ⟨h.1, .inr h.2⟩
    · rintro ⟨hp, h⟩
      exact h.imp_right fun h => ⟨hp, h⟩
  nodup_roots := List.nodup_cons.mpr ⟨hT.not_mem_roots hNew, hT.nodup_roots⟩

theorem Represents.addSub (hT : Represents F t kids roots) {cls s : Cls} (hNew : t.realized cls = false)
    (hParent : F.parent cls = some s) (hs : t.realized s = true) :
    Represents F (addSubclass (markRealized t cls) s cls) (Function.update kids s (cls :: kids s)) roots where
  mem_kids {c d} := by
    rw [show ((addSubclass (markRealized t cls) s cls).realized d = true ↔ d = cls ∨ t.realized d = true)
      from markRealized_iff]
    obtain rfl | hc := eq_or_ne c s
    · rw [Function.update_self, List.mem_cons, hT.mem_kids]
      constructor
      · rintro (rfl | h)
        · exact ⟨hParent, .inl rfl⟩
        · exact ⟨h.1, .inr h.2⟩
      · rintro ⟨hp, h⟩
        exact h.imp_right fun h => ⟨hp, h⟩
    · rw [Function.update_of_ne hc, hT.mem_kids]
      refine ⟨fun h => ⟨h.1, .inr h.2⟩, fun h => ⟨h.1, h.2.resolve_left ?_⟩⟩
      rintro rfl
      rw [hParent] at h
      exact hc (Option.some.inj h.1).symm
  nodup_kids c := by
    obtain rfl | hc := eq_or_ne c s
    · rw [Function.update_self]
      exact List.nodup_cons.mpr ⟨hT.not_mem_kids hNew c, hT.nodup_kids c⟩
    · rw [Function.update_of_ne hc]
      exact hT.nodup_kids c
  present_parent {d c} hd hp := by
    refine markRealized_iff.mpr (.inr ?_)
    obtain rfl | hd := markRealized_iff.mp hd
    · cases hParent.symm.trans hp
      exact hs
    · exact hT.present_parent hd hp
  kids_linked c := by
    obtain rfl | hc := eq_or_ne c s
    · rw [Function.update_self]
      change Linked (Function.update t.nextSiblingClass cls (t.firstSubclass c))
        (Function.update t.firstSubclass c (some cls) c) (cls :: kids c)
      rw [Function.update_self]
      refine ⟨rfl, ?_⟩
      rw [Function.update_self]
      exact linked_update (hT.kids_linked c) (hT.not_mem_kids hNew c)
    · rw [Function.update_of_ne hc]
      change Linked _ (Function.update t.firstSubclass s (some cls) c) (kids c)
      rw [Function.update_of_ne hc]
      exact linked_update (hT.kids_linked c) (hT.not_mem_kids hNew c)
  roots_linked := linked_update hT.roots_linked (hT.not_mem_roots hNew)
  mem_roots {c} := by
    rw [show ((addSubclass (markRealized t cls) s cls).realized c = true ↔ c = cls ∨ t.realized c = true)
      from markRealized_iff, hT.mem_roots]
    refine ⟨fun h => ⟨h.1, .inr h.2⟩, fun h => ⟨h.1, h.2.resolve_left ?_⟩⟩
    rintro rfl
    rw [hParent] at h
    cases h.1
  nodup_roots := hT.nodup_roots

/-- Realizing a class links it and those of its superclasses that were not linked yet. -/
theorem Represents.realizeUpTo (hT : Represents F t kids roots) {fuel : Nat} {cls : Cls}
    (hFuel : F.depth cls < fuel) :
    ∃ kids' roots', Represents F (realizeUpTo F fuel t cls) kids' roots' ∧
      ∀ d, (Hook.realizeUpTo F fuel t cls).realized d = true ↔ t.realized d = true ∨ d ∈ F.chain cls := by
  induction fuel generalizing cls with
  | zero => omega
  | succ fuel ih =>
    rw [Hook.realizeUpTo]
    split
    · rename_i hOld
      exact ⟨kids, roots, hT, fun d => ⟨.inl, fun h => h.elim id (hT.present_of_mem_chain hOld)⟩⟩
    · rename_i hNew
      rw [Bool.not_eq_true] at hNew
      cases hp : F.parent cls with
      | none =>
        refine ⟨kids, cls :: roots, hT.addRoot hNew hp, fun d => ?_⟩
        rw [F.chain_of_root hp, List.mem_singleton, or_comm]
        exact markRealized_iff
      | some s =>
        have hLess := F.depth_lt hp
        have hApart : cls ∉ F.chain s := fun hMem => by
          have hLe := F.depth_le_of_mem_chain hMem
          omega
        obtain ⟨kids', roots', hS, hRealized⟩ := ih (show F.depth s < fuel by omega)
        have hNew' : (Hook.realizeUpTo F fuel t s).realized cls = false := by
          rw [Bool.eq_false_iff, Ne, hRealized, hNew]
          simp [hApart]
        have hMark := realizeUpTo_mark (t := t) hApart fuel
        have hLinked := hS.addSub hNew' hp ((hRealized s).mpr (.inr (F.mem_chain_self s)))
        simp only [hMark]
        refine ⟨_, roots', hLinked, fun d => ?_⟩
        have hIff : (markRealized (Hook.realizeUpTo F fuel t s) cls).realized d = true ↔
            d = cls ∨ t.realized d = true ∨ d ∈ F.chain s := by
          rw [markRealized_iff, hRealized]
        rw [F.chain_of_parent hp, List.mem_cons, or_left_comm]
        exact hIff

end Realize

section Run

variable (F : Forest Cls) (loaded : List Cls)

def realizeAll : ClassTree Cls := loaded.foldl (realizeClassWithoutSwift F) .empty

theorem realizeAll_concat (c : Cls) :
    realizeAll F (loaded ++ [c]) = realizeClassWithoutSwift F (realizeAll F loaded) c := List.foldl_append

theorem realizeAll_represents : ∃ kids roots, Represents F (realizeAll F loaded) kids roots ∧
    ∀ d, (realizeAll F loaded).realized d = true ↔ ∃ c ∈ loaded, d ∈ F.chain c := by
  induction loaded using List.reverseRecOn with
  | nil =>
    refine ⟨fun _ => [], [], ?_, fun d => by simp [realizeAll, ClassTree.empty]⟩
    constructor
    · constructor <;> simp [realizeAll, ClassTree.empty]
    · exact fun _ => rfl
    · rfl
    · simp [realizeAll, ClassTree.empty]
    · exact List.nodup_nil
  | append_singleton loaded c ih =>
    obtain ⟨kids, roots, hT, hRealized⟩ := ih
    have hStep := realizeAll_concat F loaded c
    obtain ⟨kids', roots', hT', hRealized'⟩ := hT.realizeUpTo (Nat.lt_succ_self (F.depth c))
    refine ⟨kids', roots', hStep ▸ hT', fun d => ?_⟩
    rw [hStep]
    refine (hRealized' d).trans ?_
    rw [hRealized]
    simp only [List.mem_append, List.mem_singleton, or_and_right, exists_or, exists_eq_left]

omit [DecidableEq Cls] in
theorem exists_depth_bound (l : List Cls) : ∃ D, ∀ d ∈ l, F.depth d ≤ D := by
  induction l with
  | nil => exact ⟨0, fun d hd => absurd hd List.not_mem_nil⟩
  | cons c l ih =>
    obtain ⟨D, hD⟩ := ih
    refine ⟨max (F.depth c) D, fun d hd => ?_⟩
    obtain rfl | hd := List.mem_cons.mp hd
    · exact Nat.le_max_left _ _
    · exact Nat.le_trans (hD d hd) (Nat.le_max_right _ _)

/-- Whatever has been realized, in any order: a walk ends within its bound, calls its code once
on each class below `top` that no skipped class is above, and a walk over all classes once on each realized class. -/
theorem foreach_realized_class_visits {named : Nat}
    (hNamed : ∀ l : List Cls, l.Nodup → (∀ d ∈ l, (realizeAll F loaded).realized d = true) →
      l.length ≤ 8 * (named + 1)) (code : Cls → Bool) :
    (∀ top, (realizeAll F loaded).realized top = true →
      ∃ l, foreach_realized_class_and_subclass F (realizeAll F loaded) code top named = some l ∧ l.Nodup ∧
        ∀ d, d ∈ l ↔ (realizeAll F loaded).realized d = true ∧ top ∈ F.chain d ∧ Entered F code top d) ∧
    ∃ l, foreach_realized_class_and_metaclass F (realizeAll F loaded) (fun _ => true) named = some l ∧ l.Nodup ∧
      ∀ d, d ∈ l ↔ (realizeAll F loaded).realized d = true := by
  obtain ⟨kids, roots, hT, hRealized⟩ := realizeAll_represents F loaded
  generalize realizeAll F loaded = t at hNamed hT hRealized
  obtain ⟨D, hD⟩ := exists_depth_bound F (loaded.flatMap F.chain)
  have hHeight : ∀ c, Height F (fun c => t.realized c = true) D c := by
    intro c d hd _
    have hMem := hD d (List.mem_flatMap.mpr ((hRealized d).mp hd))
    omega
  constructor
  · intro top hTop
    have hMem := fun d => hT.mem_preorder code (d := d) (hHeight top) hTop
    have hNodup := hT.nodup_preorder code (hHeight top) hTop
    have hLength := hNamed _ hNodup fun d hd => ((hMem d).mp hd).1
    obtain ⟨rest, hRun, _⟩ := foreach_2_eq code (unreasonableClassCount named) hT (hHeight top)
      (by unfold unreasonableClassCount; omega)
    refine ⟨_, ?_, hNodup, hMem⟩
    rw [foreach_realized_class_and_subclass, hRun]
    rfl
  · have hRoot : ∀ {c}, c ∈ roots → F.parent c = none ∧ t.realized c = true := fun hc => hT.mem_roots.mp hc
    have hPre := fun {c} (hc : c ∈ roots) d =>
      hT.mem_preorder (fun _ => true) (d := d) (hHeight c) (hRoot hc).2
    have hMem : ∀ d, d ∈ roots.flatMap (preorder kids (fun _ => true) D) ↔ t.realized d = true := by
      intro d
      rw [List.mem_flatMap]
      constructor
      · rintro ⟨c, hc, hd⟩
        exact ((hPre hc d).mp hd).1
      · intro hd
        obtain ⟨c, hc, hMem⟩ := F.exists_root_of_chain d
        have hcRoot := hT.mem_roots.mpr ⟨hc, hT.present_of_mem_chain hd hMem⟩
        exact ⟨c, hcRoot, (hPre hcRoot d).mpr ⟨hd, hMem, fun _ _ _ _ => rfl⟩⟩
    have hNodup : (roots.flatMap (preorder kids (fun _ => true) D)).Nodup := by
      refine List.nodup_flatMap.mpr ⟨fun c hc => hT.nodup_preorder (fun _ => true) (hHeight c) (hRoot hc).2, ?_⟩
      refine hT.nodup_roots.imp_of_mem fun hc hc' hNe d hd hd' => hNe ?_
      exact F.root_unique (hRoot hc).1 (hRoot hc').1 ((hPre hc d).mp hd).2.1 ((hPre hc' d).mp hd').2.1
    have hRoots : roots.length ≤ 8 * (named + 1) := hNamed roots hT.nodup_roots fun c hc => (hRoot hc).2
    have hLength := hNamed _ hNodup fun d hd => (hMem d).mp hd
    refine ⟨_, foreachRoot_eq hT hT.roots_linked (fun c _ => hHeight c) ?_ ?_, hNodup, hMem⟩
    · unfold unreasonableClassCount
      omega
    · unfold unreasonableClassCount
      omega

end Run

theorem foreach_realized_class_visits_child :
    ∃ l, foreach_realized_class_and_subclass parentAndChild (realizeAll parentAndChild [true, false]) (fun _ => true)
      false 2 = some l ∧ l.Nodup ∧ ∀ d, d ∈ l ↔
        (realizeAll parentAndChild [true, false]).realized d = true ∧ false ∈ parentAndChild.chain d ∧
          Entered parentAndChild (fun _ => true) false d := by
  refine (foreach_realized_class_visits parentAndChild [true, false] (fun l hNodup _ => ?_) _).1 false (by decide)
  have hSubset : l ⊆ [true, false] := fun d _ => by cases d <;> decide
  exact Nat.le_trans (hNodup.subperm hSubset).length_le (by decide)

end OCNote.Hook
