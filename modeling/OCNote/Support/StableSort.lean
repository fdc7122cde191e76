import Mathlib.Data.List.Induction
import Mathlib.Data.List.Sort
import Mathlib.Tactic.Common

/-! # Stable ascending rearrangements

A list is rearranged stably when the elements of each key keep their order. Among the
stable rearrangements exactly one is ascending. Exchanging two neighbours with
different keys is stable, which is what the exchange sorts rest on. -/

namespace OCNote.Support
set_option autoImplicit false

universe u v

variable {α : Type u} {κ : Type v}

section Rearrangement

variable [DecidableEq κ] {key : α → κ}

structure StablyRearranged (key : α → κ) (l l' : List α) : Prop where
  perm : l'.Perm l
  stable : ∀ k, l'.filter (fun a => key a = k) = l.filter (fun a => key a = k)

namespace StablyRearranged

theorem refl (l : List α) : StablyRearranged key l l := ⟨.refl l, fun _ => rfl⟩

theorem trans {l l' l'' : List α} (h : StablyRearranged key l l')
    (h' : StablyRearranged key l' l'') : StablyRearranged key l l'' :=
  ⟨h'.perm.trans h.perm, fun k => (h'.stable k).trans (h.stable k)⟩

theorem length_eq {l l' : List α} (h : StablyRearranged key l l') : l'.length = l.length :=
  h.perm.length_eq

theorem neighbours (front back : List α) {x y : α} (hKey : key x ≠ key y) :
    StablyRearranged key (front ++ x :: y :: back) (front ++ y :: x :: back) where
  perm := (List.Perm.swap x y back).append_left front
  stable k := by
    have hNotBoth : ¬ (key x = k ∧ key y = k) := fun h => hKey (h.1.trans h.2.symm)
    by_cases hx : key x = k <;> by_cases hy : key y = k <;> simp_all

theorem append {l l' : List α} (h : StablyRearranged key l l') (back : List α) :
    StablyRearranged key (l ++ back) (l' ++ back) where
  perm := h.perm.append_right back
  stable k := by rw [List.filter_append, List.filter_append, h.stable k]

/-- An element may move to the front past elements with other keys. -/
theorem move (front passed back : List α) {x : α} (hKeys : ∀ y ∈ passed, key y ≠ key x) :
    StablyRearranged key (front ++ passed ++ x :: back) (front ++ x :: passed ++ back) := by
  induction passed using List.reverseRecOn generalizing back with
  | nil =>
    have hSame : StablyRearranged key (front ++ x :: back) (front ++ x :: back) := refl _
    simpa using hSame
  | append_singleton passed y ih =>
    have hSwap := neighbours (front ++ passed) back (hKeys y (by simp))
    have hMove := ih (y :: back) fun z hz => hKeys z (by simp [hz])
    simpa using hSwap.trans hMove

end StablyRearranged

theorem neighbours_split {l : List α} {b : Nat} {x y : α} (hx : l[b]? = some x)
    (hy : l[b + 1]? = some y) :
    ∃ front back, front.length = b ∧ l = front ++ x :: y :: back ∧
      (l.set (b + 1) x).set b y = front ++ y :: x :: back := by
  obtain ⟨hb, hx⟩ := List.getElem?_eq_some_iff.mp hx
  obtain ⟨hb', hy⟩ := List.getElem?_eq_some_iff.mp hy
  have hLength : (l.take b).length = b := by simp; omega
  have hSplit : l = l.take b ++ x :: y :: l.drop (b + 2) := by
    conv_lhs => rw [← List.take_append_drop b l]
    rw [List.drop_eq_getElem_cons hb, List.drop_eq_getElem_cons hb', hx, hy]
  refine ⟨l.take b, l.drop (b + 2), hLength, hSplit, ?_⟩
  generalize l.take b = front at hLength hSplit ⊢
  generalize l.drop (b + 2) = back at hSplit ⊢
  subst hLength hSplit
  simp

end Rearrangement

section Ascending

variable [LinearOrder κ] (key : α → κ)

structure StablySorted (l l' : List α) : Prop extends StablyRearranged key l l' where
  ascending : l'.Pairwise fun a b => key a ≤ key b

variable {key}

theorem eq_of_ascending_of_filter_eq {l l' : List α} (h : l.Pairwise fun a b => key a ≤ key b)
    (h' : l'.Pairwise fun a b => key a ≤ key b)
    (hKeys : ∀ k, l.filter (fun a => key a = k) = l'.filter (fun a => key a = k)) : l = l' := by
  induction l generalizing l' with
  | nil =>
    cases l' with
    | nil => rfl
    | cons b rest => simpa using hKeys (key b)
  | cons a rest ih =>
    cases l' with
    | nil => simpa using hKeys (key a)
    | cons b rest' =>
      obtain ⟨hLeast, hRest⟩ := List.pairwise_cons.mp h
      obtain ⟨hLeast', hRest'⟩ := List.pairwise_cons.mp h'
      have ha : a ∈ b :: rest' := by
        have hMem : a ∈ (a :: rest).filter (fun c => key c = key a) := by simp
        rw [hKeys] at hMem
        exact List.mem_of_mem_filter hMem
      have hb : b ∈ a :: rest := by
        have hMem : b ∈ (b :: rest').filter (fun c => key c = key b) := by simp
        rw [← hKeys] at hMem
        exact List.mem_of_mem_filter hMem
      have hab : key a = key b := by
        apply le_antisymm
        · obtain rfl | hb := List.mem_cons.mp hb
          · exact le_rfl
          · exact hLeast b hb
        · obtain rfl | ha := List.mem_cons.mp ha
          · exact le_rfl
          · exact hLeast' a ha
      have hHead := hKeys (key a)
      rw [List.filter_cons_of_pos (by simp), List.filter_cons_of_pos (by simp [hab])] at hHead
      obtain ⟨rfl, hTail⟩ := List.cons.inj hHead
      refine congrArg (a :: ·) (ih hRest hRest' fun k => ?_)
      by_cases hk : key a = k
      · rwa [← hk]
      · simpa [hk] using hKeys k

theorem StablySorted.unique {l l₁ l₂ : List α} (h₁ : StablySorted key l l₁)
    (h₂ : StablySorted key l l₂) : l₁ = l₂ :=
  eq_of_ascending_of_filter_eq h₁.ascending h₂.ascending
    fun k => (h₁.stable k).trans (h₂.stable k).symm

def LeAt (key : α → κ) (l : List α) (i j : Nat) : Prop :=
  ∀ x y, l[i]? = some x → l[j]? = some y → key x ≤ key y

theorem LeAt.trans {l : List α} {i j k : Nat} (h : LeAt key l i j) (h' : LeAt key l j k)
    (hj : j < l.length) : LeAt key l i k := by
  intro x z hx hz
  obtain ⟨y, hy⟩ : ∃ y, l[j]? = some y := ⟨_, List.getElem?_eq_getElem hj⟩
  exact (h x y hx hy).trans (h' y z hy hz)

theorem pairwise_of_leAt {l : List α} (h : ∀ i j, i < j → LeAt key l i j) :
    l.Pairwise fun a b => key a ≤ key b := by
  rw [List.pairwise_iff_getElem]
  intro i j hi hj hij
  exact h i j hij _ _ (List.getElem?_eq_getElem hi) (List.getElem?_eq_getElem hj)

/-- Ascending neighbours up to position `top` are ascending at any distance. -/
theorem leAt_of_neighbours {l : List α} {top : Nat} (hTop : top < l.length)
    (h : ∀ i, i < top → LeAt key l i (i + 1)) {i j : Nat} (hij : i < j) (hj : j ≤ top) :
    LeAt key l i j := by
  induction j, hij using Nat.le_induction with
  | base => exact h i (by omega)
  | succ j _ ih => exact (ih (by omega)).trans (h j (by omega)) (by omega)

end Ascending

end OCNote.Support
