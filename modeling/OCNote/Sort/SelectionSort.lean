import OCNote.Sort.BubbleSort

/-! # The selection sort

A round finds the greatest of the positions it scans, the last one where several are
greatest, and exchanges it with the last of them. -/

namespace OCNote.Sort
open OCNote.Support
set_option autoImplicit false

variable {α : Type}

section Search

variable (intValue : α → Int32) {array : List α} {top fuel : Nat}

/-- Of the positions before `b` none is above `m`. -/
structure MaxSoFar (key : α → Int) (array : List α) (m b : Nat) : Prop where
  inside : m < b
  greatest : ∀ i, i < b → LeAt key array i m

theorem MaxSoFar.start (key : α → Int) (array : List α) : MaxSoFar key array 0 1 where
  inside := Nat.one_pos
  greatest i hi x y hx hy := by
    obtain rfl : i = 0 := by omega
    cases hx.symm.trans hy
    exact le_rfl

theorem MaxSoFar.keep {key : α → Int} {m b : Nat} {x y : α} (h : MaxSoFar key array m b)
    (hx : array[m]? = some x) (hy : array[b]? = some y) (hLess : key y < key x) :
    MaxSoFar key array m (b + 1) where
  inside := Nat.lt_succ_of_lt h.inside
  greatest i hi u v hu hv := by
    obtain hi | rfl := Nat.lt_succ_iff_lt_or_eq.mp hi
    · exact h.greatest i hi u v hu hv
    · cases hx.symm.trans hv
      cases hy.symm.trans hu
      exact hLess.le

theorem MaxSoFar.replace {key : α → Int} {m b : Nat} {x y : α} (h : MaxSoFar key array m b)
    (hx : array[m]? = some x) (hy : array[b]? = some y) (hLe : key x ≤ key y) :
    MaxSoFar key array b (b + 1) where
  inside := Nat.lt_succ_self b
  greatest i hi u v hu hv := by
    cases hy.symm.trans hv
    obtain hi | rfl := Nat.lt_succ_iff_lt_or_eq.mp hi
    · exact (h.greatest i hi u x hu hx).trans hLe
    · cases hy.symm.trans hu
      exact le_rfl

theorem selectionMax_spec (hSize : array.length < 2 ^ 31) (hTop : top < array.length) (hFuel : top < fuel) :
    ∃ m b : Nat, selectionMax intValue fuel top array = .ok ((m : Int), (b : Int)) ∧
      MaxSoFar (value intValue) array m (top + 1) := by
  have hEnds : ∃ s, selectionMax intValue fuel top array = .ok s ∧
      ∃ m b : Nat, s = ((m : Int), (b : Int)) ∧ MaxSoFar (value intValue) array m (top + 1) := by
    apply loop_total (fun s => ∃ m b : Nat, s = ((m : Int), (b : Int)) ∧ 0 < b ∧ b ≤ top + 1 ∧
      MaxSoFar (value intValue) array m b) (fun s => (top + 1 - s.2).toNat)
    · rintro _ ⟨m, b, rfl, hPos, hb, hMax⟩
      have hIndex : toNSUInteger b = b := toNSUInteger_of_nat (by omega)
      obtain rfl | hLess := Nat.eq_or_lt_of_le hb
      · exact .inl ⟨by simp only [hIndex]; simp, m, top + 1, rfl, hMax⟩
      have hInside := hMax.inside
      have hMaxIndex : toNSUInteger m = m := toNSUInteger_of_nat (by omega)
      have hNext : toInt32 ((b : Int) + 1) = (b + 1 : Nat) := by
        rw [toInt32_of_range (by omega) (by omega)]
        rfl
      obtain ⟨x, hx⟩ : ∃ x, array[m]? = some x := ⟨_, List.getElem?_eq_getElem (by omega)⟩
      obtain ⟨y, hy⟩ : ∃ y, array[b]? = some y := ⟨_, List.getElem?_eq_getElem (by omega)⟩
      refine .inr ⟨by simp only [hIndex]; simp; omega, ?_⟩
      by_cases hLe : value intValue x ≤ value intValue y
      · have hLe' : intValue x ≤ intValue y := Int32.le_iff_toInt_le.mpr hLe
        refine ⟨.next (b, b), ?_,
          ⟨b, b + 1, congrArg (Prod.mk _) hNext, by omega, by omega, hMax.replace hx hy hLe⟩, ?_⟩
        · simp [hIndex, hMaxIndex, objectAt_of_getElem? hx, objectAt_of_getElem? hy, hLe', bind,
            Except.bind, pure, Except.pure]
        · simp only [hNext]
          omega
      · have hLe' : ¬ intValue x ≤ intValue y := by
          rw [Int32.le_iff_toInt_le]
          exact hLe
        refine ⟨.next (m, b), ?_, ⟨m, b + 1, congrArg (Prod.mk _) hNext, by omega, by omega,
          hMax.keep hx hy (Int.not_le.mp hLe)⟩, ?_⟩
        · simp [hIndex, hMaxIndex, objectAt_of_getElem? hx, objectAt_of_getElem? hy, hLe', bind,
            Except.bind, pure, Except.pure]
        · simp only [hNext]
          omega
    · exact ⟨0, 1, rfl, Nat.one_pos, by omega, .start _ _⟩
    · simp only
      omega
  obtain ⟨_, hRun, m, b, rfl, hMax⟩ := hEnds
  exact ⟨m, b, hRun, hMax⟩

end Search

section Round

variable (intValue : α → Int32)

/-- What a round has to do: the maximum of its positions comes to the last of them. -/
structure Round.Selects (r : Round α) : Prop where
  perm : r.after.Perm r.before
  selected : ∃ x m, r.after[r.endIndex]? = some x ∧ m ≤ r.endIndex ∧ r.before[m]? = some x ∧
    ∀ i y, i ≤ r.endIndex → r.before[i]? = some y → value intValue y ≤ value intValue x
  above : ∀ i, r.endIndex < i → r.after[i]? = r.before[i]?

/-- The rounds lead from one array to the other. -/
def Leads : List (Round α) → List α → List α → Prop
  | [], array, result => array = result
  | r :: rounds, array, result => r.before = array ∧ Leads rounds r.after result

theorem Leads.concat {rounds : List (Round α)} {array : List α} {r : Round α}
    (h : Leads rounds array r.before) : Leads (rounds ++ [r]) array r.after := by
  induction rounds generalizing array with
  | nil => exact ⟨h.symm, rfl⟩
  | cons r' rounds ih => exact ⟨h.1, ih h.2⟩

theorem exchange_selects {array : List α} {top m : Nat} {x y : α} (hx : array[m]? = some x)
    (hy : array[top]? = some y)
    (hMax : MaxSoFar (value intValue) array m (top + 1)) :
    Round.Selects intValue ⟨top, array, (array.set m y).set top x⟩ where
  perm := exchange_perm hx hy
  selected := by
    refine ⟨x, m, ?_, Nat.le_of_lt_succ hMax.inside, hx, fun i z hi hz => ?_⟩
    · rw [exchange_getElem? hx hy, if_pos rfl]
    · exact hMax.greatest i (Nat.lt_succ_of_le hi) z x hz hx
  above i hi := by
    have hm := hMax.inside
    simp only at hi ⊢
    rw [exchange_getElem? hx hy, if_neg (by omega), if_neg (by omega)]

/-- After the exchange nothing has to cross the position `top` either. -/
theorem Settled.select {key : α → Int} {array : List α} {top m : Nat} {x y : α} (h : Settled key top array)
    (hTop : 0 < top) (hx : array[m]? = some x) (hy : array[top]? = some y)
    (hMax : MaxSoFar key array m (top + 1)) : Settled key (top - 1) ((array.set m y).set top x) := by
  have hm := hMax.inside
  have hFrom : ∀ i, i < top → ∀ u, ((array.set m y).set top x)[i]? = some u →
      ∃ k, k ≤ top ∧ array[k]? = some u := by
    intro i hi u hu
    rw [exchange_getElem? hx hy, if_neg (by omega)] at hu
    split at hu
    · exact ⟨top, le_rfl, by rw [hy, hu]⟩
    · exact ⟨i, hi.le, hu⟩
  intro i j hj hij u v hu hv
  obtain hAt | hAbove : j = top ∨ top < j := by omega
  · subst hAt
    rw [exchange_getElem? hx hy, if_pos rfl] at hv
    cases hv
    obtain ⟨k, hk, hu⟩ := hFrom i hij u hu
    exact hMax.greatest k (Nat.lt_succ_of_le hk) u x hu hx
  · rw [exchange_getElem? hx hy, if_neg (by omega), if_neg (by omega)] at hv
    obtain hi | rfl | hi := Nat.lt_trichotomy i top
    · obtain ⟨k, hk, hu⟩ := hFrom i hi u hu
      exact h k j hAbove (by omega) u v hu hv
    · rw [exchange_getElem? hx hy, if_pos rfl] at hu
      exact h m j hAbove (by omega) u v (hx.trans hu) hv
    · rw [exchange_getElem? hx hy, if_neg (by omega), if_neg (by omega)] at hu
      exact h i j hAbove hij u v hu hv

end Round

section Rounds

variable (intValue : α → Int32)

/-- The state of the outer loop before the round for `end`. -/
structure SelectInv (array : List α) (s : (List α × List (Round α)) × Nat) : Prop where
  inside : s.2 < array.length
  perm : s.1.1.Perm array
  settled : Settled (value intValue) s.2 s.1.1
  leads : Leads s.1.2 array s.1.1
  ends : (s.1.2.map Round.endIndex).reverse = List.range' (s.2 + 1) (array.length - 1 - s.2)
  selects : ∀ r ∈ s.1.2, r.Selects intValue

theorem SelectInv.start {array : List α} (hPos : 0 < array.length) (hSize : array.length < 2 ^ 31) :
    SelectInv intValue array ((array, []), lastIndex array) := by
  have hLast := lastIndex_eq hPos (by omega)
  refine ⟨by simp only [hLast]; omega, .refl _, ?_, rfl, by simp [hLast], by simp⟩
  intro i j hj _ x y _ hy
  obtain ⟨hj', _⟩ := List.getElem?_eq_some_iff.mp hy
  simp only [hLast] at hj hj'
  omega

theorem SelectInv.round {array : List α} {s : (List α × List (Round α)) × Nat} {fuel : Nat}
    (h : SelectInv intValue array s) (hSize : array.length < 2 ^ 31) (hFuel : s.2 < fuel) (hPos : 0 < s.2) :
    ∃ (m b : Nat) (after : List α), selectionMax intValue fuel s.2 s.1.1 = .ok ((m : Int), (b : Int)) ∧
      exchange s.1.1 (toNSUInteger m) s.2 = .ok after ∧
      SelectInv intValue array ((after, s.1.2 ++ [⟨s.2, s.1.1, after⟩]), s.2 - 1) := by
  have hLength := h.perm.length_eq
  have hInside := h.inside
  have hTop : s.2 < s.1.1.length := by omega
  obtain ⟨m, b, hRun, hMax⟩ := selectionMax_spec intValue (by omega) hTop hFuel
  have hm := hMax.inside
  obtain ⟨x, hx⟩ : ∃ x, s.1.1[m]? = some x := ⟨_, List.getElem?_eq_getElem (by omega)⟩
  obtain ⟨y, hy⟩ : ∃ y, s.1.1[s.2]? = some y := ⟨_, List.getElem?_eq_getElem (by omega)⟩
  have hIndex : toNSUInteger m = m := toNSUInteger_of_nat (by omega)
  refine ⟨m, b, _, hRun, by rw [hIndex]; exact exchange_eq hx hy, by simp only; omega,
    (exchange_perm hx hy).trans h.perm, h.settled.select hPos hx hy hMax, ?_, ?_, ?_⟩
  · let r : Round α := ⟨s.2, s.1.1, (s.1.1.set m y).set s.2 x⟩
    exact Leads.concat (r := r) h.leads
  · rw [List.map_append, List.reverse_append, h.ends]
    rw [show s.2 - 1 + 1 = s.2 by omega,
      show array.length - 1 - (s.2 - 1) = array.length - 1 - s.2 + 1 by omega,
      List.range'_succ]
    rfl
  · intro r hr
    obtain hr | hr := List.mem_append.mp hr
    · exact h.selects r hr
    · rw [List.mem_singleton.mp hr]
      exact exchange_selects intValue hx hy hMax

/-- The sort ends inside the array with its objects in ascending order, and each of its
rounds, for `end` from the last index down to 1, brings a maximum to its `end`. -/
theorem selectionSort_sorts (array : List α) (hPos : 0 < array.length) (hSize : array.length ≤ 2 ^ 31 - 1)
    (fuel : Nat) (hFuel : array.length ≤ fuel) :
    ∃ sorted rounds, selectionSort intValue fuel array = .ok (sorted, rounds) ∧ sorted.Perm array ∧
      (sorted.Pairwise fun x y => value intValue x ≤ value intValue y) ∧
      Leads rounds array sorted ∧ rounds.map Round.endIndex = (List.range' 1 (array.length - 1)).reverse ∧
      ∀ r ∈ rounds, r.Selects intValue := by
  have hEnds : ∃ s, selectionSortLoop intValue fuel array = .ok s ∧ SelectInv intValue array s ∧ s.2 = 0 := by
    apply loop_total (SelectInv intValue array) (fun s => s.2)
    · intro s hInv
      have hInside := hInv.inside
      obtain hZero | hTopPos := Nat.eq_zero_or_pos s.2
      · exact .inl ⟨by simp [hZero], hInv, hZero⟩
      · obtain ⟨m, b, after, hRun, hExchange, hNext⟩ :=
          hInv.round intValue (by omega) (show s.2 < fuel by omega) hTopPos
        refine .inr ⟨by simp [hTopPos], .next ((after, s.1.2 ++ [⟨s.2, s.1.1, after⟩]), s.2), ?_, hNext,
          Nat.sub_lt hTopPos Nat.one_pos⟩
        simp [hRun, hExchange, bind, Except.bind, pure, Except.pure]
    · exact .start intValue hPos (by omega)
    · simp only [lastIndex_eq hPos (by omega : array.length < 2 ^ 64)]
      omega
  obtain ⟨s, hRun, hInv, hZero⟩ := hEnds
  refine ⟨s.1.1, s.1.2, by rw [selectionSort, hRun]; rfl, hInv.perm, ?_, hInv.leads, ?_, hInv.selects⟩
  · exact pairwise_of_leAt fun i j hij => hInv.settled i j (by omega) hij
  · rw [← List.reverse_reverse (s.1.2.map Round.endIndex), hInv.ends, hZero]
    simp

theorem selectionSort_sorts_repeated :
    ∃ sorted rounds, selectionSort Int32.ofInt 5 [7, 10, 2, 10, 2] = .ok (sorted, rounds) ∧
      sorted.Perm [7, 10, 2, 10, 2] ∧
      (sorted.Pairwise fun x y => value Int32.ofInt x ≤ value Int32.ofInt y) ∧
      Leads rounds [7, 10, 2, 10, 2] sorted ∧ rounds.map Round.endIndex = (List.range' 1 4).reverse ∧
      ∀ r ∈ rounds, r.Selects Int32.ofInt :=
  selectionSort_sorts Int32.ofInt [7, 10, 2, 10, 2] (by decide) (by decide) 5 (by decide)

end Rounds

end OCNote.Sort
