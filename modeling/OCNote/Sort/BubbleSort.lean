import OCNote.Sort.SortObject
import OCNote.Support.StableSort

/-! # The bubble sorts

One pass carries the greatest of the positions it scans to the last of them. The
positions behind it are settled: whatever lies before one of them is not above it. -/

namespace OCNote.Sort
open OCNote.Support
set_option autoImplicit false

variable {α β : Type}

def value (intValue : α → Int32) (x : α) : Int := (intValue x).toInt

def comparesOf (events : List SortEvent) : List Nat :=
  events.filterMap fun
    | .compare begin => some begin
    | _ => none

def exchangesOf (events : List SortEvent) : List Nat :=
  events.filterMap fun
    | .exchange begin => some begin
    | _ => none

/-- Nothing has to cross a position behind `top` any more. -/
def Settled (key : α → Int) (top : Nat) (l : List α) : Prop :=
  ∀ i j, top < j → i < j → LeAt key l i j

section Body

/-- The conversions of `begin` are harmless below the range of `int`. -/
theorem begin_conversions {begin : Int} {b : Nat} (hBegin : begin = b + 1) (hb : b + 1 < 2 ^ 31 - 1) :
    toNSUInteger begin = b + 1 ∧ toNSUInteger (toInt32 (begin - 1)) = b ∧
      toInt32 (begin + 1) = (b + 1 : Nat) + 1 := by
  subst hBegin
  refine ⟨toNSUInteger_of_nat (n := b + 1) (by omega), ?_, ?_⟩
  · rw [toInt32_of_range (by omega) (by omega)]
    simpa using toNSUInteger_of_nat (n := b) (by omega)
  · rw [toInt32_of_range (by omega) (by omega)]
    rfl

variable (intValue : α → Int32) (note : Nat → β → β)

theorem compareAndExchange_of_lt {f : Frame α β} {b : Nat} {x y : α} (hBegin : f.begin = b + 1)
    (hSize : f.array.length < 2 ^ 31) (hx : f.array[b]? = some x) (hy : f.array[b + 1]? = some y)
    (hLess : value intValue y < value intValue x) :
    compareAndExchange intValue note f = .ok (.next { f with
      array := (f.array.set (b + 1) x).set b y
      events := f.events ++ [.compare (b + 1), .exchange (b + 1)]
      mark := note (b + 1) f.mark }) := by
  obtain ⟨hb, _⟩ := List.getElem?_eq_some_iff.mp hy
  obtain ⟨hIndex, hBefore, _⟩ := begin_conversions hBegin (by omega)
  have hLess : intValue y < intValue x := Int32.lt_iff_toInt_lt.mpr hLess
  simp [compareAndExchange, hIndex, hBefore, objectAt_of_getElem? hx, objectAt_of_getElem? hy,
    setObject_of_lt hb, setObject_of_lt (show b < (f.array.set (b + 1) x).length by simp; omega),
    hLess, bind, Except.bind, pure, Except.pure]

theorem compareAndExchange_of_le {f : Frame α β} {b : Nat} {x y : α} (hBegin : f.begin = b + 1)
    (hSize : f.array.length < 2 ^ 31) (hx : f.array[b]? = some x) (hy : f.array[b + 1]? = some y)
    (hLe : value intValue x ≤ value intValue y) :
    compareAndExchange intValue note f =
      .ok (.next { f with events := f.events ++ [.compare (b + 1)] }) := by
  obtain ⟨hb, _⟩ := List.getElem?_eq_some_iff.mp hy
  obtain ⟨hIndex, hBefore, _⟩ := begin_conversions hBegin (by omega)
  have hLe : ¬ intValue y < intValue x := by
    rw [Int32.lt_iff_toInt_lt]
    exact Int.not_lt.mpr hLe
  simp [compareAndExchange, hIndex, hBefore, objectAt_of_getElem? hx, objectAt_of_getElem? hy,
    hLe, bind, Except.bind, pure, Except.pure]

end Body

section Pass

variable {key : α → Int} {note : Nat → β → β} {mark : β} {top : Nat} {m : Memory α}

/-- After `b` comparisons of a pass that scans up to `top`; `es` are its events so far. -/
structure PassInv (key : α → Int) (note : Nat → β → β) (mark : β) (top : Nat) (m : Memory α)
    (b : Nat) (es : List SortEvent) (f : Frame α β) : Prop where
  begin_eq : f.begin = b + 1
  rearranged : StablyRearranged key m.array f.array
  settled : Settled key top f.array
  highest : ∀ i, i < b → LeAt key f.array i b
  events_eq : f.events = m.events ++ .pass top :: es
  compared : comparesOf es = List.range' 1 b
  mark_eq : f.mark = (exchangesOf es).foldl (fun mark begin => note begin mark) mark
  calm : exchangesOf es = [] → f.array = m.array ∧ ∀ i, i < b → LeAt key f.array i (i + 1)

theorem PassInv.start (hSettled : Settled key top m.array) :
    PassInv key note mark top m 0 [] ⟨m.array, m.events ++ [.pass top], mark, 1⟩ where
  begin_eq := rfl
  rearranged := .refl _
  settled := hSettled
  highest i hi := absurd hi (Nat.not_lt_zero i)
  events_eq := rfl
  compared := rfl
  mark_eq := rfl
  calm _ := ⟨rfl, fun i hi => absurd hi (Nat.not_lt_zero i)⟩

theorem PassInv.keep {b : Nat} {es : List SortEvent} {f : Frame α β} {x y : α}
    (h : PassInv key note mark top m b es f) (hSize : f.array.length < 2 ^ 31)
    (hx : f.array[b]? = some x) (hy : f.array[b + 1]? = some y) (hLe : key x ≤ key y) :
    PassInv key note mark top m (b + 1) (es ++ [.compare (b + 1)])
      { f with events := f.events ++ [.compare (b + 1)], begin := toInt32 (f.begin + 1) } := by
  obtain ⟨hb, _⟩ := List.getElem?_eq_some_iff.mp hy
  have hNext : LeAt key f.array b (b + 1) := by
    intro x' y' hx' hy'
    cases hx.symm.trans hx'
    cases hy.symm.trans hy'
    exact hLe
  refine ⟨(begin_conversions h.begin_eq (by omega)).2.2, h.rearranged, h.settled, ?_, ?_, ?_, ?_, ?_⟩
  · intro i hi
    obtain hi | rfl := Nat.lt_succ_iff_lt_or_eq.mp hi
    · exact (h.highest i hi).trans hNext (by omega)
    · exact hNext
  · simp [h.events_eq]
  · simpa [comparesOf, List.range'_1_concat, Nat.add_comm] using h.compared
  · simpa [exchangesOf] using h.mark_eq
  · intro hCalm
    obtain ⟨hSame, hAscending⟩ := h.calm (by simpa [exchangesOf] using hCalm)
    refine ⟨hSame, fun i hi => ?_⟩
    obtain hi | rfl := Nat.lt_succ_iff_lt_or_eq.mp hi
    · exact hAscending i hi
    · exact hNext

theorem PassInv.exchange {b : Nat} {es : List SortEvent} {f : Frame α β} {x y : α}
    (h : PassInv key note mark top m b es f) (hSize : f.array.length < 2 ^ 31) (hTop : b < top)
    (hx : f.array[b]? = some x) (hy : f.array[b + 1]? = some y) (hLess : key y < key x) :
    PassInv key note mark top m (b + 1) (es ++ [.compare (b + 1), .exchange (b + 1)])
      { f with
        array := (f.array.set (b + 1) x).set b y
        events := f.events ++ [.compare (b + 1), .exchange (b + 1)]
        mark := note (b + 1) f.mark
        begin := toInt32 (f.begin + 1) } := by
  obtain ⟨hb, _⟩ := List.getElem?_eq_some_iff.mp hy
  have hAt := exchange_getElem? hy hx
  refine ⟨(begin_conversions h.begin_eq (by omega)).2.2, ?_, ?_, ?_, ?_, ?_, ?_, ?_⟩
  · obtain ⟨front, back, _, hSplit, hSet⟩ := neighbours_split hx hy
    refine h.rearranged.trans ?_
    change StablyRearranged key f.array ((f.array.set (b + 1) x).set b y)
    rw [hSet, hSplit]
    exact .neighbours front back hLess.ne'
  · intro i j hj hij u v hu hv
    simp only [hAt] at hu hv
    rw [if_neg (by omega), if_neg (by omega)] at hv
    split at hu
    · exact h.settled (b + 1) j hj (by omega) u v (hu ▸ hy) hv
    · split at hu
      · exact h.settled b j hj (by omega) u v (hu ▸ hx) hv
      · exact h.settled i j hj hij u v hu hv
  · intro i hi u v hu hv
    simp only [hAt] at hu hv
    rw [if_neg (by omega), if_pos trivial] at hv
    cases hv
    split at hu
    · cases hu
      exact hLess.le
    · rw [if_neg (by omega)] at hu
      exact h.highest i (by omega) u x hu hx
  · simp [h.events_eq]
  · simpa [comparesOf, List.range'_1_concat, Nat.add_comm] using h.compared
  · simp [exchangesOf, h.mark_eq]
  · intro hCalm
    simp [exchangesOf] at hCalm

theorem Settled.lower {key : α → Int} {l : List α} (h : Settled key top l)
    (hHighest : ∀ i, i < top → LeAt key l i top) : Settled key (top - 1) l := by
  intro i j hj hij
  obtain hTop | hTop := Nat.lt_or_ge top j
  · exact h i j hTop hij
  · have hjTop : j = top := by omega
    subst hjTop
    exact hHighest i hij

/-- A pass without an exchange has found its whole prefix ascending. -/
theorem PassInv.sorted_of_calm {key : α → Int} {es : List SortEvent} {f : Frame α β}
    (h : PassInv key note mark top m top es f) (hTop : top < f.array.length)
    (hCalm : exchangesOf es = []) : f.array.Pairwise fun a b => key a ≤ key b := by
  apply pairwise_of_leAt
  intro i j hij
  obtain hj | hj := Nat.lt_or_ge top j
  · exact h.settled i j hj hij
  · exact leAt_of_neighbours hTop (h.calm hCalm).2 hij hj

end Pass

section Sorts

variable (intValue : α → Int32) (note : Nat → β → β) (mark : β) {fuel top : Nat} {m : Memory α}

theorem bubblePass_body {b : Nat} {es : List SortEvent} {f : Frame α β}
    (hSize : m.array.length < 2 ^ 31) (hTop : top < m.array.length) (hb : b ≤ top)
    (h : PassInv (value intValue) note mark top m b es f) :
    (decide (toNSUInteger f.begin ≤ top) = false ∧ b = top) ∨
    (decide (toNSUInteger f.begin ≤ top) = true ∧ b < top ∧ ∃ f', compareAndExchange intValue note f =
        .ok (.next f') ∧ ∃ es', PassInv (value intValue) note mark top m (b + 1) es'
          { f' with begin := toInt32 (f'.begin + 1) }) := by
  have hLength : f.array.length = m.array.length := h.rearranged.length_eq
  have hBegin := h.begin_eq
  have hIndex : toNSUInteger f.begin = b + 1 := by
    rw [hBegin]
    exact toNSUInteger_of_nat (n := b + 1) (by omega)
  obtain hEnd | hb := Nat.eq_or_lt_of_le hb
  · exact .inl ⟨by simp [hIndex, hEnd], hEnd⟩
  · refine .inr ⟨by simp [hIndex]; omega, hb, ?_⟩
    obtain ⟨x, hx⟩ : ∃ x, f.array[b]? = some x := ⟨_, List.getElem?_eq_getElem (by omega)⟩
    obtain ⟨y, hy⟩ : ∃ y, f.array[b + 1]? = some y := ⟨_, List.getElem?_eq_getElem (by omega)⟩
    by_cases hLess : value intValue y < value intValue x
    · exact ⟨_, compareAndExchange_of_lt intValue note hBegin (by omega) hx hy hLess, _,
        h.exchange (by omega) hb hx hy hLess⟩
    · have hLe := Int.not_lt.mp hLess
      exact ⟨_, compareAndExchange_of_le intValue note hBegin (by omega) hx hy hLe, _,
        h.keep (by omega) hx hy hLe⟩

/-- A pass ends, stays inside the array and has compared every pair up to `top`. -/
theorem bubblePass_spec (hSize : m.array.length < 2 ^ 31) (hTop : top < m.array.length)
    (hFuel : top < fuel) (hSettled : Settled (value intValue) top m.array) :
    ∃ f es, bubblePass intValue note mark fuel top m = .ok f ∧
      PassInv (value intValue) note mark top m top es f := by
  have hEnds : ∃ f, bubblePass intValue note mark fuel top m = .ok f ∧
      ∃ es, PassInv (value intValue) note mark top m top es f := by
    apply loop_total (fun f => ∃ b es, b ≤ top ∧ PassInv (value intValue) note mark top m b es f)
      (fun f => (top + 1 - f.begin).toNat)
    · rintro f ⟨b, es, hb, hPass⟩
      rcases bubblePass_body intValue note mark hSize hTop hb hPass with
        ⟨hTest, hEnd⟩ | ⟨hTest, hb, f', hBody, es', hNext⟩
      · exact .inl ⟨congrArg Except.ok hTest, es, hEnd ▸ hPass⟩
      · refine .inr ⟨congrArg Except.ok hTest, .next f', hBody, ⟨b + 1, es', hb, hNext⟩, ?_⟩
        have hBegin := hPass.begin_eq
        have hBegin' := hNext.begin_eq
        simp only at hBegin' ⊢
        omega
    · exact ⟨0, [], Nat.zero_le _, .start hSettled⟩
    · simp only
      omega
  obtain ⟨f, hRun, es, hPass⟩ := hEnds
  exact ⟨f, es, hRun, hPass⟩

theorem lastIndex_eq {array : List α} (hPos : 0 < array.length) (hSize : array.length < 2 ^ 64) :
    lastIndex array = array.length - 1 := by
  unfold lastIndex
  rw [show (array.length : Int) - 1 = (array.length - 1 : Nat) by omega]
  exact toNSUInteger_of_nat (by omega)

structure SortInv (intValue : α → Int32) (array : List α) (s : Memory α × Nat) : Prop where
  inside : s.2 < array.length
  rearranged : StablyRearranged (value intValue) array s.1.array
  settled : Settled (value intValue) s.2 s.1.array

theorem SortInv.start {array : List α} (hPos : 0 < array.length) (hSize : array.length < 2 ^ 31) :
    SortInv intValue array (⟨array, []⟩, lastIndex array) := by
  have hLast := lastIndex_eq hPos (by omega)
  refine ⟨by simp only [hLast]; omega, .refl _, fun i j hj _ x y _ hy => ?_⟩
  obtain ⟨hj', _⟩ := List.getElem?_eq_some_iff.mp hy
  simp only [hLast] at hj hj'
  omega

theorem SortInv.done {array : List α} {s : Memory α × Nat} (h : SortInv intValue array s)
    (hZero : s.2 = 0) : StablySorted (value intValue) array s.1.array where
  toStablyRearranged := h.rearranged
  ascending := pairwise_of_leAt fun i j hij => h.settled i j (by omega) hij

/-- All variants sort, provided that only a pass without an exchange lets them stop. -/
theorem bubbleSort_sorts (leaves : β → Bool) (array : List α) (hPos : 0 < array.length)
    (hSize : array.length < 2 ^ 31) (hFuel : array.length ≤ fuel)
    (hLeaves : ∀ exchanges : List Nat,
      leaves (exchanges.foldl (fun mark begin => note begin mark) mark) = true → exchanges = []) :
    ∃ m, bubbleSort intValue note mark leaves fuel array = .ok m ∧
      StablySorted (value intValue) array m.array := by
  have hEnds : ∃ s, bubbleSortLoop intValue note mark leaves fuel array = .ok s ∧
      StablySorted (value intValue) array s.1.array := by
    apply loop_total (SortInv intValue array) (fun s => s.2)
    · intro s hInv
      have hLength := hInv.rearranged.length_eq
      have hInside := hInv.inside
      obtain hZero | hTopPos := Nat.eq_zero_or_pos s.2
      · exact .inl ⟨by simp [hZero], hInv.done intValue hZero⟩
      obtain ⟨f, es, hRun, hPass⟩ := bubblePass_spec intValue note mark (by omega)
        (by omega) (show s.2 < fuel by omega) hInv.settled
      have hAll := hInv.rearranged.trans hPass.rearranged
      refine .inr ⟨by simp [hTopPos], ?_⟩
      by_cases hLeave : leaves f.mark = true
      · refine ⟨.leave (⟨f.array, f.events⟩, s.2), ?_, hAll, ?_⟩
        · simp [hRun, hLeave, bind, Except.bind, pure, Except.pure]
        · have hTop : s.2 < f.array.length := by rw [hPass.rearranged.length_eq]; omega
          exact hPass.sorted_of_calm hTop (hLeaves _ (hPass.mark_eq ▸ hLeave))
      · refine ⟨.next (⟨f.array, f.events⟩, s.2), ?_,
          ⟨Nat.lt_of_le_of_lt (Nat.sub_le _ _) hInside, hAll, hPass.settled.lower hPass.highest⟩,
          Nat.sub_lt hTopPos Nat.one_pos⟩
        simp [hRun, hLeave, bind, Except.bind, pure, Except.pure]
    · exact .start intValue hPos hSize
    · simp only [lastIndex_eq hPos (by omega : array.length < 2 ^ 64)]
      omega
  obtain ⟨s, hRun, hPost⟩ := hEnds
  exact ⟨s.1, by rw [bubbleSort, hRun]; rfl, hPost⟩

theorem isSorted_eq_true {exchanges : List Nat}
    (h : exchanges.foldl (fun _ _ => false) true = true) : exchanges = [] := by
  obtain hNil | ⟨_, _, rfl⟩ := List.eq_nil_or_concat exchanges
  · exact hNil
  · simp at h

/-- The early exit of `bubbleSort2` and the bookkeeping of `bubbleSort3` never show:
all three end inside the array with the one stable ascending rearrangement. -/
theorem bubbleSorts_agree (array : List α) (hPos : 0 < array.length)
    (hSize : array.length ≤ 2 ^ 31 - 1) (fuel : Nat) (hFuel : array.length ≤ fuel) :
    ∃ sorted, StablySorted (value intValue) array sorted ∧
      (∀ other, StablySorted (value intValue) array other → other = sorted) ∧
      (∃ m, bubbleSort1 intValue fuel array = .ok m ∧ m.array = sorted) ∧
      (∃ m, bubbleSort2 intValue fuel array = .ok m ∧ m.array = sorted) ∧
      (∃ m, bubbleSort3 intValue fuel array = .ok m ∧ m.array = sorted) := by
  have hSize : array.length < 2 ^ 31 := by omega
  obtain ⟨m₁, hRun₁, hSorted₁⟩ := bubbleSort_sorts intValue (fun _ mark => mark) () (fun _ => false)
    array hPos hSize hFuel (fun _ h => absurd h (by simp))
  obtain ⟨m₂, hRun₂, hSorted₂⟩ := bubbleSort_sorts intValue (fun _ _ => false) true
    (fun isSorted => isSorted) array hPos hSize hFuel (fun _ => isSorted_eq_true)
  obtain ⟨m₃, hRun₃, hSorted₃⟩ := bubbleSort_sorts intValue (fun begin _ => begin) 1 (fun _ => false)
    array hPos hSize hFuel (fun _ h => absurd h (by simp))
  exact ⟨m₁.array, hSorted₁, fun other h => h.unique hSorted₁, ⟨m₁, hRun₁, rfl⟩,
    ⟨m₂, hRun₂, hSorted₂.unique hSorted₁⟩, ⟨m₃, hRun₃, hSorted₃.unique hSorted₁⟩⟩

theorem bubbleSorts_agree_repeated :
    ∃ sorted, StablySorted (value Prod.fst) [(3, 'a'), (1, 'b'), (3, 'c'), (1, 'd'), (2, 'e')] sorted ∧
      (∀ other, StablySorted (value Prod.fst)
        [(3, 'a'), (1, 'b'), (3, 'c'), (1, 'd'), (2, 'e')] other → other = sorted) ∧
      (∃ m, bubbleSort1 Prod.fst 5 [(3, 'a'), (1, 'b'), (3, 'c'), (1, 'd'), (2, 'e')] = .ok m ∧
        m.array = sorted) ∧
      (∃ m, bubbleSort2 Prod.fst 5 [(3, 'a'), (1, 'b'), (3, 'c'), (1, 'd'), (2, 'e')] = .ok m ∧
        m.array = sorted) ∧
      (∃ m, bubbleSort3 Prod.fst 5 [(3, 'a'), (1, 'b'), (3, 'c'), (1, 'd'), (2, 'e')] = .ok m ∧
        m.array = sorted) :=
  bubbleSorts_agree Prod.fst _ (by decide) (by decide) 5 (by decide)

end Sorts

end OCNote.Sort
