import OCNote.Sort.SelectionSort

/-! # The range of the exchange sorts

An `int` that runs past its range wraps around, and where it meets an `NSUInteger` it is
converted. The converted values ascend all the same, so that they pass `end` in time and
stay inside the array until then. An empty array has the last index `2 ^ 64 - 1`. -/

namespace OCNote.Sort
open OCNote.Support
set_option autoImplicit false

variable {α β : Type}

/-- What an `int` that has been increased to `n` is as an index. -/
def intIndex (n : Nat) : Nat := toNSUInteger (toInt32 n)

section Index

theorem intIndex_of_lt {n : Nat} (h : n < 2 ^ 31) : intIndex n = n := by
  rw [intIndex, toInt32_of_range (by omega) (by omega)]
  exact toNSUInteger_of_nat (by omega)

theorem intIndex_of_wrapped {n : Nat} (h : 2 ^ 31 ≤ n) (h' : n < 2 ^ 32) :
    intIndex n = n + (2 ^ 64 - 2 ^ 32) := by
  have hWrapped : toInt32 n = (n : Int) - 2 ^ 32 := by
    rw [toInt32, ← Int.sub_bmod_right]
    exact toInt32_of_range (by omega) (by omega)
  rw [intIndex, hWrapped, toNSUInteger]
  omega

theorem intIndex_lt_succ {n : Nat} (h : n + 1 < 2 ^ 32) : intIndex n < intIndex (n + 1) := by
  obtain hLow | rfl | hHigh : n + 1 < 2 ^ 31 ∨ n = 2 ^ 31 - 1 ∨ 2 ^ 31 ≤ n := by omega
  · rw [intIndex_of_lt (by omega), intIndex_of_lt hLow]
    omega
  · rw [intIndex_of_lt (by omega), intIndex_of_wrapped (by omega) (by omega)]
    omega
  · rw [intIndex_of_wrapped hHigh (by omega), intIndex_of_wrapped (by omega) h]
    omega

/-- The last value before the `int` is back at 0 is above every index of an array. -/
theorem succ_lt_of_intIndex_le {n top : Nat} (hn : n < 2 ^ 32) (hTop : top < 2 ^ 64 - 1)
    (h : intIndex n ≤ top) : n + 1 < 2 ^ 32 := by
  obtain hn | rfl : n + 1 < 2 ^ 32 ∨ n = 2 ^ 32 - 1 := by omega
  · exact hn
  · rw [intIndex_of_wrapped (by omega) (by omega)] at h
    omega

theorem toInt32_next (n : Nat) : toInt32 (toInt32 n + 1) = toInt32 (n + 1 : Nat) :=
  Int.bmod_add_bmod

theorem toInt32_previous (n : Nat) : toInt32 (toInt32 (n + 1 : Nat) - 1) = toInt32 n := by
  rw [toInt32, toInt32, Int.bmod_sub_bmod]
  exact congrArg toInt32 (by omega)

end Index

theorem comparesOf_append (es es' : List SortEvent) :
    comparesOf (es ++ es') = comparesOf es ++ comparesOf es' := List.filterMap_append

theorem exchangesOf_append (es es' : List SortEvent) :
    exchangesOf (es ++ es') = exchangesOf es ++ exchangesOf es' := List.filterMap_append

section Pass

/-- The events of one comparison of `x` with the `y` at `index` behind it. -/
def scanEvents (key : α → Int) (index : Nat) (x y : α) : List SortEvent :=
  if key y < key x then [.compare index, .exchange index] else [.compare index]

/-- One comparison and the step to the next, with the objects at `before` and `index`. -/
def Frame.scan (key : α → Int) (note : Nat → β → β) (before index : Nat) (x y : α) (f : Frame α β) :
    Frame α β where
  array := if key y < key x then (f.array.set index x).set before y else f.array
  events := f.events ++ scanEvents key index x y
  mark := if key y < key x then note index f.mark else f.mark
  begin := toInt32 (f.begin + 1)

variable {key : α → Int} {note : Nat → β → β} {mark : β} {top : Nat} {m : Memory α}

theorem comparesOf_scanEvents (key : α → Int) (index : Nat) (x y : α) :
    comparesOf (scanEvents key index x y) = [index] := by
  rw [scanEvents]
  split <;> rfl

theorem exchangesOf_scanEvents (key : α → Int) (index : Nat) (x y : α) :
    exchangesOf (scanEvents key index x y) = if key y < key x then [index] else [] := by
  rw [scanEvents]
  split <;> rfl

theorem pass_notMem_scanEvents (key : α → Int) (index : Nat) (x y : α) (endIndex : Nat) :
    SortEvent.pass endIndex ∉ scanEvents key index x y := by
  rw [scanEvents]
  split <;> simp

theorem Frame.scan_length (before index : Nat) (x y : α) (f : Frame α β) :
    (f.scan key note before index x y).array.length = f.array.length := by
  rw [Frame.scan]
  split <;> simp

/-- After `b` comparisons of a pass that scans up to `top`, whatever the length; `es` are
the events of the pass so far. -/
structure ScanInv (top : Nat) (m : Memory α) (b : Nat) (es : List SortEvent) (f : Frame α β) : Prop where
  bound : b + 1 < 2 ^ 32
  inside : intIndex b ≤ top
  begin_eq : f.begin = toInt32 (b + 1 : Nat)
  length_eq : f.array.length = m.array.length
  events_eq : f.events = m.events ++ .pass top :: es
  compared : comparesOf es = (List.range' 1 b).map intIndex
  exchanged : ∀ s ∈ exchangesOf es, s ∈ comparesOf es
  single : ∀ endIndex, SortEvent.pass endIndex ∉ es

theorem ScanInv.start : ScanInv top m 0 [] (⟨m.array, m.events ++ [.pass top], mark, 1⟩ : Frame α β) where
  bound := by omega
  inside := Nat.zero_le _
  begin_eq := by
    rw [toInt32_of_range] <;> simp
  length_eq := rfl
  events_eq := rfl
  compared := rfl
  exchanged _ h := h
  single _ h := nomatch h

theorem ScanInv.next {b : Nat} {es : List SortEvent} {f : Frame α β} (h : ScanInv top m b es f)
    (hTop : top < 2 ^ 64 - 1) (hInside : intIndex (b + 1) ≤ top) (x y : α) :
    ScanInv top m (b + 1) (es ++ scanEvents key (intIndex (b + 1)) x y)
      (f.scan key note (intIndex b) (intIndex (b + 1)) x y) := by
  refine ⟨succ_lt_of_intIndex_le h.bound hTop hInside, hInside, ?_, ?_, ?_, ?_, ?_, ?_⟩
  · simp only [Frame.scan, h.begin_eq, toInt32_next]
  · rw [Frame.scan_length, h.length_eq]
  · simp [Frame.scan, h.events_eq]
  · rw [comparesOf_append, h.compared, comparesOf_scanEvents, List.range'_1_concat, List.map_append,
      Nat.add_comm 1 b]
    rfl
  · intro s hs
    rw [exchangesOf_append, exchangesOf_scanEvents] at hs
    rw [comparesOf_append, comparesOf_scanEvents]
    obtain hs | hs := List.mem_append.mp hs
    · exact List.mem_append_left _ (h.exchanged s hs)
    · split at hs
      · exact List.mem_append_right _ hs
      · exact absurd hs List.not_mem_nil
  · intro endIndex hPass
    obtain hPass | hPass := List.mem_append.mp hPass
    · exact h.single endIndex hPass
    · exact pass_notMem_scanEvents _ _ _ _ endIndex hPass

variable (intValue : α → Int32) (note mark)

theorem compareAndExchange_inside {b : Nat} {f : Frame α β} {x y : α}
    (hBegin : f.begin = toInt32 (b + 1 : Nat)) (hx : f.array[intIndex b]? = some x)
    (hy : f.array[intIndex (b + 1)]? = some y) :
    ∃ f', compareAndExchange intValue note f = .ok (.next f') ∧
      { f' with begin := toInt32 (f'.begin + 1) } =
        f.scan (value intValue) note (intIndex b) (intIndex (b + 1)) x y := by
  have hIndex : toNSUInteger f.begin = intIndex (b + 1) := congrArg toNSUInteger hBegin
  have hBefore : toNSUInteger (toInt32 (f.begin - 1)) = intIndex b := by
    rw [hBegin, toInt32_previous]
    rfl
  obtain ⟨hxBound, _⟩ := List.getElem?_eq_some_iff.mp hx
  obtain ⟨hyBound, _⟩ := List.getElem?_eq_some_iff.mp hy
  have hxBound : intIndex b < (f.array.set (intIndex (b + 1)) x).length := by
    rw [List.length_set]
    exact hxBound
  by_cases h : value intValue y < value intValue x
  · have hLess : intValue y < intValue x := Int32.lt_iff_toInt_lt.mpr h
    refine ⟨{ f with
      array := (f.array.set (intIndex (b + 1)) x).set (intIndex b) y
      events := f.events ++ [.compare (intIndex (b + 1)), .exchange (intIndex (b + 1))]
      mark := note (intIndex (b + 1)) f.mark }, ?_, ?_⟩
    · simp [compareAndExchange, hIndex, hBefore, objectAt_of_getElem? hx, objectAt_of_getElem? hy,
        setObject_of_lt hyBound, setObject_of_lt hxBound, hLess, bind, Except.bind, pure, Except.pure]
    · simp only [Frame.scan, scanEvents, if_pos h]
  · have hLess : ¬ intValue y < intValue x := fun hLess => h (Int32.lt_iff_toInt_lt.mp hLess)
    refine ⟨{ f with events := f.events ++ [.compare (intIndex (b + 1))] }, ?_, ?_⟩
    · simp [compareAndExchange, hIndex, hBefore, objectAt_of_getElem? hx, objectAt_of_getElem? hy,
        hLess, bind, Except.bind, pure, Except.pure]
    · simp only [Frame.scan, scanEvents, if_neg h]

/-- The rule of a pass: it returns, having compared every pair that its `int` reaches, with
whatever each comparison keeps. -/
theorem bubblePass_scans (carried : Nat → List SortEvent → Frame α β → Prop)
    (hSize : m.array.length < 2 ^ 64) (hTop : top < m.array.length) {fuel : Nat} (hFuel : top < fuel)
    (hStart : carried 0 [] ⟨m.array, m.events ++ [.pass top], mark, 1⟩)
    (hStep : ∀ b es f x y, ScanInv top m b es f → carried b es f → intIndex (b + 1) ≤ top →
      f.array[intIndex b]? = some x → f.array[intIndex (b + 1)]? = some y →
      carried (b + 1) (es ++ scanEvents (value intValue) (intIndex (b + 1)) x y)
        (f.scan (value intValue) note (intIndex b) (intIndex (b + 1)) x y)) :
    ∃ f, bubblePass intValue note mark fuel top m = .ok f ∧
      ∃ b es, ScanInv top m b es f ∧ top < intIndex (b + 1) ∧ carried b es f := by
  apply loop_total_ranked fun rank f =>
    ∃ b es, rank = top - intIndex b ∧ ScanInv top m b es f ∧ carried b es f
  · rintro rank f ⟨b, es, hRank, hScan, hCarried⟩
    have hIndex : toNSUInteger f.begin = intIndex (b + 1) := congrArg toNSUInteger hScan.begin_eq
    have hLength := hScan.length_eq
    have hBefore := intIndex_lt_succ hScan.bound
    obtain hEnd | hInside := Nat.lt_or_ge top (intIndex (b + 1))
    · exact .inl ⟨by simp [hIndex, hEnd], b, es, hScan, hEnd, hCarried⟩
    · obtain ⟨x, hx⟩ : ∃ x, f.array[intIndex b]? = some x := ⟨_, List.getElem?_eq_getElem (by omega)⟩
      obtain ⟨y, hy⟩ : ∃ y, f.array[intIndex (b + 1)]? = some y :=
        ⟨_, List.getElem?_eq_getElem (by omega)⟩
      obtain ⟨f', hBody, hNext⟩ := compareAndExchange_inside note intValue hScan.begin_eq hx hy
      refine .inr ⟨by simp [hIndex, hInside], .next f', hBody, top - intIndex (b + 1), by omega, ?_⟩
      simp only [hNext]
      exact ⟨b + 1, _, rfl, hScan.next (by omega) hInside x y,
        hStep b es f x y hScan hCarried hInside hx hy⟩
  · exact ⟨0, [], rfl, .start, hStart⟩
  · omega

end Pass

/-- The run returns, and it has neither read behind the last index nor written there: a
write at the count would have made the array longer. -/
def StaysInRange (array : List α) (run : Except (Halt RangeException) (List α)) : Prop :=
  ∃ result, run = .ok result ∧ result.length = array.length

theorem not_staysInRange_error (array : List α) (e : Halt RangeException) :
    ¬ StaysInRange array (.error e) := by
  rintro ⟨_, hRun, _⟩
  cases hRun

section Bubble

variable (intValue : α → Int32) (note : Nat → β → β) (mark : β) (leaves : β → Bool) {fuel : Nat}

theorem bubbleSort_inRange (array : List α) (hPos : 0 < array.length) (hSize : array.length < 2 ^ 64)
    (hFuel : array.length ≤ fuel) :
    StaysInRange array ((bubbleSort intValue note mark leaves fuel array).map Memory.array) := by
  have hEnds : ∃ s, bubbleSortLoop intValue note mark leaves fuel array = .ok s ∧
      s.1.array.length = array.length := by
    apply loop_total (fun s => s.1.array.length = array.length ∧ s.2 < array.length) (fun s => s.2)
    · rintro s ⟨hLength, hTop⟩
      obtain hZero | hTopPos := Nat.eq_zero_or_pos s.2
      · exact .inl ⟨by simp [hZero], hLength⟩
      have hInside : s.2 < s.1.array.length := hTop.trans_eq hLength.symm
      have hSteps : s.2 < fuel := hTop.trans_le hFuel
      obtain ⟨f, hRun, b, es, hScan, -, -⟩ := bubblePass_scans note mark intValue (fun _ _ _ => True)
        (hLength.trans_lt hSize) hInside hSteps trivial (fun _ _ _ _ _ _ _ _ _ _ => trivial)
      have hKept : f.array.length = array.length := hScan.length_eq.trans hLength
      refine .inr ⟨by simp [hTopPos], ?_⟩
      by_cases hLeave : leaves f.mark = true
      · refine ⟨.leave (⟨f.array, f.events⟩, s.2), ?_, hKept⟩
        simp [hRun, hLeave, bind, Except.bind, pure, Except.pure]
      · refine ⟨.next (⟨f.array, f.events⟩, s.2), ?_, ⟨hKept, ?_⟩, Nat.sub_lt hTopPos Nat.one_pos⟩
        · simp [hRun, hLeave, bind, Except.bind, pure, Except.pure]
        · exact Nat.lt_of_le_of_lt (Nat.sub_le _ _) hTop
    · refine ⟨rfl, ?_⟩
      simp only [lastIndex_eq hPos hSize]
      omega
    · simp only [lastIndex_eq hPos hSize]
      omega
  obtain ⟨s, hRun, hLength⟩ := hEnds
  exact ⟨s.1.array, by rw [bubbleSort, hRun]; rfl, hLength⟩

/-- The first comparison already reads index 1 of an empty array. -/
theorem bubbleSort_empty (fuel : Nat) : bubbleSort intValue note mark leaves (fuel + 1) ([] : List α) =
    .error (.raised ⟨1, 0⟩) := rfl

theorem bubbleSort_empty_notInRange (fuel : Nat) :
    ¬ StaysInRange [] ((bubbleSort intValue note mark leaves fuel ([] : List α)).map Memory.array) := by
  cases fuel with
  | zero => exact not_staysInRange_error _ _
  | succ fuel =>
    rw [bubbleSort_empty]
    exact not_staysInRange_error _ _

theorem bubbleSort_inRange_iff (array : List α) (hSize : array.length < 2 ^ 64)
    (hFuel : array.length ≤ fuel) :
    StaysInRange array ((bubbleSort intValue note mark leaves fuel array).map Memory.array) ↔ array ≠ [] := by
  constructor
  · rintro hInRange rfl
    exact bubbleSort_empty_notInRange intValue note mark leaves fuel hInRange
  · intro hNonempty
    exact bubbleSort_inRange intValue note mark leaves array (List.length_pos_iff.mpr hNonempty) hSize hFuel

end Bubble

section Selection

variable (intValue : α → Int32) {fuel : Nat}

theorem selectionMax_inRange {array : List α} {top : Nat} (hSize : array.length < 2 ^ 64)
    (hTop : top < array.length) (hFuel : top < fuel) :
    ∃ s, selectionMax intValue fuel top array = .ok s ∧ toNSUInteger s.1 ≤ top := by
  apply loop_total_ranked fun rank s => ∃ b, rank = top - intIndex b ∧ b + 1 < 2 ^ 32 ∧
    intIndex b ≤ top ∧ s.2 = toInt32 (b + 1 : Nat) ∧ toNSUInteger s.1 ≤ top
  · rintro rank ⟨maxIndex, begin⟩ ⟨b, hRank, hBound, hBefore, hBegin, hMax⟩
    have hIndex : toNSUInteger begin = intIndex (b + 1) := congrArg toNSUInteger hBegin
    have hNext : toInt32 (begin + 1) = toInt32 (b + 1 + 1 : Nat) :=
      (congrArg (fun z => toInt32 (z + 1)) hBegin).trans (toInt32_next (b + 1))
    have hAscends := intIndex_lt_succ hBound
    obtain hEnd | hInside := Nat.lt_or_ge top (intIndex (b + 1))
    · exact .inl ⟨by simp [hIndex, hEnd], hMax⟩
    obtain ⟨x, hx⟩ : ∃ x, array[toNSUInteger maxIndex]? = some x :=
      ⟨_, List.getElem?_eq_getElem (Nat.lt_of_le_of_lt hMax hTop)⟩
    obtain ⟨y, hy⟩ : ∃ y, array[toNSUInteger begin]? = some y :=
      ⟨_, List.getElem?_eq_getElem (by omega)⟩
    refine .inr ⟨by simp [hIndex, hInside],
      .next (if intValue x ≤ intValue y then (begin, begin) else (maxIndex, begin)), ?_,
      top - intIndex (b + 1), by omega, b + 1, rfl, ?_, hInside, ?_, ?_⟩
    · simp only [objectAt_of_getElem? hx, objectAt_of_getElem? hy, bind, Except.bind, pure, Except.pure]
    · exact succ_lt_of_intIndex_le hBound (by omega) hInside
    · split <;> exact hNext
    · split
      · exact hIndex ▸ hInside
      · exact hMax
  · exact ⟨0, rfl, by omega, Nat.zero_le _, (toInt32_of_range (by omega) (by omega)).symm, Nat.zero_le _⟩
  · omega

theorem selectionSort_inRange (array : List α) (hPos : 0 < array.length)
    (hSize : array.length < 2 ^ 64) (hFuel : array.length ≤ fuel) :
    StaysInRange array ((selectionSort intValue fuel array).map Prod.fst) := by
  have hEnds : ∃ s, selectionSortLoop intValue fuel array = .ok s ∧ s.1.1.length = array.length := by
    apply loop_total (fun s => s.1.1.length = array.length ∧ s.2 < array.length) (fun s => s.2)
    · rintro s ⟨hLength, hTop⟩
      obtain hZero | hTopPos := Nat.eq_zero_or_pos s.2
      · exact .inl ⟨by simp [hZero], hLength⟩
      have hInside : s.2 < s.1.1.length := hTop.trans_eq hLength.symm
      have hSteps : s.2 < fuel := hTop.trans_le hFuel
      obtain ⟨found, hRun, hMax⟩ := selectionMax_inRange intValue (hLength.trans_lt hSize) hInside hSteps
      obtain ⟨x, hx⟩ : ∃ x, s.1.1[toNSUInteger found.1]? = some x :=
        ⟨_, List.getElem?_eq_getElem (by omega)⟩
      obtain ⟨y, hy⟩ : ∃ y, s.1.1[s.2]? = some y := ⟨_, List.getElem?_eq_getElem (by omega)⟩
      let after := (s.1.1.set (toNSUInteger found.1) y).set s.2 x
      refine .inr ⟨by simp [hTopPos], .next ((after, s.1.2 ++ [⟨s.2, s.1.1, after⟩]), s.2), ?_, ⟨?_, ?_⟩,
        Nat.sub_lt hTopPos Nat.one_pos⟩
      · simp [hRun, exchange_eq hx hy, after, bind, Except.bind, pure, Except.pure]
      · simp only [after, List.length_set, hLength]
      · exact Nat.lt_of_le_of_lt (Nat.sub_le _ _) hTop
    · refine ⟨rfl, ?_⟩
      simp only [lastIndex_eq hPos hSize]
      omega
    · simp only [lastIndex_eq hPos hSize]
      omega
  obtain ⟨s, hRun, hLength⟩ := hEnds
  exact ⟨s.1.1, by rw [selectionSort, hRun]; rfl, hLength⟩

theorem selectionSort_empty (fuel : Nat) :
    selectionSort intValue (fuel + 1) ([] : List α) = .error (.raised ⟨0, 0⟩) := rfl

theorem selectionSort_empty_notInRange (fuel : Nat) :
    ¬ StaysInRange [] ((selectionSort intValue fuel ([] : List α)).map Prod.fst) := by
  cases fuel with
  | zero => exact not_staysInRange_error _ _
  | succ fuel =>
    rw [selectionSort_empty]
    exact not_staysInRange_error _ _

end Selection

/-- Of the arrays of any length the four sorts run outside of the empty one alone. -/
theorem exchangeSorts_inRange_iff (intValue : α → Int32) (array : List α) (hSize : array.length < 2 ^ 64)
    (fuel : Nat) (hFuel : array.length ≤ fuel) :
    (StaysInRange array ((bubbleSort1 intValue fuel array).map Memory.array) ↔ array ≠ []) ∧
      (StaysInRange array ((bubbleSort2 intValue fuel array).map Memory.array) ↔ array ≠ []) ∧
      (StaysInRange array ((bubbleSort3 intValue fuel array).map Memory.array) ↔ array ≠ []) ∧
      (StaysInRange array ((selectionSort intValue fuel array).map Prod.fst) ↔ array ≠ []) := by
  refine ⟨bubbleSort_inRange_iff intValue _ _ _ array hSize hFuel,
    bubbleSort_inRange_iff intValue _ _ _ array hSize hFuel,
    bubbleSort_inRange_iff intValue _ _ _ array hSize hFuel, ?_⟩
  constructor
  · rintro hInRange rfl
    exact selectionSort_empty_notInRange intValue fuel hInRange
  · intro hNonempty
    exact selectionSort_inRange intValue array (List.length_pos_iff.mpr hNonempty) hSize hFuel

theorem exchangeSorts_inRange_iff_three :
    (StaysInRange [3, 1, 2] ((bubbleSort1 id 3 [3, 1, 2]).map Memory.array) ↔ ([3, 1, 2] : List Int32) ≠ []) ∧
      (StaysInRange [3, 1, 2] ((bubbleSort2 id 3 [3, 1, 2]).map Memory.array) ↔
        ([3, 1, 2] : List Int32) ≠ []) ∧
      (StaysInRange [3, 1, 2] ((bubbleSort3 id 3 [3, 1, 2]).map Memory.array) ↔
        ([3, 1, 2] : List Int32) ≠ []) ∧
      (StaysInRange [3, 1, 2] ((selectionSort id 3 [3, 1, 2]).map Prod.fst) ↔
        ([3, 1, 2] : List Int32) ≠ []) :=
  exchangeSorts_inRange_iff id [3, 1, 2] (by decide) 3 (by decide)

/-- On the empty array each of the four raises, whatever the number of its steps. -/
theorem exchangeSorts_raise_empty :
    (∀ fuel, ¬ StaysInRange [] ((bubbleSort1 id fuel ([] : List Int32)).map Memory.array)) ∧
      (∀ fuel, ¬ StaysInRange [] ((bubbleSort2 id fuel ([] : List Int32)).map Memory.array)) ∧
      (∀ fuel, ¬ StaysInRange [] ((bubbleSort3 id fuel ([] : List Int32)).map Memory.array)) ∧
      ∀ fuel, ¬ StaysInRange [] ((selectionSort id fuel ([] : List Int32)).map Prod.fst) :=
  ⟨bubbleSort_empty_notInRange id _ _ _, bubbleSort_empty_notInRange id _ _ _,
    bubbleSort_empty_notInRange id _ _ _, selectionSort_empty_notInRange id⟩

end OCNote.Sort
