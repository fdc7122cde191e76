import Mathlib.Data.List.Chain
import OCNote.Sort.BubbleSort

/-! # The insertion sort

The inner loop carries an object towards the front as long as the difference to its
neighbour, an `int`, comes out negative. It has no bound of its own, so an object has to
be stopped by one before it, and the outer loop ends before the last position. -/

namespace OCNote.Sort
open OCNote.Support
set_option autoImplicit false

variable {α : Type}

section Comparison

variable (intValue : α → Int32)

/-- The condition of the inner loop. -/
def Moves (x y : α) : Prop := intValue x - intValue y < 0

/-- A difference wraps around where it does not fit in 32 bits. -/
theorem moves_iff (x y : α) : Moves intValue x y ↔
    (-2 ^ 31 ≤ value intValue x - value intValue y ∧ value intValue x < value intValue y) ∨
      2 ^ 31 ≤ value intValue x - value intValue y := by
  have hx := Int32.le_toInt (intValue x)
  have hx' := Int32.toInt_lt (intValue x)
  have hy := Int32.le_toInt (intValue y)
  have hy' := Int32.toInt_lt (intValue y)
  unfold Moves value
  rw [Int32.lt_iff_toInt_lt, Int32.toInt_sub, Int32.toInt_zero]
  simp only [Int.bmod_def]
  split <;> omega

def Close (x y : α) : Prop :=
  value intValue x ≤ value intValue y ∧ value intValue y - value intValue x < 2 ^ 31

theorem not_moves_of_close {x y : α} (h : Close intValue y x) : ¬ Moves intValue x y := by
  obtain ⟨hLe, hLess⟩ := h
  rw [moves_iff]
  omega

theorem close_of_not_moves {x y : α} (hNot : ¬ Moves intValue x y)
    (hDifference : value intValue y - value intValue x ≤ 2 ^ 31) : Close intValue y x := by
  rw [moves_iff] at hNot
  unfold Close
  omega

end Comparison

section InnerLoop

variable (intValue : α → Int32) {fuel : Nat} {front back : List α} {x y : α}

theorem previous_index {begin : Nat} (h : begin < 2 ^ 64) :
    toNSUInteger ((begin + 1 : Nat) - 1) = begin := by
  simpa using toNSUInteger_of_nat h

theorem objectAt_append (front back : List α) (x : α) :
    objectAt (front ++ x :: back) front.length = .ok x :=
  objectAt_of_getElem? (by simp)

theorem exchange_neighbours : exchange (front ++ y :: x :: back) (front.length + 1) front.length =
    .ok (front ++ x :: y :: back) := by
  simp [exchange, objectAt, setObject, bind, Except.bind]

theorem insertionWhile_moves (hSize : front.length < 2 ^ 64) (h : Moves intValue x y) :
    insertionWhile intValue (fuel + 1) ⟨front ++ y :: x :: back, front.length + 1⟩ =
      insertionWhile intValue fuel ⟨front ++ x :: y :: back, front.length⟩ := by
  have hx : objectAt (front ++ y :: x :: back) (front.length + 1) = .ok x :=
    objectAt_of_getElem? (by simp)
  have hy := objectAt_append front (x :: back) y
  have hMoves : intValue x - intValue y < 0 := h
  rw [insertionWhile, loop]
  simp only [previous_index hSize, hx, hy, exchange_neighbours, hMoves, bind, Except.bind, pure,
    Except.pure, decide_true, id]
  rfl

theorem insertionWhile_stops (hSize : front.length < 2 ^ 64) (h : ¬ Moves intValue x y) :
    insertionWhile intValue (fuel + 1) ⟨front ++ y :: x :: back, front.length + 1⟩ =
      .ok ⟨front ++ y :: x :: back, front.length + 1⟩ := by
  have hx : objectAt (front ++ y :: x :: back) (front.length + 1) = .ok x :=
    objectAt_of_getElem? (by simp)
  have hy := objectAt_append front (x :: back) y
  have hStops : ¬ intValue x - intValue y < 0 := h
  rw [insertionWhile, loop]
  simp only [previous_index hSize, hx, hy, hStops, bind, Except.bind, pure, Except.pure, decide_false]

/-- At the front the object is compared with the one at index -1, as an `NSUInteger`. -/
theorem insertionWhile_raises (hSize : (x :: back).length < 2 ^ 64) :
    insertionWhile intValue (fuel + 1) ⟨x :: back, 0⟩ =
      .error (.raised ⟨2 ^ 64 - 1, (x :: back).length⟩) := by
  have hIndex : toNSUInteger ((0 : Nat) - 1) = 2 ^ 64 - 1 := rfl
  have hNone : (x :: back)[2 ^ 64 - 1]? = none := List.getElem?_eq_none (by omega)
  rw [insertionWhile, loop]
  simp only [hIndex, objectAt, hNone, bind, Except.bind]
  rfl

/-- The object at `begin` ends right behind the last one that stops it. -/
structure Inserted (front back : List α) (x : α) (kept passed : List α) (w : α) (s : Cursor α) : Prop where
  split : front = kept ++ w :: passed
  stops : ¬ Moves intValue x w
  moves : ∀ y ∈ passed, Moves intValue x y
  array : s.array = kept ++ w :: x :: passed ++ back
  begin_eq : s.begin = kept.length + 1

theorem insertionWhile_inserts {s : Cursor α} (hSize : (front ++ x :: back).length < 2 ^ 64)
    (hRun : insertionWhile intValue fuel ⟨front ++ x :: back, front.length⟩ = .ok s) :
    ∃ kept passed w, Inserted intValue front back x kept passed w s := by
  induction front using List.reverseRecOn generalizing back fuel with
  | nil =>
    cases fuel with
    | zero => cases hRun
    | succ fuel =>
      rw [List.nil_append, List.length_nil, insertionWhile_raises intValue hSize] at hRun
      cases hRun
  | append_singleton front y ih =>
    cases fuel with
    | zero => cases hRun
    | succ fuel =>
      simp only [List.append_assoc, List.singleton_append, List.length_append, List.length_cons,
        List.length_nil, Nat.zero_add] at hRun hSize
      by_cases hMoves : Moves intValue x y
      · rw [insertionWhile_moves intValue (by omega) hMoves] at hRun
        obtain ⟨kept, passed, w, h⟩ := ih (by simp; omega) hRun
        refine ⟨kept, passed ++ [y], w, by simp [h.split], h.stops, ?_, by simp [h.array], h.begin_eq⟩
        intro z hz
        obtain hz | hz := List.mem_append.mp hz
        · exact h.moves z hz
        · rwa [List.mem_singleton.mp hz]
      · rw [insertionWhile_stops intValue (by omega) hMoves] at hRun
        cases hRun
        exact ⟨front, [], y, rfl, hMoves, by simp, by simp, rfl⟩

theorem insertionWhile_ends (fuel : Nat) (hSize : (front ++ x :: back).length < 2 ^ 64)
    (hStops : ∃ y ∈ front, ¬ Moves intValue x y) (hFuel : front.length < fuel) :
    ∃ s, insertionWhile intValue fuel ⟨front ++ x :: back, front.length⟩ = .ok s := by
  induction front using List.reverseRecOn generalizing back fuel with
  | nil =>
    obtain ⟨y, hy, _⟩ := hStops
    cases hy
  | append_singleton front y ih =>
    cases fuel with
    | zero => omega
    | succ fuel =>
      simp only [List.append_assoc, List.singleton_append, List.length_append, List.length_cons,
        List.length_nil, Nat.zero_add] at hSize hFuel ⊢
      by_cases hMoves : Moves intValue x y
      · rw [insertionWhile_moves intValue (by omega) hMoves]
        refine ih fuel (by simp; omega) ?_ (by omega)
        obtain ⟨z, hz, hNot⟩ := hStops
        obtain hz | hz := List.mem_append.mp hz
        · exact ⟨z, hz, hNot⟩
        · rw [List.mem_singleton.mp hz] at hNot
          exact absurd hMoves hNot
      · exact ⟨_, insertionWhile_stops intValue (by omega) hMoves⟩

end InnerLoop

section OuterLoop

variable (intValue : α → Int32) {array : List α}

/-- What the sort needs of an array. -/
structure Insertable (array : List α) : Prop where
  nonempty : array ≠ []
  last : ∀ front x, array = front ++ [x] → ∀ y ∈ front, value intValue y ≤ value intValue x
  /-- No object exceeds a later one by so much that the difference would wrap around. -/
  bounded : array.Pairwise fun x y => value intValue x - value intValue y ≤ 2 ^ 31
  /-- Between the first and the last object, each has one before it that stops it. -/
  anchored : ∀ front x back, array = front ++ x :: back → front ≠ [] → back ≠ [] →
    ∃ y ∈ front, Close intValue y x

theorem next_index {begin n : Nat} (h : begin < n) (hSize : n < 2 ^ 64) :
    toNSUInteger ((begin : Int) + 1) = begin + 1 := by
  have hNext : begin + 1 < 2 ^ 64 := by omega
  exact_mod_cast toNSUInteger_of_nat hNext

/-- One round of the outer loop that ends, seen from the object at `begin`. -/
theorem insertionBody_cases {fuel : Nat} {s : Cursor α} {flow : Cursor α}
    (hSize : s.array.length < 2 ^ 64)
    (hBody : (do
      let _current ← objectAt s.array s.begin
      pure (Flow.next (← insertionWhile intValue fuel s))) = .ok (Flow.next flow)) :
    ∃ front back x kept passed w, s.array = front ++ x :: back ∧ front.length = s.begin ∧
      Inserted intValue front back x kept passed w flow := by
  cases hAt : s.array[s.begin]? with
  | none => simp [objectAt, hAt, bind, Except.bind] at hBody
  | some x =>
    obtain ⟨hInside, hx⟩ := List.getElem?_eq_some_iff.mp hAt
    obtain ⟨array, begin⟩ := s
    simp only at hInside hx hSize hAt hBody ⊢
    have hLength : (array.take begin).length = begin := by simp; omega
    have hSplit : array = array.take begin ++ x :: array.drop (begin + 1) := by
      conv_lhs => rw [← List.take_append_drop begin array]
      rw [List.drop_eq_getElem_cons hInside, hx]
    simp only [objectAt_of_getElem? hAt, bind, Except.bind, pure, Except.pure] at hBody
    split at hBody
    · cases hBody
    · rename_i s' hRun
      cases hBody
      rw [hSplit] at hSize
      have hRun' : insertionWhile intValue fuel
          ⟨array.take begin ++ x :: array.drop (begin + 1), (array.take begin).length⟩ = .ok flow := by
        rw [← hSplit, hLength]
        exact hRun
      obtain ⟨kept, passed, w, h⟩ := insertionWhile_inserts intValue hSize hRun'
      exact ⟨_, _, x, kept, passed, w, hSplit, hLength, h⟩

/-- `front` holds the objects of `orig`, the part of the array that has been scanned. -/
structure Scan (array orig front rest : List α) (s : Cursor α) : Prop where
  split : array = orig ++ rest
  array_eq : s.array = front ++ rest
  perm : front.Perm orig
  begin_pos : 0 < s.begin
  begin_le : s.begin ≤ orig.length
  length_le : orig.length ≤ max 1 (array.length - 1)

def Cursor.advance (s : Cursor α) : Cursor α := { s with begin := toNSUInteger (s.begin + 1) }

theorem Scan.start (x : α) (rest : List α) : Scan (x :: rest) [x] [x] rest ⟨x :: rest, 1⟩ where
  split := rfl
  array_eq := rfl
  perm := .refl _
  begin_pos := Nat.one_pos
  begin_le := le_rfl
  length_le := Nat.le_max_left _ _

theorem Scan.length_eq {orig front rest : List α} {s : Cursor α} (h : Scan array orig front rest s) :
    s.array.length = array.length := by
  rw [h.array_eq, h.split, List.length_append, List.length_append, h.perm.length_eq]

theorem Scan.lastIndex_eq {orig front rest : List α} {s : Cursor α} (h : Scan array orig front rest s)
    (hPos : 0 < array.length) (hSize : array.length < 2 ^ 64) : lastIndex s.array = array.length - 1 := by
  have hLength := h.length_eq
  rw [OCNote.Sort.lastIndex_eq (by omega) (by omega), hLength]

/-- The last position is not scanned. -/
theorem Scan.rest_cases {orig front rest : List α} {s : Cursor α} (h : Scan array orig front rest s)
    (hEnd : ¬ s.begin < array.length - 1) : rest = [] ∨ ∃ x, rest = [x] := by
  have hLength := congrArg List.length h.split
  have hBegin := h.begin_le
  rw [List.length_append] at hLength
  match rest, hLength with
  | [], _ => exact .inl rfl
  | [x], _ => exact .inr ⟨x, rfl⟩
  | x :: y :: rest, hLength =>
    simp only [List.length_cons] at hLength
    omega

theorem split_at_length {front back front' rest : List α} {x : α}
    (h : front ++ x :: back = front' ++ rest) (hLe : front.length ≤ front'.length) :
    (front = front' ∧ rest = x :: back) ∨ ∃ mid, front' = front ++ x :: mid ∧ back = mid ++ rest := by
  rcases List.append_eq_append_iff.mp h with ⟨mid, hFront, hBack⟩ | ⟨mid, hFront, hRest⟩
  · cases mid with
    | nil => exact .inl ⟨by simpa using hFront.symm, hBack.symm⟩
    | cons y mid =>
      obtain ⟨rfl, hTail⟩ := List.cons.inj hBack
      exact .inr ⟨mid, hFront, hTail⟩
  · cases mid with
    | nil => exact .inl ⟨by simpa using hFront, hRest⟩
    | cons y mid =>
      rw [hFront, List.length_append, List.length_cons] at hLe
      omega

/-- An insertion takes place inside the scanned part, or adds the next object to it. -/
theorem Scan.insert {orig front rest left right kept passed : List α} {x w : α} {s s' : Cursor α}
    (h : Scan array orig front rest s) (hSize : array.length < 2 ^ 64) (hTest : s.begin < array.length - 1)
    (hArray : s.array = left ++ x :: right) (hBegin : left.length = s.begin)
    (hInserted : Inserted intValue left right x kept passed w s') :
    (left = front ∧ rest = x :: right ∧
      Scan array (orig ++ [x]) (kept ++ w :: x :: passed) right s'.advance) ∨
    ∃ mid, front = left ++ x :: mid ∧ right = mid ++ rest ∧
      Scan array orig (kept ++ w :: x :: (passed ++ mid)) rest s'.advance := by
  have hLeft := congrArg List.length hInserted.split
  simp only [List.length_append, List.length_cons] at hLeft
  have hBeginLe := h.begin_le
  have hNext : s'.advance.begin = kept.length + 2 := by
    have hIndex : s'.begin < array.length := by rw [hInserted.begin_eq]; omega
    exact (next_index hIndex hSize).trans (by rw [hInserted.begin_eq])
  have hPerm : (kept ++ w :: x :: passed).Perm (left ++ [x]) := by
    rw [hInserted.split]
    simpa using ((List.perm_append_singleton x passed).symm.cons w).append_left kept
  obtain ⟨hFront, hRest⟩ | ⟨mid, hFront, hRight⟩ :=
    split_at_length (hArray.symm.trans h.array_eq) (by rw [hBegin, h.perm.length_eq]; exact hBeginLe)
  · have hLength := h.perm.length_eq
    rw [← hFront] at hLength
    refine .inl ⟨hFront, hRest, by rw [h.split, hRest]; simp, by simp [Cursor.advance, hInserted.array], ?_,
      by omega, by simp only [List.length_append, List.length_singleton]; omega,
      by simp only [List.length_append, List.length_singleton]; omega⟩
    exact hPerm.trans ((hFront ▸ h.perm).append_right [x])
  · have hLength := h.perm.length_eq
    rw [hFront, List.length_append, List.length_cons] at hLength
    refine .inr ⟨mid, hFront, hRight, h.split, by simp [Cursor.advance, hInserted.array, hRight], ?_, by omega,
      by omega, h.length_le⟩
    have hMid := hPerm.append_right mid
    rw [hFront] at h
    simpa using hMid.trans (by simpa using h.perm)

end OuterLoop

section Necessity

variable (intValue : α → Int32) {array : List α}

/-- What a run of the sort that has not raised says about the array it began with. -/
structure Passed (array orig : List α) (s : Cursor α) : Prop where
  bounded : (s.array.Pairwise fun x y => value intValue x - value intValue y ≤ 2 ^ 31) →
    array.Pairwise fun x y => value intValue x - value intValue y ≤ 2 ^ 31
  stopped : ∀ front x back, orig = front ++ x :: back → front ≠ [] → ∃ y ∈ front, ¬ Moves intValue x y

theorem pairwise_of_moved {R : α → α → Prop} {front passed back : List α} {x : α}
    (hPassed : ∀ y ∈ passed, R y x) (h : (front ++ x :: (passed ++ back)).Pairwise R) :
    (front ++ passed ++ x :: back).Pairwise R := by
  simp only [List.append_assoc, List.pairwise_append, List.pairwise_cons, List.mem_append, List.mem_cons] at h ⊢
  obtain ⟨hFront, ⟨hx, hPass, hBack, hAcross⟩, hBefore⟩ := h
  refine ⟨hFront, ⟨hPass, ⟨fun y hy => hx y (.inr hy), hBack⟩, ?_⟩, ?_⟩
  · rintro y hy z (rfl | hz)
    · exact hPassed y hy
    · exact hAcross y hy z hz
  · rintro y hy z (hz | rfl | hz)
    · exact hBefore y hy z (.inr (.inl hz))
    · exact hBefore y hy z (.inl rfl)
    · exact hBefore y hy z (.inr (.inr hz))

theorem Inserted.bounded {left right kept passed : List α} {x w : α} {s : Cursor α}
    (h : Inserted intValue left right x kept passed w s)
    (hAfter : s.array.Pairwise fun x y => value intValue x - value intValue y ≤ 2 ^ 31) :
    (left ++ x :: right).Pairwise fun x y => value intValue x - value intValue y ≤ 2 ^ 31 := by
  have hMoved : (kept ++ [w] ++ passed ++ x :: right).Pairwise fun x y =>
      value intValue x - value intValue y ≤ 2 ^ 31 := by
    refine pairwise_of_moved (fun y hy => ?_) (by simpa [h.array] using hAfter)
    have hMoves := (moves_iff intValue x y).mp (h.moves y hy)
    omega
  simpa [h.split] using hMoved

theorem Passed.insert {orig front rest left right kept passed : List α} {x w : α} {s s' : Cursor α}
    (h : Passed intValue array orig s) (hScan : Scan array orig front rest s)
    (hArray : s.array = left ++ x :: right) (hInserted : Inserted intValue left right x kept passed w s') :
    Passed intValue array orig s'.advance ∧
      (left = front → Passed intValue array (orig ++ [x]) s'.advance) := by
  have hBounded := fun hAfter => h.bounded (hArray ▸ hInserted.bounded intValue hAfter)
  refine ⟨⟨hBounded, h.stopped⟩, fun hFront => ⟨hBounded, ?_⟩⟩
  intro pre z post hSplit hPre
  obtain rfl | ⟨post', last, rfl⟩ := List.eq_nil_or_concat post
  · obtain ⟨rfl, hx⟩ := List.append_inj' hSplit rfl
    cases hx
    refine ⟨w, hScan.perm.subset ?_, hInserted.stops⟩
    rw [← hFront, hInserted.split]
    simp
  · have hInit : orig ++ [x] = (pre ++ z :: post') ++ [last] := by simpa using hSplit
    exact h.stopped pre z post' (List.append_inj' hInit rfl).1 hPre

theorem insertionSort_nil (fuel : Nat) (result : List α) : insertionSort intValue fuel [] ≠ .ok result := by
  cases fuel with
  | zero => exact fun h => by cases h
  | succ fuel =>
    intro h
    have hTest : decide (1 < lastIndex ([] : List α)) = true := rfl
    simp [insertionSort, insertionSortLoop, loop, hTest, objectAt, bind, Except.bind, Except.map] at h

theorem insertionSort_passes {fuel : Nat} {result : List α} (hSize : array.length < 2 ^ 64)
    (hRun : insertionSort intValue fuel array = .ok result) :
    ∃ orig front rest s, Scan array orig front rest s ∧ Passed intValue array orig s ∧
      s.array = result ∧ ¬ s.begin < array.length - 1 := by
  cases hArray : array with
  | nil => exact absurd (hArray ▸ hRun) (insertionSort_nil intValue fuel result)
  | cons x tail =>
    rw [← hArray]
    have hPos : 0 < array.length := by simp [hArray]
    cases hLoop : insertionSortLoop intValue fuel array with
    | error e => simp [insertionSort, hLoop, Except.map] at hRun
    | ok last =>
      have hResult : last.array = result := by simpa [insertionSort, hLoop, Except.map] using hRun
      refine loop_partial
        (fun s => ∃ orig front rest, Scan array orig front rest s ∧ Passed intValue array orig s)
        (fun s => s.array = result → ∃ orig front rest s, Scan array orig front rest s ∧
          Passed intValue array orig s ∧ s.array = result ∧ ¬ s.begin < array.length - 1)
        ?_ ?_ ?_ ?_ hLoop hResult
      · rintro s ⟨orig, front, rest, hScan, hPassed⟩ hEnd hEq
        rw [hScan.lastIndex_eq hPos hSize] at hEnd
        exact ⟨orig, front, rest, s, hScan, hPassed, hEq, by simpa using hEnd⟩
      · rintro s s' ⟨orig, front, rest, hScan, hPassed⟩ hGo hBody
        rw [hScan.lastIndex_eq hPos hSize] at hGo
        obtain ⟨left, right, y, kept, passed, w, hAt, hBegin, hInserted⟩ :=
          insertionBody_cases intValue (by rw [hScan.length_eq]; exact hSize) hBody
        obtain ⟨hSame, hMore⟩ := hPassed.insert intValue hScan hAt hInserted
        obtain ⟨hFront, _, hNext⟩ | ⟨mid, _, _, hNext⟩ :=
          hScan.insert intValue hSize (by simpa using hGo) hAt hBegin hInserted
        · exact ⟨_, _, _, hNext, hMore hFront⟩
        · exact ⟨_, _, _, hNext, hSame⟩
      · rintro s s' _ _ hBody
        simp [bind, Except.bind, pure, Except.pure] at hBody
        split at hBody
        · cases hBody
        · split at hBody <;> cases hBody
      · refine ⟨[x], [x], tail, hArray ▸ Scan.start x tail, fun h => h, ?_⟩
        intro front z back hSplit hFront
        cases front with
        | nil => exact absurd rfl hFront
        | cons y front => simp at hSplit

/-- A sorted result shows that the array was one that the sort can handle. -/
theorem insertable_of_sorted {fuel : Nat} {result : List α} (hSize : array.length < 2 ^ 64)
    (hRun : insertionSort intValue fuel array = .ok result)
    (hSorted : StablySorted (value intValue) array result) : Insertable intValue array := by
  obtain ⟨orig, front, rest, s, hScan, hPassed, rfl, hEnd⟩ := insertionSort_passes intValue hSize hRun
  have hAscending := hSorted.ascending
  have hBounded := hPassed.bounded (hAscending.imp fun hLe => by omega)
  rw [hScan.array_eq] at hAscending
  refine ⟨?_, ?_, hBounded, ?_⟩
  · rintro rfl
    exact insertionSort_nil intValue fuel _ hRun
  · intro init z hSplit y hy
    obtain rfl | ⟨z', rfl⟩ := hScan.rest_cases hEnd
    · have hLength := hScan.length_le
      have hOrig : orig = init ++ [z] := by rw [← hSplit, hScan.split, List.append_nil]
      rw [hSplit, hOrig] at hLength
      simp only [List.length_append, List.length_singleton] at hLength
      have hPos := List.length_pos_iff.mpr (List.ne_nil_of_mem hy)
      omega
    · obtain ⟨rfl, hz⟩ := List.append_inj' (hSplit.symm.trans hScan.split) rfl
      cases hz
      exact (List.pairwise_append.mp hAscending).2.2 y (hScan.perm.symm.subset hy) z (by simp)
  · intro pre x post hSplit hPre hPost
    have hInit : ∃ post', orig = pre ++ x :: post' := by
      obtain ⟨post', z, rfl⟩ : ∃ post' z, post = post' ++ [z] :=
        (List.eq_nil_or_concat' post).resolve_left hPost
      obtain rfl | ⟨z', rfl⟩ := hScan.rest_cases hEnd
      · exact ⟨post' ++ [z], by rw [← hSplit, hScan.split, List.append_nil]⟩
      · have hLast : orig ++ [z'] = (pre ++ x :: post') ++ [z] := by
          rw [← hScan.split, hSplit]
          simp
        exact ⟨post', (List.append_inj' hLast rfl).1⟩
    obtain ⟨post', hOrig⟩ := hInit
    obtain ⟨y, hy, hNot⟩ := hPassed.stopped pre x post' hOrig hPre
    rw [hSplit] at hBounded
    exact ⟨y, hy, close_of_not_moves intValue hNot
      ((List.pairwise_append.mp hBounded).2.2 y hy x List.mem_cons_self)⟩

end Necessity

section Sufficiency

variable (intValue : α → Int32) {array : List α}

/-- The scanned part is sorted without gaps that a difference could wrap around. -/
structure Ordered (orig front : List α) : Prop where
  rearranged : StablyRearranged (value intValue) orig front
  close : front.IsChain (Close intValue)

def Scan.rank (array orig : List α) (s : Cursor α) : Nat :=
  (array.length - orig.length) * (array.length + 1) + (orig.length - s.begin)

theorem Ordered.ascending {orig front : List α} (h : Ordered intValue orig front) :
    front.Pairwise fun x y => value intValue x ≤ value intValue y := by
  have hChain : front.IsChain fun x y => value intValue x ≤ value intValue y :=
    h.close.imp fun _ _ hClose => hClose.1
  have hTrans : Trans (fun x y : α => value intValue x ≤ value intValue y)
      (fun x y => value intValue x ≤ value intValue y) fun x y => value intValue x ≤ value intValue y :=
    ⟨fun hxy hyz => le_trans hxy hyz⟩
  exact hChain.pairwise

/-- Inside the scanned part nothing moves any more. -/
theorem Ordered.stays {orig left right kept passed : List α} {x w : α} {s : Cursor α} {back : List α}
    (h : Ordered intValue orig (left ++ x :: right))
    (hInserted : Inserted intValue left back x kept passed w s) : passed = [] := by
  obtain hNil | ⟨passed', y, rfl⟩ := List.eq_nil_or_concat passed
  · exact hNil
  · have hChain := h.close
    rw [hInserted.split] at hChain
    have hNeighbours : (kept ++ w :: passed' ++ y :: x :: right).IsChain (Close intValue) := by
      simpa using hChain
    exact absurd (hInserted.moves y (by simp))
      (not_moves_of_close intValue (List.isChain_append_cons_cons.mp hNeighbours).2.1)

/-- The next object is inserted behind the last one that is not above it. -/
theorem Ordered.insert {orig front back kept passed : List α} {x w : α} {s : Cursor α}
    (h : Ordered intValue orig front) (hBounded : ∀ y ∈ orig, value intValue y - value intValue x ≤ 2 ^ 31)
    (hInserted : Inserted intValue front back x kept passed w s) :
    Ordered intValue (orig ++ [x]) (kept ++ w :: x :: passed) := by
  have hAscending := h.ascending
  have hChain := h.close
  have hSplit := hInserted.split
  have hAnchor : Close intValue w x := by
    refine close_of_not_moves intValue hInserted.stops (hBounded w (h.rearranged.perm.subset ?_))
    rw [hSplit]
    simp
  rw [hSplit] at hAscending hChain
  have hAbove : ∀ y ∈ passed, value intValue x < value intValue y := by
    intro y hy
    have hMoves := (moves_iff intValue x y).mp (hInserted.moves y hy)
    have hw := (List.pairwise_cons.mp (List.pairwise_append.mp hAscending).2.1).1 y hy
    obtain ⟨_, hNear⟩ := hAnchor
    omega
  constructor
  · refine (h.rearranged.append [x]).trans ?_
    rw [hSplit]
    have hMove : StablyRearranged (value intValue) (kept ++ [w] ++ passed ++ [x])
        (kept ++ [w] ++ x :: passed ++ []) :=
      .move (kept ++ [w]) passed [] fun y hy => (hAbove y hy).ne'
    simpa using hMove
  · obtain ⟨hKept, hTail⟩ := List.isChain_split.mp hChain
    refine List.isChain_append_cons_cons.mpr ⟨hKept, hAnchor, ?_⟩
    cases passed with
    | nil => simp
    | cons z passed =>
      rw [List.isChain_cons_cons] at hTail ⊢
      refine ⟨⟨(hAbove z List.mem_cons_self).le, ?_⟩, hTail.2⟩
      obtain ⟨_, hNear⟩ := hTail.1
      obtain ⟨hLe, _⟩ := hAnchor
      omega

theorem Ordered.sorted {orig front rest : List α} {s : Cursor α} (h : Ordered intValue orig front)
    (hScan : Scan array orig front rest s) (hEnd : ¬ s.begin < array.length - 1)
    (hInsertable : Insertable intValue array) : StablySorted (value intValue) array s.array := by
  rw [hScan.array_eq]
  refine ⟨hScan.split ▸ h.rearranged.append rest, List.pairwise_append.mpr ⟨h.ascending, ?_, ?_⟩⟩
  · obtain rfl | ⟨x, rfl⟩ := hScan.rest_cases hEnd <;> simp
  · intro y hy z hz
    obtain rfl | ⟨x, rfl⟩ := hScan.rest_cases hEnd
    · cases hz
    · rw [List.mem_singleton.mp hz]
      exact hInsertable.last orig x hScan.split y (hScan.perm.subset hy)

theorem Scan.rank_lt {orig front rest : List α} {s : Cursor α} (h : Scan array orig front rest s) :
    Scan.rank array orig s < (array.length + 1) * (array.length + 1) := by
  have hMul : (array.length - orig.length) * (array.length + 1) ≤ array.length * (array.length + 1) :=
    Nat.mul_le_mul_right _ (Nat.sub_le _ _)
  have hLength := congrArg List.length h.split
  rw [List.length_append] at hLength
  have hPos := h.begin_pos
  rw [Nat.add_mul]
  unfold Scan.rank
  omega

theorem Ordered.round_inside {fuel : Nat} {orig front rest : List α} {s : Cursor α}
    (h : Ordered intValue orig front) (hScan : Scan array orig front rest s)
    (hSize : array.length < 2 ^ 64) (hFuel : array.length < fuel)
    (hTest : s.begin < array.length - 1) (hInside : s.begin < orig.length) :
    ∃ s', insertionWhile intValue fuel s = .ok s' ∧ Scan array orig front rest s'.advance ∧
      s'.advance.begin = s.begin + 1 := by
  have hLength := hScan.perm.length_eq
  have hPos := hScan.begin_pos
  obtain ⟨left, x, right, hFront, hBegin⟩ :
      ∃ left x right, front = left ++ x :: right ∧ left.length = s.begin := by
    refine ⟨front.take s.begin, front[s.begin], front.drop (s.begin + 1), ?_, by simp; omega⟩
    rw [← List.drop_eq_getElem_cons, List.take_append_drop]
  have hArray : s.array = left ++ x :: (right ++ rest) := by rw [hScan.array_eq, hFront]; simp
  have hSizeAt : (left ++ x :: (right ++ rest)).length < 2 ^ 64 := by
    rw [← hArray, hScan.length_eq]
    exact hSize
  have hCursor : s = ⟨left ++ x :: (right ++ rest), left.length⟩ := by rw [← hArray, hBegin]
  obtain ⟨init, y, hLeft⟩ : ∃ init y, left = init ++ [y] :=
    (List.eq_nil_or_concat' left).resolve_left (by rintro rfl; simp at hBegin; omega)
  have hClose : Close intValue y x := by
    have hChain := h.close
    rw [hFront, hLeft, List.append_assoc] at hChain
    exact (List.isChain_append_cons_cons.mp hChain).2.1
  obtain ⟨s', hRun⟩ := insertionWhile_ends intValue fuel hSizeAt
    ⟨y, by simp [hLeft], not_moves_of_close intValue hClose⟩ (by omega)
  obtain ⟨kept, passed, w, hInserted⟩ := insertionWhile_inserts intValue hSizeAt hRun
  have hStays := Ordered.stays intValue (hFront ▸ h) hInserted
  subst hStays
  obtain ⟨hWhole, _, _⟩ | ⟨mid, hMid, _, hNext⟩ := hScan.insert intValue hSize hTest hArray hBegin hInserted
  · rw [← hWhole, hBegin] at hLength
    omega
  · have hSame : kept ++ w :: x :: ([] ++ mid) = front := by
      rw [hMid, hInserted.split]
      simp
    rw [hSame] at hNext
    refine ⟨s', hCursor ▸ hRun, hNext, ?_⟩
    have hKept := congrArg List.length hInserted.split
    simp only [List.length_append, List.length_singleton] at hKept
    have hBegin' := hInserted.begin_eq
    have hIndex : s'.begin < array.length := by omega
    rw [Cursor.advance, next_index hIndex hSize]
    change s'.begin + 1 = s.begin + 1
    omega

theorem Ordered.round_next {fuel : Nat} {orig front rest : List α} {s : Cursor α}
    (h : Ordered intValue orig front) (hScan : Scan array orig front rest s)
    (hInsertable : Insertable intValue array) (hSize : array.length < 2 ^ 64) (hFuel : array.length < fuel)
    (hTest : s.begin < array.length - 1) (hEnd : s.begin = orig.length) :
    ∃ s' x back, rest = x :: back ∧ insertionWhile intValue fuel s = .ok s' ∧
      ∃ front', Ordered intValue (orig ++ [x]) front' ∧ Scan array (orig ++ [x]) front' back s'.advance := by
  have hLength := hScan.perm.length_eq
  have hPos := hScan.begin_pos
  have hRest := congrArg List.length hScan.split
  rw [List.length_append] at hRest
  obtain ⟨x, z, back, rfl⟩ : ∃ x z back, rest = x :: z :: back := by
    match rest, hRest with
    | [], hRest | [_], hRest => simp at hRest; omega
    | x :: z :: back, _ => exact ⟨x, z, back, rfl⟩
  have hBegin : front.length = s.begin := hLength.trans hEnd.symm
  have hSizeAt : (front ++ x :: z :: back).length < 2 ^ 64 := by
    rw [← hScan.array_eq, hScan.length_eq]
    exact hSize
  have hCursor : s = ⟨front ++ x :: z :: back, front.length⟩ := by rw [← hScan.array_eq, hBegin]
  obtain ⟨y, hy, hClose⟩ := hInsertable.anchored orig x (z :: back) hScan.split
    (List.length_pos_iff.mp (by omega)) (List.cons_ne_nil _ _)
  obtain ⟨s', hRun⟩ := insertionWhile_ends intValue fuel hSizeAt
    ⟨y, hScan.perm.symm.subset hy, not_moves_of_close intValue hClose⟩ (by omega)
  obtain ⟨kept, passed, w, hInserted⟩ := insertionWhile_inserts intValue hSizeAt hRun
  have hBounded : ∀ y ∈ orig, value intValue y - value intValue x ≤ 2 ^ 31 := by
    have hAll := hInsertable.bounded
    rw [hScan.split] at hAll
    exact fun y hy => (List.pairwise_append.mp hAll).2.2 y hy x List.mem_cons_self
  refine ⟨s', x, z :: back, rfl, hCursor ▸ hRun, _, h.insert intValue hBounded hInserted, ?_⟩
  obtain ⟨_, _, hNext⟩ | ⟨mid, hMid, _⟩ := hScan.insert intValue hSize hTest hScan.array_eq hBegin hInserted
  · exact hNext
  · have hTooLong := congrArg List.length hMid
    simp at hTooLong

/-- One round inside the scanned part or at its end; either way the rank goes down. -/
theorem Ordered.round {fuel : Nat} {orig front rest : List α} {s : Cursor α}
    (h : Ordered intValue orig front) (hScan : Scan array orig front rest s)
    (hInsertable : Insertable intValue array) (hSize : array.length < 2 ^ 64) (hFuel : array.length < fuel)
    (hTest : s.begin < array.length - 1) :
    ∃ s', insertionWhile intValue fuel s = .ok s' ∧ ∃ orig' front' rest', Ordered intValue orig' front' ∧
      Scan array orig' front' rest' s'.advance ∧
      Scan.rank array orig' s'.advance < Scan.rank array orig s := by
  obtain hInside | hEnd := Nat.lt_or_eq_of_le hScan.begin_le
  · obtain ⟨s', hRun, hNext, hBegin⟩ := h.round_inside intValue hScan hSize hFuel hTest hInside
    refine ⟨s', hRun, orig, front, rest, h, hNext, ?_⟩
    unfold Scan.rank
    omega
  · obtain ⟨s', x, back, hRest, hRun, front', hOrdered, hNext⟩ :=
      h.round_next intValue hScan hInsertable hSize hFuel hTest hEnd
    refine ⟨s', hRun, _, _, _, hOrdered, hNext, ?_⟩
    have hLe := hNext.begin_le
    have hLength := congrArg List.length hScan.split
    simp only [List.length_append, hRest, List.length_cons] at hLength
    simp only [Scan.rank, List.length_append, List.length_singleton, hEnd] at hLe ⊢
    rw [show array.length - orig.length = (array.length - (orig.length + 1)) + 1 by omega, Nat.add_mul]
    omega

theorem insertionSort_sorts (hInsertable : Insertable intValue array) (hSize : array.length < 2 ^ 64) :
    ∃ fuel result, insertionSort intValue fuel array = .ok result ∧
      StablySorted (value intValue) array result := by
  obtain ⟨x, tail, hArray⟩ := List.exists_cons_of_ne_nil hInsertable.nonempty
  have hPos : 0 < array.length := by simp [hArray]
  have hScanStart : Scan array [x] [x] tail ⟨array, 1⟩ := hArray ▸ Scan.start x tail
  have hFuel : array.length < (array.length + 1) * (array.length + 1) := by
    rw [Nat.add_mul]
    omega
  have hEnds : ∃ s, insertionSortLoop intValue ((array.length + 1) * (array.length + 1)) array = .ok s ∧
      StablySorted (value intValue) array s.array := by
    apply loop_total_ranked fun rank s => ∃ orig front rest, Ordered intValue orig front ∧
      Scan array orig front rest s ∧ Scan.rank array orig s = rank
    · rintro _ s ⟨orig, front, rest, hOrdered, hScan, rfl⟩
      have hLast := hScan.lastIndex_eq hPos hSize
      by_cases hTest : s.begin < array.length - 1
      · obtain ⟨s', hRun, orig', front', rest', hOrdered', hScan', hLess⟩ :=
          hOrdered.round intValue hScan hInsertable hSize hFuel hTest
        refine .inr ⟨by rw [hLast]; simp [hTest], .next s', ?_, _, hLess, orig', front', rest', hOrdered',
          hScan', rfl⟩
        have hInside : s.begin < s.array.length := by rw [hScan.length_eq]; omega
        simp [objectAt_of_getElem? (List.getElem?_eq_getElem hInside), hRun, bind, Except.bind, pure,
          Except.pure]
      · exact .inl ⟨by rw [hLast]; simp [hTest], hOrdered.sorted intValue hScan hTest hInsertable⟩
    · exact ⟨[x], [x], tail, ⟨.refl _, by simp⟩, hScanStart, rfl⟩
    · exact hScanStart.rank_lt
  obtain ⟨s, hRun, hSorted⟩ := hEnds
  exact ⟨_, s.array, by rw [insertionSort, hRun]; rfl, hSorted⟩

/-- The sort ends inside the array with its stable ascending rearrangement exactly for
the arrays whose last object is the greatest and of which no object is carried past the
first or past a difference that does not fit. -/
theorem insertionSort_sorts_iff (array : List α) (hSize : array.length < 2 ^ 64) :
    (∃ fuel result, insertionSort intValue fuel array = .ok result ∧
      StablySorted (value intValue) array result) ↔ Insertable intValue array := by
  constructor
  · rintro ⟨fuel, result, hRun, hSorted⟩
    exact insertable_of_sorted intValue hSize hRun hSorted
  · exact fun hInsertable => insertionSort_sorts intValue hInsertable hSize

end Sufficiency

theorem insertionSort_sorts_iff_four :
    (∃ fuel result, insertionSort Int32.ofInt fuel [1, 3, 2, 4] = .ok result ∧
      StablySorted (value Int32.ofInt) [1, 3, 2, 4] result) ↔ Insertable Int32.ofInt [1, 3, 2, 4] :=
  insertionSort_sorts_iff Int32.ofInt [1, 3, 2, 4] (by decide)

/-- With two objects the loop ends before its first round. -/
theorem insertionSort_skips_last : ¬ ∀ array : List Int, array.length < 2 ^ 64 →
    ∃ fuel result, insertionSort Int32.ofInt fuel array = .ok result ∧
      StablySorted (value Int32.ofInt) array result := by
  intro hClaim
  obtain ⟨_, _, hRun, hSorted⟩ := hClaim [2, 1] (by decide)
  have hInsertable := insertable_of_sorted Int32.ofInt (by decide) hRun hSorted
  exact absurd (hInsertable.last [2] 1 rfl 2 (by decide)) (by decide)

end OCNote.Sort
