import Mathlib.Data.List.Count
import Mathlib.Data.List.TakeWhile
import OCNote.Sort.InRange

/-! # The bookkeeping of bubbleSort3

The last exchange of a pass was meant to bound the next one. The array tells when the
passes keep to that bound although nothing hands it on: each pass but the last then
exchanges at its `end`, as long as the last object goes on being carried down. -/

namespace OCNote.Sort
open OCNote.Support
set_option autoImplicit false

variable {α β : Type}

def isPass : SortEvent → Bool
  | .pass _ => true
  | _ => false

/-- The events of each pass, in the order of the passes. -/
def passesOf : List SortEvent → List (List SortEvent)
  | [] => []
  | .pass _ :: events => events.takeWhile (fun e => !isPass e) :: passesOf events
  | _ :: events => passesOf events

/-- If the last exchange of a pass is at `s` then the next pass compares below `s` only, and
behind a pass without an exchange nothing is compared. -/
def SkipsSettled : List (List SortEvent) → Prop
  | [] => True
  | es :: later =>
    (∀ s, (exchangesOf es).getLast? = some s → ∀ next ∈ later.head?, ∀ b ∈ comparesOf next, b < s) ∧
      (exchangesOf es = [] → ∀ es' ∈ later, comparesOf es' = []) ∧ SkipsSettled later

/-- How many of the objects before position `top` are not above the object there. -/
def notAbove (key : α → Int) (array : List α) (top : Nat) : Nat :=
  (array.take top).countP fun x => (array[top]?).any fun y => decide (key x ≤ key y)

theorem passesOf_single {es : List SortEvent} (h : ∀ endIndex, SortEvent.pass endIndex ∉ es) :
    passesOf es = [] := by
  induction es with
  | nil => rfl
  | cons e es ih =>
    cases e with
    | pass endIndex => exact absurd List.mem_cons_self (h endIndex)
    | compare begin => exact ih fun endIndex hMem => h endIndex (List.mem_cons_of_mem _ hMem)
    | exchange begin => exact ih fun endIndex hMem => h endIndex (List.mem_cons_of_mem _ hMem)

theorem takeWhile_single {es : List SortEvent} (h : ∀ endIndex, SortEvent.pass endIndex ∉ es) :
    es.takeWhile (fun e => !isPass e) = es := by
  apply List.takeWhile_eq_self_iff.mpr
  intro e he
  cases e with
  | pass endIndex => exact absurd he (h endIndex)
  | compare begin => rfl
  | exchange begin => rfl

theorem takeWhile_append_pass (events es : List SortEvent) (endIndex : Nat) :
    (events ++ .pass endIndex :: es).takeWhile (fun e => !isPass e) =
      events.takeWhile (fun e => !isPass e) := by
  induction events with
  | nil => rfl
  | cons e events ih =>
    cases e with
    | pass _ => rfl
    | compare begin => exact congrArg (List.cons (.compare begin)) ih
    | exchange begin => exact congrArg (List.cons (.exchange begin)) ih

theorem passesOf_append_pass (events : List SortEvent) {es : List SortEvent} (endIndex : Nat)
    (h : ∀ endIndex, SortEvent.pass endIndex ∉ es) :
    passesOf (events ++ .pass endIndex :: es) = passesOf events ++ [es] := by
  induction events with
  | nil =>
    change es.takeWhile _ :: passesOf es = [es]
    rw [takeWhile_single h, passesOf_single h]
  | cons e events ih =>
    cases e with
    | pass _ =>
      rw [List.cons_append, passesOf, passesOf, takeWhile_append_pass, ih]
      rfl
    | compare begin => exact ih
    | exchange begin => exact ih

section Carrying

variable {key : α → Int}

/-- After `b` comparisons below the range of `int`: the greatest object so far is carried at
`b`, and an exchange there has put the object of `b` in front of it. -/
structure Carried (key : α → Int) (array : List α) (b : Nat) (es : List SortEvent) (array' front : List α)
    (x : α) : Prop where
  split : array' = front ++ x :: array.drop (b + 1)
  length_eq : front.length = b
  perm : (front ++ [x]).Perm (array.take (b + 1))
  greatest : ∀ z ∈ front, key z ≤ key x
  earlier : ∀ s ∈ exchangesOf es, s ≤ b
  last : ∀ y, array[b]? = some y → if key y < key x
    then (exchangesOf es).getLast? = some b ∧ front.getLast? = some y else b ∉ exchangesOf es

theorem Carried.start {array : List α} {x : α} (hx : array[0]? = some x) :
    Carried key array 0 [] array [] x := by
  cases array with
  | nil => cases hx
  | cons _ rest =>
    cases hx
    refine ⟨rfl, rfl, .refl _, by simp, by simp [exchangesOf], ?_⟩
    intro y hy
    cases hy
    simp [exchangesOf]

theorem Carried.here {array array' front : List α} {b : Nat} {es : List SortEvent} {x : α}
    (h : Carried key array b es array' front x) : array'[b]? = some x := by
  rw [h.split, List.getElem?_append_right h.length_eq.le, h.length_eq, Nat.sub_self]
  rfl

theorem Carried.behind {array array' front : List α} {b : Nat} {es : List SortEvent} {x : α}
    (h : Carried key array b es array' front x) : array'[b + 1]? = array[b + 1]? := by
  have hLength := h.length_eq
  rw [h.split, List.getElem?_append_right (by omega), show b + 1 - front.length = 0 + 1 by omega,
    List.getElem?_cons_succ, List.getElem?_drop]

theorem Carried.le_greatest {array array' front : List α} {b : Nat} {es : List SortEvent} {x z : α}
    (h : Carried key array b es array' front x) (hz : z ∈ front ++ [x]) : key z ≤ key x := by
  obtain hz | hz := List.mem_append.mp hz
  · exact h.greatest z hz
  · rw [List.mem_singleton.mp hz]

theorem take_concat {array : List α} {b : Nat} {y : α} (hy : array[b]? = some y) :
    array.take (b + 1) = array.take b ++ [y] := by
  rw [List.take_add_one, hy]
  rfl

theorem drop_cons {array : List α} {b : Nat} {y : α} (hy : array[b]? = some y) :
    array.drop b = y :: array.drop (b + 1) := by
  obtain ⟨hBound, rfl⟩ := List.getElem?_eq_some_iff.mp hy
  exact List.drop_eq_getElem_cons hBound

/-- The object of `b + 1` goes in front of the one that is carried. -/
theorem Carried.exchange {array array' front : List α} {b : Nat} {es : List SortEvent} {x y : α}
    (h : Carried key array b es array' front x) (hy : array[b + 1]? = some y) (hLess : key y < key x) :
    Carried key array (b + 1) (es ++ scanEvents key (b + 1) x y) ((array'.set (b + 1) x).set b y)
      (front ++ [y]) x := by
  have hExchanges : exchangesOf (es ++ scanEvents key (b + 1) x y) = exchangesOf es ++ [b + 1] := by
    rw [exchangesOf_append, exchangesOf_scanEvents, if_pos hLess]
  refine ⟨?_, by simp [h.length_eq], ?_, ?_, ?_, ?_⟩
  · rw [h.split, drop_cons hy]
    simp [h.length_eq]
  · rw [take_concat hy]
    refine List.Perm.trans ?_ (h.perm.append_right [y])
    simpa using List.Perm.append_left front (List.Perm.swap x y [])
  · intro z hz
    obtain hz | hz := List.mem_append.mp hz
    · exact h.greatest z hz
    · rw [List.mem_singleton.mp hz]
      exact hLess.le
  · intro s hs
    rw [hExchanges] at hs
    obtain hs | hs := List.mem_append.mp hs
    · exact Nat.le_succ_of_le (h.earlier s hs)
    · exact (List.mem_singleton.mp hs).le
  · intro y' hy'
    cases hy.symm.trans hy'
    rw [if_pos hLess, hExchanges]
    exact ⟨List.getLast?_concat, List.getLast?_concat⟩

/-- The object of `b + 1` is carried from there on. -/
theorem Carried.keep {array array' front : List α} {b : Nat} {es : List SortEvent} {x y : α}
    (h : Carried key array b es array' front x) (hy : array[b + 1]? = some y) (hLess : ¬ key y < key x) :
    Carried key array (b + 1) (es ++ scanEvents key (b + 1) x y) array' (front ++ [x]) y := by
  have hExchanges : exchangesOf (es ++ scanEvents key (b + 1) x y) = exchangesOf es := by
    rw [exchangesOf_append, exchangesOf_scanEvents, if_neg hLess, List.append_nil]
  refine ⟨?_, by simp [h.length_eq], ?_, ?_, ?_, ?_⟩
  · rw [h.split, drop_cons hy]
    simp
  · rw [take_concat hy]
    exact h.perm.append_right _
  · exact fun z hz => (h.le_greatest hz).trans (Int.not_lt.mp hLess)
  · intro s hs
    rw [hExchanges] at hs
    exact Nat.le_succ_of_le (h.earlier s hs)
  · intro y' hy'
    cases hy.symm.trans hy'
    rw [if_neg (lt_irrefl _), hExchanges]
    exact fun hMem => absurd (h.earlier _ hMem) (Nat.not_succ_le_self b)

end Carrying

section LastObject

variable {key : α → Int} {array array' front : List α} {es : List SortEvent} {x y : α}

theorem notAbove_eq {top : Nat} (hy : array[top]? = some y) :
    notAbove key array top = (array.take top).countP fun z => decide (key z ≤ key y) := by
  simp only [notAbove, hy, Option.any_some]

/-- A pass exchanges at its `end` unless nothing before it is above the object there. -/
theorem Carried.exchanges_iff {top : Nat} (h : Carried key array top es array' front x)
    (hy : array[top]? = some y) : top ∈ exchangesOf es ↔ notAbove key array top < top := by
  have hTake := take_concat hy
  obtain ⟨hTop, _⟩ := List.getElem?_eq_some_iff.mp hy
  have hLength : (array.take top).length = top := List.length_take_of_le hTop.le
  have hLast := h.last y hy
  rw [notAbove_eq hy]
  by_cases hLess : key y < key x
  · rw [if_pos hLess] at hLast
    refine iff_of_true (List.mem_of_getLast? hLast.1) ?_
    have hx : x ∈ array.take top ++ [y] := by
      rw [← hTake]
      exact h.perm.subset (List.mem_append_right _ List.mem_cons_self)
    obtain hx | hx := List.mem_append.mp hx
    · refine Nat.lt_of_lt_of_eq (List.countP_lt_length_iff.mpr ⟨x, hx, ?_⟩) hLength
      exact decide_eq_false (not_le.mpr hLess)
    · rw [List.mem_singleton.mp hx] at hLess
      exact absurd hLess (lt_irrefl _)
  · rw [if_neg hLess] at hLast
    refine iff_of_false hLast ?_
    rw [List.countP_eq_length.mpr, hLength]
    · exact lt_irrefl _
    · intro z hz
      have hMem : z ∈ front ++ [x] := h.perm.symm.subset (hTake ▸ List.mem_append_left _ hz)
      exact decide_eq_true ((h.le_greatest hMem).trans (not_lt.mp hLess))

/-- An exchange at `end` leaves the object carried down at the next `end`, with as many
before it that are not above it. -/
theorem Carried.notAbove_next {top : Nat} (h : Carried key array (top + 1) es array' front x)
    (hTop : top + 1 < array.length) (hExchange : top + 1 ∈ exchangesOf es) :
    notAbove key array' top = notAbove key array (top + 1) := by
  obtain ⟨y, hy⟩ : ∃ y, array[top + 1]? = some y := ⟨_, List.getElem?_eq_getElem hTop⟩
  have hLast := h.last y hy
  split at hLast
  · rename_i hLess
    obtain ⟨before, rfl⟩ := List.getLast?_eq_some_iff.mp hLast.2
    have hLength : before.length = top := by simpa using h.length_eq
    have hy' : array'[top]? = some y := by
      rw [h.split, ← hLength]
      simp
    have hBefore : array'.take top = before := by
      rw [h.split, ← hLength]
      simp
    have hPerm : (before ++ [x]).Perm (array.take (top + 1)) := by
      have hAll := h.perm
      rw [take_concat hy] at hAll
      refine (List.perm_append_right_iff [y]).mp (List.Perm.trans ?_ hAll)
      simpa using List.Perm.append_left before (List.Perm.swap y x [])
    rw [notAbove_eq hy, notAbove_eq hy', hBefore, ← hPerm.countP_eq, List.countP_append]
    simp [hLess]
  · exact absurd hExchange hLast

end LastObject

section Pass

variable {key : α → Int}

/-- One whole pass, with the events `es`, from `array` to `array'`. -/
structure PassResult (key : α → Int) (array : List α) (top : Nat) (es : List SortEvent)
    (array' : List α) : Prop where
  single : ∀ endIndex, SortEvent.pass endIndex ∉ es
  compared : ∃ b, b + 1 < 2 ^ 32 ∧ intIndex b ≤ top ∧ top < intIndex (b + 1) ∧
    comparesOf es = (List.range' 1 b).map intIndex
  exchanged : ∀ s ∈ exchangesOf es, s ∈ comparesOf es
  length_eq : array'.length = array.length
  carried : top < 2 ^ 31 → ∃ front x, Carried key array top es array' front x

theorem intIndex_eq_self {n : Nat} (hn : n < 2 ^ 32) (h : intIndex n < 2 ^ 31) : intIndex n = n := by
  obtain hLow | hHigh := Nat.lt_or_ge n (2 ^ 31)
  · exact intIndex_of_lt hLow
  · rw [intIndex_of_wrapped hHigh hn] at h
    omega

/-- The `int` runs up to `end` or to the end of its own range. -/
theorem scanned_eq {b top : Nat} (hBound : b + 1 < 2 ^ 32) (hInside : intIndex b ≤ top)
    (hEnd : top < intIndex (b + 1)) (hTop : top ≤ 2 ^ 31) : b = min top (2 ^ 31 - 1) := by
  have hLow : b < 2 ^ 31 := by
    by_contra hHigh
    rw [intIndex_of_wrapped (by omega) (by omega)] at hInside
    omega
  rw [intIndex_of_lt hLow] at hInside
  obtain hNext | rfl : b + 1 < 2 ^ 31 ∨ b = 2 ^ 31 - 1 := by omega
  · rw [intIndex_of_lt hNext] at hEnd
    omega
  · omega

theorem PassResult.compared_eq {array array' : List α} {top : Nat} {es : List SortEvent}
    (h : PassResult key array top es array') (hTop : top ≤ 2 ^ 31) :
    comparesOf es = List.range' 1 (min top (2 ^ 31 - 1)) := by
  obtain ⟨b, hBound, hInside, hEnd, hCompared⟩ := h.compared
  rw [hCompared, scanned_eq hBound hInside hEnd hTop]
  refine (List.map_congr_left fun n hn => ?_).trans (List.map_id _)
  obtain ⟨i, hi, rfl⟩ := List.mem_range'.mp hn
  exact intIndex_of_lt (by omega)

/-- Below the range of `int` the comparison at `intIndex (b + 1)` is the one at `b + 1`. -/
theorem Carried.scan {note : Nat → β → β} {array front : List α} {b : Nat} {es : List SortEvent}
    {f : Frame α β} {x y z : α} (h : Carried key array b es f.array front z)
    (hBound : b + 1 < 2 ^ 32) (hLow : intIndex (b + 1) < 2 ^ 31) (hx : f.array[intIndex b]? = some x)
    (hy : f.array[intIndex (b + 1)]? = some y) : ∃ front' x',
      Carried key array (b + 1) (es ++ scanEvents key (intIndex (b + 1)) x y)
        (f.scan key note (intIndex b) (intIndex (b + 1)) x y).array front' x' := by
  have hNext := intIndex_eq_self hBound hLow
  have hThis := intIndex_eq_self (Nat.lt_of_succ_lt hBound) ((intIndex_lt_succ hBound).trans hLow)
  rw [hNext] at hy ⊢
  rw [hThis] at hx ⊢
  cases h.here.symm.trans hx
  have hGiven := h.behind.symm.trans hy
  by_cases hLess : key y < key x
  · simp only [Frame.scan, if_pos hLess]
    exact ⟨_, _, h.exchange hGiven hLess⟩
  · simp only [Frame.scan, if_neg hLess]
    exact ⟨_, _, h.keep hGiven hLess⟩

theorem bubblePass_result (intValue : α → Int32) (note : Nat → β → β) (mark : β) {m : Memory α}
    {top fuel : Nat} (hSize : m.array.length < 2 ^ 64) (hTop : top < m.array.length) (hFuel : top < fuel) :
    ∃ f es, bubblePass intValue note mark fuel top m = .ok f ∧ f.events = m.events ++ .pass top :: es ∧
      f.mark = (exchangesOf es).foldl (fun mark begin => note begin mark) mark ∧
      PassResult (value intValue) m.array top es f.array := by
  obtain ⟨f, hRun, b, es, hScan, hEnd, hMark, hCarried⟩ := bubblePass_scans note mark intValue
    (fun b es f => f.mark = (exchangesOf es).foldl (fun mark begin => note begin mark) mark ∧
      (top < 2 ^ 31 → ∃ front x, Carried (value intValue) m.array b es f.array front x))
    hSize hTop hFuel
    ⟨rfl, fun _ => ⟨[], _, .start (List.getElem?_eq_getElem (by omega))⟩⟩
    (by
      rintro b es f x y hScan ⟨hMark, hCarried⟩ hInside hx hy
      constructor
      · rw [exchangesOf_append, exchangesOf_scanEvents, List.foldl_append, ← hMark]
        simp only [Frame.scan]
        split <;> rfl
      · intro hLow
        obtain ⟨front, z, hCarried⟩ := hCarried hLow
        exact hCarried.scan hScan.bound (hInside.trans_lt hLow) hx hy)
  refine ⟨f, es, hRun, hScan.events_eq, hMark, hScan.single,
    ⟨b, hScan.bound, hScan.inside, hEnd, hScan.compared⟩, hScan.exchanged, hScan.length_eq, fun hLow => ?_⟩
  have hb := scanned_eq hScan.bound hScan.inside hEnd hLow.le
  rw [Nat.min_eq_left (by omega)] at hb
  exact hb ▸ hCarried hLow

end Pass

/-- Passes for every `end` from `top` down to 1. -/
inductive Passes (key : α → Int) : List α → Nat → List (List SortEvent) → Prop where
  | done (array : List α) : Passes key array 0 []
  | pass {array array' : List α} {top : Nat} {es : List SortEvent} {later : List (List SortEvent)}
      (first : PassResult key array (top + 1) es array') (rest : Passes key array' top later) :
      Passes key array (top + 1) (es :: later)

section Bookkeeping

variable {key : α → Int}

theorem Passes.head_compares {array : List α} {top : Nat} {passes : List (List SortEvent)}
    (h : Passes key array (top + 1) passes) (hTop : top + 1 ≤ 2 ^ 31) :
    ∃ es later, passes = es :: later ∧ comparesOf es = List.range' 1 (min (top + 1) (2 ^ 31 - 1)) := by
  cases h with
  | pass first rest => exact ⟨_, _, rfl, first.compared_eq hTop⟩

/-- A next pass that compares up to `top` is spared its last pair only by an exchange behind. -/
theorem Carried.spares_iff {array array' front : List α} {x y : α} {top : Nat} {es next : List SortEvent}
    (later : List (List SortEvent)) (h : Carried key array (top + 1) es array' front x)
    (hy : array[top + 1]? = some y) (hTop : 0 < top) (hNext : comparesOf next = List.range' 1 top) :
    ((∀ s, (exchangesOf es).getLast? = some s → ∀ b ∈ comparesOf next, b < s) ∧
      (exchangesOf es = [] → ∀ es' ∈ next :: later, comparesOf es' = [])) ↔ top + 1 ∈ exchangesOf es := by
  have hTopCompared : top ∈ comparesOf next := by
    rw [hNext]
    exact List.mem_range'_1.mpr ⟨hTop, by omega⟩
  constructor
  · rintro ⟨hSkip, hNone⟩
    cases hLast : (exchangesOf es).getLast? with
    | none =>
      rw [hNone (List.getLast?_eq_none_iff.mp hLast) next List.mem_cons_self] at hTopCompared
      exact absurd hTopCompared List.not_mem_nil
    | some s =>
      have hMem := List.mem_of_getLast? hLast
      have hAbove := hSkip s hLast top hTopCompared
      obtain rfl : s = top + 1 := Nat.le_antisymm (h.earlier s hMem) hAbove
      exact hMem
  · intro hMem
    have hLast : (exchangesOf es).getLast? = some (top + 1) := by
      have hLast := h.last y hy
      split at hLast
      · exact hLast.1
      · exact absurd hMem hLast
    constructor
    · intro s hs b hb
      cases hLast.symm.trans hs
      rw [hNext] at hb
      have hBelow := (List.mem_range'_1.mp hb).2
      omega
    · intro hNil
      rw [hNil] at hMem
      exact absurd hMem List.not_mem_nil

theorem Passes.skips_iff {array : List α} {top : Nat} {passes : List (List SortEvent)}
    (h : Passes key array top passes) (hInside : top < array.length ∨ top = 0) (hTop : top < 2 ^ 31) :
    SkipsSettled passes ↔ top ≤ 1 ∨ notAbove key array top ≤ 1 := by
  induction h with
  | done array => exact iff_of_true trivial (.inl (Nat.zero_le _))
  | @pass array array' top es later first rest ih =>
    have hInside : top + 1 < array.length := by omega
    have hInside' : top < array'.length ∨ top = 0 := by
      rw [first.length_eq]
      omega
    specialize ih hInside' (by omega)
    obtain rfl | hPos := Nat.eq_zero_or_pos top
    · cases rest
      exact iff_of_true ⟨fun _ _ _ h => (nomatch h), fun _ _ h => (nomatch h), trivial⟩ (.inl le_rfl)
    obtain ⟨front, x, hCarried⟩ := first.carried hTop
    obtain ⟨y, hy⟩ : ∃ y, array[top + 1]? = some y := ⟨_, List.getElem?_eq_getElem hInside⟩
    have hExchanges := hCarried.exchanges_iff hy
    have hSame := hCarried.notAbove_next hInside
    obtain ⟨next, later, rfl, hNext⟩ : ∃ next rest', later = next :: rest' ∧
        comparesOf next = List.range' 1 top := by
      obtain ⟨k, rfl⟩ : ∃ k, top = k + 1 := ⟨top - 1, by omega⟩
      have hHead := rest.head_compares (by omega)
      rwa [Nat.min_eq_left (by omega)] at hHead
    have hSpares := hCarried.spares_iff later hy hPos hNext
    constructor
    · rintro ⟨hSkip, hNone, hLater⟩
      have hMem := hSpares.mp ⟨fun s hs => hSkip s hs next rfl, hNone⟩
      have hCount := hExchanges.mp hMem
      have hFew := ih.mp hLater
      rw [hSame hMem] at hFew
      omega
    · intro hFew
      have hMem := hExchanges.mpr (by omega)
      obtain ⟨hSkip, hNone⟩ := hSpares.mpr hMem
      refine ⟨?_, hNone, ih.mpr (by rw [hSame hMem]; omega)⟩
      rintro s hs _ ⟨rfl⟩
      exact hSkip s hs

/-- Once `end` is out of the range of `int`, two passes compare the same pairs. -/
theorem Passes.not_skips {array : List α} {top : Nat} {passes : List (List SortEvent)}
    (h : Passes key array top passes) (hTop : 2 ^ 31 ≤ top) : ¬ SkipsSettled passes := by
  induction h with
  | done array => exact absurd hTop (by omega)
  | @pass array array' top es later first rest ih =>
    rintro ⟨hSkip, hNone, hLater⟩
    obtain hHigh | hEdge : 2 ^ 31 ≤ top ∨ top + 1 = 2 ^ 31 := by omega
    · exact ih hHigh hLater
    have hCompared := first.compared_eq (by omega)
    obtain ⟨k, rfl⟩ : ∃ k, top = k + 1 := ⟨top - 1, by omega⟩
    obtain ⟨next, later, rfl, hNext⟩ := rest.head_compares (by omega)
    rw [Nat.min_eq_right (by omega)] at hNext hCompared
    have hTopCompared : 2 ^ 31 - 1 ∈ comparesOf next := by
      rw [hNext]
      exact List.mem_range'_1.mpr ⟨by omega, by omega⟩
    cases hLast : (exchangesOf es).getLast? with
    | none =>
      rw [hNone (List.getLast?_eq_none_iff.mp hLast) next List.mem_cons_self] at hTopCompared
      exact absurd hTopCompared List.not_mem_nil
    | some s =>
      have hAbove := hSkip s hLast next rfl _ hTopCompared
      have hMem := first.exchanged s (List.mem_of_getLast? hLast)
      rw [hCompared] at hMem
      have hBelow := (List.mem_range'_1.mp hMem).2
      omega

/-- What the passes compare is decided by `top` alone. -/
theorem Passes.same_compares {array other : List α} {top : Nat} {passes passes' : List (List SortEvent)}
    (h : Passes key array top passes) (h' : Passes key other top passes') (hTop : top ≤ 2 ^ 31) :
    passes.flatMap comparesOf = passes'.flatMap comparesOf := by
  induction h generalizing other passes' with
  | done array =>
    cases h'
    rfl
  | pass first rest ih =>
    cases h' with
    | pass first' rest' =>
      rw [List.flatMap_cons, List.flatMap_cons, first.compared_eq hTop, first'.compared_eq hTop,
        ih rest' (by omega)]

end Bookkeeping

section Runs

variable (intValue : α → Int32) (note : Nat → β → β) (mark : β) (leaves : β → Bool)

def sortBody (fuel : Nat) (s : Memory α × Nat) : Except (Halt RangeException) (Flow (Memory α × Nat)) := do
  let f ← bubblePass intValue note mark fuel s.2 s.1
  if leaves f.mark then pure (.leave (⟨f.array, f.events⟩, s.2))
  else pure (.next (⟨f.array, f.events⟩, s.2))

/-- The outer loop from any state of its variables; `steps` bounds its own tests. -/
def sortFrom (fuel steps : Nat) (s : Memory α × Nat) : Except (Halt RangeException) (Memory α × Nat) :=
  loop (fun s => .ok (decide (s.2 > 0))) (sortBody intValue note mark leaves fuel)
    (fun s => (s.1, s.2 - 1)) steps s

theorem bubbleSortLoop_eq (fuel : Nat) (array : List α) :
    bubbleSortLoop intValue note mark leaves fuel array =
      sortFrom intValue note mark leaves fuel fuel (⟨array, []⟩, lastIndex array) := rfl

theorem sortFrom_pass {fuel steps top : Nat} {m : Memory α} {f : Frame α β}
    (hRun : bubblePass intValue note mark fuel (top + 1) m = .ok f) :
    sortFrom intValue note mark leaves fuel (steps + 1) (m, top + 1) =
      if leaves f.mark then .ok (⟨f.array, f.events⟩, top + 1)
      else sortFrom intValue note mark leaves fuel steps (⟨f.array, f.events⟩, top) := by
  unfold sortFrom
  by_cases hLeave : leaves f.mark = true
  · have hBody : sortBody intValue note mark leaves fuel (m, top + 1) =
        .ok (.leave (⟨f.array, f.events⟩, top + 1)) := by
      simp [sortBody, hRun, hLeave, bind, Except.bind, pure, Except.pure]
    rw [if_pos hLeave]
    exact loop_leave rfl hBody
  · have hBody : sortBody intValue note mark leaves fuel (m, top + 1) =
        .ok (.next (⟨f.array, f.events⟩, top + 1)) := by
      simp [sortBody, hRun, hLeave, bind, Except.bind, pure, Except.pure]
    rw [if_neg hLeave, loop_next (by rfl) hBody]
    rfl

/-- A run that leaves at most with the last pass makes all passes. `cond` is what lets no
earlier pass leave. -/
theorem sortFrom_passes (cond : List α → Nat → Prop)
    (hCond : ∀ array array' top es, cond array (top + 2) →
      PassResult (value intValue) array (top + 2) es array' →
      top + 2 < array.length → cond array' (top + 1) ∧
        leaves ((exchangesOf es).foldl (fun mark begin => note begin mark) mark) = false)
    (fuel top : Nat) : ∀ (m : Memory α) (steps : Nat), m.array.length < 2 ^ 64 →
      (top < m.array.length ∨ top = 0) → top < fuel → top < steps → cond m.array top →
      ∃ s passes, sortFrom intValue note mark leaves fuel steps (m, top) = .ok s ∧
        Passes (value intValue) m.array top passes ∧
        passesOf s.1.events = passesOf m.events ++ passes ∧
        comparesOf s.1.events = comparesOf m.events ++ passes.flatMap comparesOf := by
  induction top with
  | zero =>
    intro m steps _ _ _ hSteps _
    obtain ⟨steps, rfl⟩ := Nat.exists_eq_add_one.mpr hSteps
    exact ⟨_, [], loop_done rfl, .done _, by simp, by simp⟩
  | succ top ih =>
    intro m steps hSize hTop hFuel hSteps hHere
    obtain ⟨steps, rfl⟩ := Nat.exists_eq_add_one.mpr (Nat.zero_lt_of_lt hSteps)
    have hTop : top + 1 < m.array.length := by omega
    obtain ⟨f, es, hRun, hEvents, hMark, hResult⟩ := bubblePass_result intValue note mark hSize hTop hFuel
    have hLength := hResult.length_eq
    have hPasses : passesOf f.events = passesOf m.events ++ [es] := by
      rw [hEvents, passesOf_append_pass _ _ hResult.single]
    have hCompares : comparesOf f.events = comparesOf m.events ++ comparesOf es := by
      rw [hEvents, comparesOf_append]
      rfl
    rw [sortFrom_pass intValue note mark leaves hRun]
    cases top with
    | zero =>
      refine ⟨(⟨f.array, f.events⟩, if leaves f.mark then 1 else 0), [es], ?_, .pass hResult (.done _), hPasses,
        by simpa using hCompares⟩
      obtain ⟨steps, rfl⟩ := Nat.exists_eq_add_one.mpr (Nat.lt_of_succ_lt_succ hSteps)
      split
      · rfl
      · exact loop_done rfl
    | succ top =>
      obtain ⟨hNext, hStays⟩ := hCond _ _ _ _ hHere hResult hTop
      rw [← hMark] at hStays
      obtain ⟨s, passes, hRest, hMade, hAll, hAllCompares⟩ := ih ⟨f.array, f.events⟩ steps
        (hLength.trans_lt hSize) (.inl (by simp only [hLength]; omega)) (by omega) (by omega) hNext
      refine ⟨s, es :: passes, by rw [if_neg (by simp [hStays]), hRest], .pass hResult hMade, ?_, ?_⟩
      · rw [hAll, hPasses, List.append_assoc]
        rfl
      · rw [hAllCompares, hCompares, List.append_assoc]
        rfl

theorem bubbleSort_passes (cond : List α → Nat → Prop)
    (hCond : ∀ array array' top es, cond array (top + 2) →
      PassResult (value intValue) array (top + 2) es array' →
      top + 2 < array.length → cond array' (top + 1) ∧
        leaves ((exchangesOf es).foldl (fun mark begin => note begin mark) mark) = false)
    {array : List α} {fuel : Nat} (hPos : 0 < array.length) (hSize : array.length < 2 ^ 64)
    (hFuel : array.length ≤ fuel) (hHere : cond array (array.length - 1)) :
    ∃ m passes, bubbleSort intValue note mark leaves fuel array = .ok m ∧
      Passes (value intValue) array (array.length - 1) passes ∧ passesOf m.events = passes ∧
      comparesOf m.events = passes.flatMap comparesOf := by
  obtain ⟨s, passes, hRun, hPasses, hAll, hCompares⟩ := sortFrom_passes intValue note mark leaves cond hCond
    fuel (array.length - 1) ⟨array, []⟩ fuel hSize (.inl (Nat.sub_one_lt_of_lt hPos)) (by omega) (by omega)
    hHere
  refine ⟨s.1, passes, ?_, hPasses, hAll, hCompares⟩
  rw [bubbleSort, bubbleSortLoop_eq, lastIndex_eq hPos hSize, hRun]
  rfl

end Runs

section Bubble3

variable (intValue : α → Int32)

/-- While the last object has at most one object before it that is not above it, each pass
down to the last but one exchanges at its `end`. -/
def KeepsExchanging (array : List α) (top : Nat) : Prop :=
  top < 2 ^ 31 ∧ (top ≤ 1 ∨ notAbove (value intValue) array top ≤ 1)

theorem KeepsExchanging.pass {array array' : List α} {top : Nat} {es : List SortEvent}
    (h : KeepsExchanging intValue array (top + 2))
    (hResult : PassResult (value intValue) array (top + 2) es array') (hTop : top + 2 < array.length) :
    KeepsExchanging intValue array' (top + 1) ∧ top + 2 ∈ exchangesOf es := by
  obtain ⟨hLow, hFew⟩ := h
  obtain ⟨front, x, hCarried⟩ := hResult.carried hLow
  obtain ⟨y, hy⟩ : ∃ y, array[top + 2]? = some y := ⟨_, List.getElem?_eq_getElem hTop⟩
  have hMem := (hCarried.exchanges_iff hy).mpr (by omega)
  have hSame : notAbove (value intValue) array' (top + 1) = notAbove (value intValue) array (top + 2) :=
    hCarried.notAbove_next hTop hMem
  exact ⟨⟨by omega, .inr (by omega)⟩, hMem⟩

theorem notAbove_le (key : α → Int) (array : List α) (top : Nat) : notAbove key array top ≤ top :=
  List.countP_le_length.trans (List.length_take_le top array)

/-- What the bookkeeping was written for: no pass compares what the last exchange of the
one before has shown to be settled, and none of it costs more than `bubbleSort2`. -/
def SkipsAndSaves (fuel : Nat) (array : List α) : Prop :=
  ∃ m₂ m₃, bubbleSort2 intValue fuel array = .ok m₂ ∧ bubbleSort3 intValue fuel array = .ok m₃ ∧
    SkipsSettled (passesOf m₃.events) ∧ (comparesOf m₃.events).length ≤ (comparesOf m₂.events).length

theorem bubbleSort3_skips_iff (array : List α) (hPos : 0 < array.length) (hSize : array.length < 2 ^ 64)
    (fuel : Nat) (hFuel : array.length ≤ fuel) : SkipsAndSaves intValue fuel array ↔
      array.length ≤ 2 ^ 31 ∧ notAbove (value intValue) array (array.length - 1) ≤ 1 := by
  obtain ⟨m₃, passes, hRun₃, hPasses, hAll, hCompares₃⟩ := bubbleSort_passes intValue
    (fun begin _ => begin) 1 (fun _ => false) (fun _ _ => True) (fun _ _ _ _ _ _ _ => ⟨trivial, rfl⟩)
    hPos hSize hFuel trivial
  have hInside : array.length - 1 < array.length ∨ array.length - 1 = 0 := .inl (by omega)
  constructor
  · rintro ⟨m₂, m, -, hRun, hSkips, -⟩
    cases hRun₃.symm.trans hRun
    rw [hAll] at hSkips
    obtain hHigh | hLow := Nat.lt_or_ge (2 ^ 31) array.length
    · exact absurd hSkips (hPasses.not_skips (by omega))
    · refine ⟨hLow, ?_⟩
      obtain hTop | hFew := (hPasses.skips_iff hInside (by omega)).mp hSkips
      · exact (notAbove_le _ _ _).trans hTop
      · exact hFew
  · rintro ⟨hLow, hFew⟩
    obtain ⟨m₂, passes₂, hRun₂, hPasses₂, -, hCompares₂⟩ := bubbleSort_passes intValue
      (fun _ _ => false) true (fun isSorted => isSorted) (KeepsExchanging intValue)
      (by
        intro array array' top es hHere hResult hTop
        obtain ⟨hNext, hMem⟩ := hHere.pass intValue hResult hTop
        refine ⟨hNext, Bool.eq_false_iff.mpr fun hSorted => ?_⟩
        rw [isSorted_eq_true hSorted] at hMem
        exact List.not_mem_nil hMem)
      hPos hSize hFuel ⟨by omega, .inr hFew⟩
    refine ⟨m₂, m₃, hRun₂, hRun₃, hAll ▸ (hPasses.skips_iff hInside (by omega)).mpr (.inr hFew), ?_⟩
    rw [hCompares₂, hCompares₃, hPasses.same_compares hPasses₂ (by omega)]

theorem bubbleSort3_skips_iff_descending :
    SkipsAndSaves id 4 ([4, 3, 2, 1] : List Int32) ↔
      ([4, 3, 2, 1] : List Int32).length ≤ 2 ^ 31 ∧ notAbove (value id) ([4, 3, 2, 1] : List Int32) 3 ≤ 1 :=
  bubbleSort3_skips_iff id [4, 3, 2, 1] (by decide) (by decide) 4 (by decide)

/-- On an ascending array `bubbleSort2` is done after two comparisons; `bubbleSort3` makes a
third one although its first pass has exchanged nothing. -/
theorem bubbleSort3_compares_settled : ∃ m₂ m₃, bubbleSort2 id 3 ([1, 2, 3] : List Int32) = .ok m₂ ∧
    bubbleSort3 id 3 ([1, 2, 3] : List Int32) = .ok m₃ ∧ ¬ SkipsSettled (passesOf m₃.events) ∧
      (comparesOf m₂.events).length < (comparesOf m₃.events).length := by
  refine ⟨⟨[1, 2, 3], [.pass 2, .compare 1, .compare 2]⟩,
    ⟨[1, 2, 3], [.pass 2, .compare 1, .compare 2, .pass 1, .compare 1]⟩, by decide, by decide, ?_, by decide⟩
  rintro ⟨-, hNone, -⟩
  exact absurd (hNone rfl [.compare 1] List.mem_cons_self) (by decide)

end Bubble3

end OCNote.Sort
