import Mathlib.Algebra.Group.Nat.Defs
import OCNote.Support.Machine
import OCNote.Support.ProbeTable

/-! # The method cache of a class

`cache_t` as it is built for arm64 devices: the scan goes down from the hashed bucket and
wraps, there is no end marker, and small caches may be full. A bucket array is known by its
`generation`; filling a bucket keeps the array, reallocating and erasing replace it. -/

namespace OCNote.Hook
open OCNote.Support
set_option autoImplicit false

universe u

structure CacheT (Sel Imp : Type u) where
  buckets : Slots Sel (Option Imp)
  mask : Nat
  occupied : Nat
  /-- The buckets are the read-only ones that all empty caches share. -/
  shared : Bool
  generation : Nat
  deriving DecidableEq, Repr

def INIT_CACHE_SIZE : Nat := 2
def MAX_CACHE_SIZE : Nat := 2 ^ 16
def FULL_UTILIZATION_CACHE_SIZE : Nat := 8

def cache_fill_ratio (capacity : Nat) : Nat := capacity * 7 / 8

def cache_next (i mask : Nat) : Nat := if i = 0 then mask else i - 1

def cache_hash (sel mask : Nat) : Nat := (sel ^^^ (sel >>> 7)) &&& mask

namespace CacheT

variable {Sel Imp : Type u} [DecidableEq Sel] (address : Sel → Nat)

def initializeToEmpty : CacheT Sel Imp := ⟨[none], 0, 0, true, 0⟩

def capacity (c : CacheT Sel Imp) : Nat := if c.mask = 0 then 0 else c.mask + 1

def isConstantEmptyCache (c : CacheT Sel Imp) : Bool := c.occupied == 0 && c.shared

def reallocate (c : CacheT Sel Imp) (newCapacity : Nat) : CacheT Sel Imp :=
  ⟨List.replicate newCapacity none, newCapacity - 1, 0, false, c.generation + 1⟩

/-- The cache that `insert` scans: as it is, or with its buckets replaced. -/
def makeRoom (c : CacheT Sel Imp) : CacheT Sel Imp :=
  let newOccupied := c.occupied + 1
  if c.isConstantEmptyCache then
    c.reallocate (if c.capacity = 0 then INIT_CACHE_SIZE else c.capacity)
  else if newOccupied ≤ cache_fill_ratio c.capacity then c
  else if c.capacity ≤ FULL_UTILIZATION_CACHE_SIZE ∧ newOccupied ≤ c.capacity then c
  else c.reallocate (min (if c.capacity = 0 then INIT_CACHE_SIZE else c.capacity * 2) MAX_CACHE_SIZE)

/-- The scan of `insert`, with a bound on the buckets looked at. -/
def insertScan (b : Slots Sel (Option Imp)) (sel : Sel) (m begin : Nat) :
    Nat → Nat → Option (Probe (Option Imp))
  | 0, _ => none
  | fuel + 1, i =>
    match b.entry i with
    | none => some (.vacant i)
    | some (key, imp) =>
      if key = sel then some (.holds i imp)
      else if cache_next i m = begin then some .exhausted
      else insertScan b sel m begin fuel (cache_next i m)

/-- There is no result when the scan comes back to its start, which is `bad_cache`. -/
def insert (c : CacheT Sel Imp) (initialized : Bool) (sel : Sel) (imp : Option Imp) :
    Option (CacheT Sel Imp) :=
  if !initialized then some c else
    let c := c.makeRoom
    let begin := cache_hash (address sel) c.mask
    match insertScan c.buckets sel c.mask begin (c.mask + 1) begin with
    | some (.vacant i) =>
      some { c with buckets := c.buckets.set i (some (sel, imp)), occupied := c.occupied + 1 }
    | some (.holds _ _) => some c
    | _ => none

def eraseNolock (c : CacheT Sel Imp) : CacheT Sel Imp :=
  if 0 < c.occupied then
    ⟨List.replicate c.capacity none, c.capacity - 1, 0, true, c.generation + 1⟩
  else c

/-- What `CacheLookup` finds in one bucket. -/
inductive Scan (Imp : Type u) where
  | hit (imp : Option Imp)
  | miss
  | more
  deriving DecidableEq, Repr

def scanBucket (b : Slots Sel (Option Imp)) (sel : Sel) (i : Nat) : Scan Imp :=
  match b.entry i with
  | some (key, imp) => if key = sel then .hit imp else .more
  | none => .miss

/-- `do { … } while (bucket >= buckets)`. -/
def scanDown (b : Slots Sel (Option Imp)) (sel : Sel) : Nat → Scan Imp
  | 0 => scanBucket b sel 0
  | i + 1 =>
    match scanBucket b sel (i + 1) with
    | .more => scanDown b sel i
    | found => found

/-- `do { … } while (sel != 0 && bucket > first_probed)`; the first bucket looked at may be
the one that was probed first. -/
def scanWrapped (b : Slots Sel (Option Imp)) (sel : Sel) (first : Nat) : Nat → Scan Imp
  | 0 =>
    match scanBucket b sel 0 with
    | .more => .miss
    | found => found
  | i + 1 =>
    match scanBucket b sel (i + 1) with
    | .more => if first < i then scanWrapped b sel first i else .miss
    | found => found

/-- The cached implementation, which may be nil, or a miss. -/
def CacheLookup (c : CacheT Sel Imp) (sel : Sel) : Option (Option Imp) :=
  let first := cache_hash (address sel) c.mask
  match scanDown c.buckets sel first with
  | .hit imp => some imp
  | .miss => none
  | .more =>
    match scanWrapped c.buckets sel first c.mask with
    | .hit imp => some imp
    | _ => none

/-- A cached nil implementation and a miss look the same. -/
def cache_getImp (c : CacheT Sel Imp) (sel : Sel) : Option Imp := (c.CacheLookup address sel).join

def shouldFlush [DecidableEq Imp] (c : CacheT Sel Imp) (sel : Sel) (imp : Option Imp) : Bool :=
  c.cache_getImp address sel == imp

end CacheT

section Scan

variable {Sel Imp : Type u} [DecidableEq Sel] {b : Slots Sel (Option Imp)} {sel : Sel}

theorem cache_hash_le (sel mask : Nat) : cache_hash sel mask ≤ mask := Nat.and_le_right

/-- The buckets in the order in which a scan that begins at `begin` looks at them. -/
def scanPath (mask begin : Nat) : List Nat :=
  downFrom 0 (begin + 1) ++ downFrom (begin + 1) (mask - begin)

theorem mem_scanPath {mask begin i : Nat} (h : begin ≤ mask) : i ∈ scanPath mask begin ↔ i ≤ mask := by
  simp only [scanPath, List.mem_append, mem_downFrom]
  omega

namespace CacheT

theorem insertScan_cons {m begin fuel i : Nat} {path : List Nat}
    (h : (if cache_next i m = begin then some .exhausted else insertScan b sel m begin fuel (cache_next i m)) =
      some (b.probe sel path)) :
    insertScan b sel m begin (fuel + 1) i = some (b.probe sel (i :: path)) := by
  rw [insertScan, h, Slots.probe]
  cases hEntry : b.entry i with
  | none => simp only
  | some e =>
    simp only
    split <;> rfl

theorem insertScan_above {m begin fuel n : Nat} (hFuel : n < fuel) :
    insertScan b sel m begin fuel (begin + 1 + n) = some (b.probe sel (downFrom (begin + 1) (n + 1))) := by
  induction n generalizing fuel with
  | zero =>
    obtain ⟨fuel, rfl⟩ := Nat.exists_eq_add_one_of_ne_zero (Nat.ne_of_gt hFuel)
    apply insertScan_cons
    rw [if_pos (by simp [cache_next])]
    rfl
  | succ n ih =>
    obtain ⟨fuel, rfl⟩ := Nat.exists_eq_add_one_of_ne_zero (Nat.ne_of_gt (Nat.zero_lt_of_lt hFuel))
    have hNext : cache_next (begin + 1 + (n + 1)) m = begin + 1 + n := rfl
    apply insertScan_cons
    rw [hNext, if_neg (by omega)]
    exact ih (by omega)

theorem insertScan_below {m begin fuel i : Nat} (hi : i ≤ begin) (hm : begin ≤ m)
    (hFuel : i + (m - begin) < fuel) :
    insertScan b sel m begin fuel i =
      some (b.probe sel (downFrom 0 (i + 1) ++ downFrom (begin + 1) (m - begin))) := by
  obtain ⟨fuel, rfl⟩ := Nat.exists_eq_add_one_of_ne_zero (Nat.ne_of_gt (Nat.zero_lt_of_lt hFuel))
  induction i generalizing fuel with
  | zero =>
    apply insertScan_cons
    rw [show cache_next 0 m = m from rfl]
    split
    · rename_i hWrap
      rw [hWrap, Nat.sub_self]
      rfl
    · have hEnough : m - begin - 1 < fuel := by omega
      have hAbove : insertScan b sel m begin fuel (begin + 1 + (m - begin - 1)) = _ := insertScan_above hEnough
      have hTop : begin + 1 + (m - begin - 1) = m := by omega
      have hCount : m - begin - 1 + 1 = m - begin := by omega
      rwa [hTop, hCount] at hAbove
  | succ i ih =>
    rw [downFrom, List.cons_append, Nat.zero_add]
    apply insertScan_cons
    rw [show cache_next (i + 1) m = i from rfl, if_neg (by omega)]
    obtain ⟨fuel, rfl⟩ := Nat.exists_eq_add_one_of_ne_zero (show fuel ≠ 0 by omega)
    exact ih (by omega) fuel (by omega)

/-- The do-while loop of `insert` is one pass over the buckets. -/
theorem insertScan_eq {m begin : Nat} (h : begin ≤ m) :
    insertScan b sel m begin (m + 1) begin = some (b.probe sel (scanPath m begin)) :=
  insertScan_below (Nat.le_refl begin) h (by omega)

def Scan.ofProbe : Probe (Option Imp) → Scan Imp
  | .holds _ imp => .hit imp
  | .vacant _ => .miss
  | .exhausted => .more

theorem scanBucket_cons (i : Nat) (path : List Nat) :
    Scan.ofProbe (b.probe sel (i :: path)) =
      match scanBucket b sel i with
      | .more => Scan.ofProbe (b.probe sel path)
      | found => found := by
  simp only [Slots.probe, scanBucket]
  cases b.entry i with
  | none => rfl
  | some e =>
    by_cases hKey : e.1 = sel
    · simp only [hKey, if_true]
      rfl
    · simp only [hKey, if_false]

theorem scanDown_eq (i : Nat) : scanDown b sel i = Scan.ofProbe (b.probe sel (downFrom 0 (i + 1))) := by
  induction i with
  | zero =>
    rw [downFrom, scanBucket_cons, scanDown]
    cases scanBucket b sel (0 + 0) <;> rfl
  | succ i ih => rw [downFrom, scanBucket_cons, scanDown, ih, Nat.zero_add]

def Scan.orMiss : Scan Imp → Scan Imp
  | .more => .miss
  | found => found

theorem scanWrapped_eq {first n : Nat} :
    scanWrapped b sel first (first + 1 + n) =
      (Scan.ofProbe (b.probe sel (downFrom (first + 1) (n + 1)))).orMiss := by
  induction n with
  | zero =>
    rw [downFrom, scanBucket_cons, Nat.add_zero, scanWrapped, if_neg (Nat.lt_irrefl first)]
    cases scanBucket b sel (first + 1) <;> rfl
  | succ n ih =>
    have hGoOn : first < first + 1 + n := by omega
    rw [downFrom, scanBucket_cons, ← Nat.add_assoc, scanWrapped, if_pos hGoOn, ih]
    cases scanBucket b sel (first + 1 + n + 1) <;> rfl

/-- Coming back to the first bucket adds nothing: it holds another selector. -/
theorem scanWrapped_self {first : Nat} (h : scanDown b sel first = .more) :
    scanWrapped b sel first first = .miss := by
  cases first with
  | zero => rw [scanWrapped, show scanBucket b sel 0 = .more from h]
  | succ i =>
    rw [scanDown] at h
    cases hBucket : scanBucket b sel (i + 1) with
    | hit imp => simp [hBucket] at h
    | miss => simp [hBucket] at h
    | more =>
      rw [scanWrapped, hBucket]
      exact if_neg (Nat.not_lt.mpr (Nat.le_succ i))

end CacheT

end Scan

namespace CacheT

variable {Sel Imp : Type u} [DecidableEq Sel] (address : Sel → Nat)

def path (mask : Nat) (sel : Sel) : List Nat := scanPath mask (cache_hash (address sel) mask)

def find? (c : CacheT Sel Imp) (sel : Sel) : Option (Option Imp) := c.buckets.find? (path address c.mask) sel

/-- The assembly looks at the same buckets as `insert`, the first one perhaps twice. -/
theorem CacheLookup_eq (c : CacheT Sel Imp) (sel : Sel) :
    c.CacheLookup address sel = c.find? address sel := by
  have hHash := cache_hash_le (address sel) c.mask
  simp only [CacheLookup, find?, Slots.find?, path, scanPath]
  generalize cache_hash (address sel) c.mask = first at hHash
  have hDown : scanDown c.buckets sel first = _ := scanDown_eq first
  rw [Slots.probe_append]
  cases hProbe : c.buckets.probe sel (downFrom 0 (first + 1)) with
  | holds i imp => rw [hDown, hProbe]; rfl
  | vacant i => rw [hDown, hProbe]; rfl
  | exhausted =>
    rw [hProbe] at hDown
    rw [hDown]
    simp only [Scan.ofProbe]
    obtain rfl | hLess := Nat.eq_or_lt_of_le hHash
    · rw [scanWrapped_self hDown, Nat.sub_self]
      rfl
    · have hWrapped : scanWrapped c.buckets sel first (first + 1 + (c.mask - first - 1)) = _ := scanWrapped_eq
      have hTop : first + 1 + (c.mask - first - 1) = c.mask := by omega
      have hCount : c.mask - first - 1 + 1 = c.mask - first := by omega
      rw [hTop, hCount] at hWrapped
      rw [hWrapped]
      cases c.buckets.probe sel (downFrom (first + 1) (c.mask - first)) <;> rfl

section Valid

/-- What every cache keeps. The load is why a scan always meets an empty bucket. -/
structure Valid (c : CacheT Sel Imp) : Prop where
  length_eq : c.buckets.length = c.mask + 1
  placed : c.buckets.Placed (path address c.mask)
  occupied_eq : c.occupied = c.buckets.taken
  load : c.occupied ≤ cache_fill_ratio c.capacity ∨
    c.capacity ≤ FULL_UTILIZATION_CACHE_SIZE ∧ c.occupied ≤ c.capacity
  empty_of_shared : c.shared = true → c.occupied = 0
  capacity_eq : (c.mask = 0 ∧ c.shared = true) ∨ ∃ k, 1 ≤ k ∧ k ≤ 16 ∧ c.mask + 1 = 2 ^ k

variable {address} {c : CacheT Sel Imp}

theorem valid_initializeToEmpty : (initializeToEmpty : CacheT Sel Imp).Valid address where
  length_eq := rfl
  placed := Slots.Placed.replicate 1
  occupied_eq := rfl
  load := .inl (Nat.zero_le _)
  empty_of_shared _ := rfl
  capacity_eq := .inl ⟨rfl, rfl⟩

theorem two_le_pow {k : Nat} (hk : 1 ≤ k) : 2 ≤ 2 ^ k := by
  calc
    2 = 2 ^ 1 := rfl
    _ ≤ 2 ^ k := Nat.pow_le_pow_right (by decide) hk

omit [DecidableEq Sel] in
theorem capacity_of_mask {k : Nat} (hk : 1 ≤ k) (h : c.mask + 1 = 2 ^ k) : c.capacity = 2 ^ k := by
  have hTwo := two_le_pow hk
  rw [capacity, if_neg (by omega), h]

theorem valid_fresh {c : CacheT Sel Imp} {n k : Nat} (hBuckets : c.buckets = List.replicate n none)
    (hMask : c.mask = n - 1) (hOccupied : c.occupied = 0) (hn : n = 2 ^ k) (hk : 1 ≤ k) (hk' : k ≤ 16) :
    c.Valid address := by
  have hTwo := two_le_pow hk
  have hLength : c.mask + 1 = n := by omega
  constructor
  · rw [hBuckets, List.length_replicate, hLength]
  · rw [hBuckets]
    exact Slots.Placed.replicate n
  · rw [hBuckets, Slots.taken_replicate, hOccupied]
  · rw [hOccupied]
    exact .inl (Nat.zero_le _)
  · exact fun _ => hOccupied
  · exact .inr ⟨k, hk, hk', hLength.trans hn⟩

/-- One more entry keeps the load. -/
def HasRoom (c : CacheT Sel Imp) : Prop :=
  c.occupied + 1 ≤ cache_fill_ratio c.capacity ∨
    c.capacity ≤ FULL_UTILIZATION_CACHE_SIZE ∧ c.occupied + 1 ≤ c.capacity

theorem makeRoom_cases (h : c.Valid address) :
    (c.makeRoom = c ∧ c.shared = false ∧ c.HasRoom) ∨
    ∃ k, 1 ≤ k ∧ k ≤ 16 ∧ c.mask + 1 ≤ 2 ^ k ∧ c.makeRoom = c.reallocate (2 ^ k) := by
  unfold makeRoom
  dsimp only
  split
  · right
    obtain ⟨hMask, _⟩ | ⟨k, hk, hk', hMask⟩ := h.capacity_eq
    · refine ⟨1, Nat.le_refl 1, by omega, by omega, ?_⟩
      rw [if_pos (by rw [capacity, if_pos hMask])]
      rfl
    · have hTwo := two_le_pow hk
      have hCapacity := capacity_of_mask hk hMask
      refine ⟨k, hk, hk', Nat.le_of_eq hMask, ?_⟩
      rw [hCapacity, if_neg (by omega)]
  · rename_i hNotEmpty
    have hOwn : c.shared = false := by
      cases hShared : c.shared with
      | false => rfl
      | true => simp [isConstantEmptyCache, hShared, h.empty_of_shared hShared] at hNotEmpty
    split
    · rename_i hLoad
      exact .inl ⟨rfl, hOwn, .inl hLoad⟩
    · split
      · rename_i hFull
        exact .inl ⟨rfl, hOwn, .inr hFull⟩
      · right
        obtain ⟨_, hShared⟩ | ⟨k, hk, hk', hMask⟩ := h.capacity_eq
        · rw [hOwn] at hShared
          cases hShared
        · have hTwo := two_le_pow hk
          have hCapacity := capacity_of_mask hk hMask
          have hPow : 2 ^ (k + 1) = 2 ^ k * 2 := Nat.pow_succ 2 k
          rw [hCapacity, if_neg (by omega)]
          obtain hLess | hEq := Nat.lt_or_eq_of_le hk'
          · refine ⟨k + 1, by omega, hLess, by omega, ?_⟩
            have hMax : 2 ^ (k + 1) ≤ MAX_CACHE_SIZE := Nat.pow_le_pow_right (by decide) hLess
            rw [Nat.min_eq_left (by omega), hPow]
          · refine ⟨16, by omega, Nat.le_refl 16, Nat.le_of_eq (by rw [hMask, hEq]), ?_⟩
            rw [hEq]
            rfl

variable (address) in
/-- What `insert` leaves in place of `c`. -/
structure Inserts (c c' : CacheT Sel Imp) (initialized : Bool) (sel : Sel) (imp : Option Imp) : Prop where
  valid : c'.Valid address
  mask_le : c.mask ≤ c'.mask
  found : initialized = true → ∃ v, c'.find? address sel = some v
  entries : ∀ i s v, c'.buckets.entry i = some (s, v) →
    (s = sel ∧ v = imp) ∨ (c'.generation = c.generation ∧ c.buckets.entry i = some (s, v))
  array : (c'.generation = c.generation ∧ c'.mask = c.mask) ∨ c'.generation = c.generation + 1

omit [DecidableEq Sel] in
theorem path_le {mask i : Nat} {sel : Sel} : i ∈ path address mask sel ↔ i ≤ mask :=
  mem_scanPath (cache_hash_le _ _)

theorem Valid.lt_of_hasRoom (h : c.Valid address) (hRoom : c.HasRoom) :
    c.buckets.taken < c.buckets.length := by
  have hCapacity : c.capacity ≤ c.mask + 1 := by
    unfold capacity
    split <;> omega
  rw [← h.occupied_eq, h.length_eq]
  unfold HasRoom cache_fill_ratio at hRoom
  omega

theorem Valid.fill (h : c.Valid address) (hOwn : c.shared = false) (hRoom : c.HasRoom)
    {sel : Sel} {i : Nat} (hVacant : c.buckets.probe sel (path address c.mask sel) = .vacant i)
    (imp : Option Imp) :
    ({ c with buckets := c.buckets.set i (some (sel, imp)), occupied := c.occupied + 1} :
      CacheT Sel Imp).Valid address := by
  obtain ⟨hMem, hEmpty⟩ := Slots.entry_of_vacant hVacant
  have hi : i < c.buckets.length := by
    rw [h.length_eq]
    exact Nat.lt_succ_of_le (path_le.mp hMem)
  constructor
  · exact (List.length_set ..).trans h.length_eq
  · exact h.placed.set hVacant hi imp
  · exact (congrArg (· + 1) h.occupied_eq).trans (Slots.taken_set hi hEmpty (sel, imp)).symm
  · exact hRoom
  · intro hShared
    rw [show c.shared = true from hShared] at hOwn
    cases hOwn
  · exact h.capacity_eq

omit [DecidableEq Sel] in
theorem hasRoom_fresh {k : Nat} (hk : 1 ≤ k) : (c.reallocate (2 ^ k)).HasRoom := by
  have hTwo := two_le_pow hk
  have hMask : (c.reallocate (2 ^ k)).mask + 1 = 2 ^ k := by
    change 2 ^ k - 1 + 1 = 2 ^ k
    omega
  left
  rw [capacity_of_mask hk hMask, cache_fill_ratio]
  change 0 + 1 ≤ 2 ^ k * 7 / 8
  omega

/-- The scan finds the selector or a free bucket: `bad_cache` is not reached. -/
theorem Valid.probe_cases (h : c.Valid address) (hRoom : c.HasRoom) (sel : Sel) :
    (∃ i v, c.buckets.probe sel (path address c.mask sel) = .holds i v) ∨
      ∃ i, c.buckets.probe sel (path address c.mask sel) = .vacant i := by
  cases hProbe : c.buckets.probe sel (path address c.mask sel) with
  | holds i v => exact .inl ⟨i, v, rfl⟩
  | vacant i => exact .inr ⟨i, rfl⟩
  | exhausted =>
    refine absurd hProbe (Slots.probe_ne_exhausted (fun i hi => ?_) (h.lt_of_hasRoom hRoom))
    rw [h.length_eq] at hi
    exact path_le.mpr (Nat.le_of_lt_succ hi)

theorem insert_eq {d : CacheT Sel Imp} (hd : c.makeRoom = d) (sel : Sel) (imp : Option Imp) :
    c.insert address true sel imp =
      match d.buckets.probe sel (path address d.mask sel) with
      | .vacant i =>
        some { d with buckets := d.buckets.set i (some (sel, imp)), occupied := d.occupied + 1 }
      | .holds _ _ => some d
      | .exhausted => none := by
  simp only [insert, hd, insertScan_eq (cache_hash_le (address sel) d.mask), path]
  cases d.buckets.probe sel (scanPath d.mask (cache_hash (address sel) d.mask)) <;> rfl

theorem insert_spec (h : c.Valid address) (initialized : Bool) (sel : Sel) (imp : Option Imp) :
    ∃ c', c.insert address initialized sel imp = some c' ∧
      Inserts address c c' initialized sel imp := by
  cases initialized with
  | false =>
    refine ⟨c, rfl, h, Nat.le_refl _, fun hFalse => ?_, fun i s v hEntry => .inr ⟨rfl, hEntry⟩, .inl ⟨rfl, rfl⟩⟩
    cases hFalse
  | true =>
    obtain ⟨hSame, hOwn, hRoom⟩ | ⟨k, hk, hk', hMask, hFresh⟩ := makeRoom_cases h
    · rw [insert_eq hSame]
      obtain ⟨i, v, hProbe⟩ | ⟨i, hProbe⟩ := h.probe_cases hRoom sel
      · rw [hProbe]
        refine ⟨c, rfl, h, Nat.le_refl _, fun _ => ⟨v, ?_⟩, fun i s v hEntry => .inr ⟨rfl, hEntry⟩, .inl ⟨rfl, rfl⟩⟩
        exact Slots.find?_eq_some_of_holds hProbe
      · rw [hProbe]
        have hi : i < c.buckets.length := by
          rw [h.length_eq]
          exact Nat.lt_succ_of_le (path_le.mp (Slots.entry_of_vacant hProbe).1)
        refine ⟨_, rfl, h.fill hOwn hRoom hProbe imp, Nat.le_refl _, fun _ => ⟨imp, ?_⟩, ?_, .inl ⟨rfl, rfl⟩⟩
        · exact Slots.find?_eq_some_of_holds (Slots.probe_set_of_vacant hProbe hi imp)
        · intro j s v hEntry
          rw [Slots.entry_set _ hi] at hEntry
          split at hEntry
          · cases hEntry
            exact .inl ⟨rfl, rfl⟩
          · exact .inr ⟨rfl, hEntry⟩
    · have hd : (c.reallocate (2 ^ k)).Valid address := valid_fresh rfl rfl rfl rfl hk hk'
      have hRoom : (c.reallocate (2 ^ k)).HasRoom := hasRoom_fresh hk
      have hNone : ∀ i, (c.reallocate (2 ^ k)).buckets.entry i = none := Slots.entry_replicate (2 ^ k)
      rw [insert_eq hFresh]
      obtain ⟨i, v, hProbe⟩ | ⟨i, hProbe⟩ := hd.probe_cases hRoom sel
      · have hEntry := Slots.entry_of_holds hProbe
        rw [hNone] at hEntry
        cases hEntry
      · rw [hProbe]
        have hi : i < (c.reallocate (2 ^ k)).buckets.length := by
          rw [hd.length_eq]
          exact Nat.lt_succ_of_le (path_le.mp (Slots.entry_of_vacant hProbe).1)
        refine ⟨_, rfl, hd.fill rfl hRoom hProbe imp, ?_, fun _ => ⟨imp, ?_⟩, ?_, .inr rfl⟩
        · change c.mask ≤ 2 ^ k - 1
          omega
        · exact Slots.find?_eq_some_of_holds (Slots.probe_set_of_vacant hProbe hi imp)
        · intro j s v hEntry
          rw [Slots.entry_set _ hi, hNone] at hEntry
          split at hEntry
          · cases hEntry
            exact .inl ⟨rfl, rfl⟩
          · cases hEntry

/-- Erasing replaces the buckets and keeps their number. -/
theorem eraseNolock_spec (h : c.Valid address) :
    c.eraseNolock.Valid address ∧ c.eraseNolock.mask = c.mask ∧
      (∀ i, c.eraseNolock.buckets.entry i = none) ∧
      (c.eraseNolock = c ∨ c.eraseNolock.generation = c.generation + 1) := by
  unfold eraseNolock
  split
  · rename_i hOccupied
    obtain ⟨_, hShared⟩ | ⟨k, hk, hk', hMask⟩ := h.capacity_eq
    · rw [h.empty_of_shared hShared] at hOccupied
      cases hOccupied
    · have hCapacity := capacity_of_mask hk hMask
      refine ⟨valid_fresh rfl rfl rfl hCapacity hk hk', ?_, Slots.entry_replicate _, .inr rfl⟩
      change c.capacity - 1 = c.mask
      omega
  · rename_i hEmpty
    refine ⟨h, rfl, fun i => ?_, .inl rfl⟩
    have hTaken : c.buckets.taken = 0 := by
      rw [← h.occupied_eq]
      omega
    exact Slots.entry_of_taken hTaken i

theorem CacheLookup_eq_some (h : c.Valid address) {sel : Sel} {imp : Option Imp} :
    c.CacheLookup address sel = some imp ↔ ∃ i, c.buckets.entry i = some (sel, imp) := by
  rw [CacheLookup_eq]
  exact h.placed.find?_eq_some

end Valid

section Run

inductive CacheEvent (Sel Imp : Type u) where
  | insert (initialized : Bool) (sel : Sel) (imp : Option Imp)
  | eraseNolock

/-- There is no next state where the cache is found corrupted. -/
def cacheMachine : Machine (CacheT Sel Imp) (CacheEvent Sel Imp) where
  start := initializeToEmpty
  step c
    | .insert initialized sel imp => c.insert address initialized sel imp
    | .eraseNolock => some c.eraseNolock

/-- `sel` was cached with `imp` after the last time the cache was erased. -/
def InsertedSinceErase (es : List (CacheEvent Sel Imp)) (sel : Sel) (imp : Option Imp) : Prop :=
  ∃ pre post, es = pre ++ .insert true sel imp :: post ∧ .eraseNolock ∉ post

omit [DecidableEq Sel] in
theorem InsertedSinceErase.append {es : List (CacheEvent Sel Imp)} {sel : Sel} {imp : Option Imp}
    (h : InsertedSinceErase es sel imp) {e : CacheEvent Sel Imp} (he : e ≠ .eraseNolock) :
    InsertedSinceErase (es ++ [e]) sel imp := by
  obtain ⟨pre, post, rfl, hPost⟩ := h
  refine ⟨pre, post ++ [e], by simp, fun hMem => ?_⟩
  obtain hMem | hMem := List.mem_append.mp hMem
  · exact hPost hMem
  · exact he (List.mem_singleton.mp hMem).symm

variable {address}

/-- What one event leaves behind a cache that answers only what `es` has cached. -/
theorem step_spec {es : List (CacheEvent Sel Imp)} {c : CacheT Sel Imp} (h : c.Valid address)
    (hSince : ∀ i sel imp, c.buckets.entry i = some (sel, imp) → InsertedSinceErase es sel imp)
    (e : CacheEvent Sel Imp) :
    ∃ c', (cacheMachine address).step c e = some c' ∧ c'.Valid address ∧ c.mask ≤ c'.mask ∧
      (∀ i sel imp, c'.buckets.entry i = some (sel, imp) → InsertedSinceErase (es ++ [e]) sel imp) ∧
      ∀ sel imp, e = .insert true sel imp → (c'.CacheLookup address sel).isSome = true := by
  cases e with
  | insert initialized sel imp =>
    obtain ⟨c', hStep, hInserts⟩ := insert_spec h initialized sel imp
    refine ⟨c', hStep, hInserts.valid, hInserts.mask_le, fun i s v hEntry => ?_, ?_⟩
    · obtain ⟨hNew, hOld⟩ | ⟨_, hOld⟩ := hInserts.entries i s v hEntry
      · cases initialized with
        | false =>
          cases hStep
          exact (hSince i s v hEntry).append (by simp)
        | true => exact ⟨es, [], by rw [hNew, hOld], by simp⟩
      · exact (hSince i s v hOld).append (by simp)
    · rintro s v ⟨⟩
      obtain ⟨found, hFound⟩ := hInserts.found rfl
      rw [CacheLookup_eq, hFound]
      rfl
  | eraseNolock =>
    obtain ⟨hValid, hMask, hNone, _⟩ := eraseNolock_spec h
    refine ⟨c.eraseNolock, rfl, hValid, Nat.le_of_eq hMask.symm, fun i s v hEntry => ?_, ?_⟩
    · rw [hNone] at hEntry
      cases hEntry
    · rintro s v ⟨⟩

variable (address)

theorem entries_run (es : List (CacheEvent Sel Imp)) :
    ∃ c, (cacheMachine address).run es = some c ∧ c.Valid address ∧
      (∀ i sel imp, c.buckets.entry i = some (sel, imp) → InsertedSinceErase es sel imp) ∧
      (∀ pre sel imp, es = pre ++ [.insert true sel imp] → (c.CacheLookup address sel).isSome = true) ∧
      ∀ pre post d, es = pre ++ post → (cacheMachine address).run pre = some d → d.mask ≤ c.mask := by
  induction es using List.reverseRecOn with
  | nil =>
    refine ⟨initializeToEmpty, rfl, valid_initializeToEmpty, fun i sel imp hEntry => ?_, ?_, ?_⟩
    · rw [show (initializeToEmpty : CacheT Sel Imp).buckets = List.replicate 1 none from rfl,
        Slots.entry_replicate] at hEntry
      cases hEntry
    · intro pre sel imp hEs
      simp at hEs
    · intro pre post d hEs hRun
      obtain ⟨rfl, rfl⟩ := List.append_eq_nil_iff.mp hEs.symm
      cases hRun
      exact Nat.le_refl _
  | append_singleton es e ih =>
    obtain ⟨c, hRun, hValid, hSince, _, hMask⟩ := ih
    obtain ⟨c', hStep, hValid', hLe, hSince', hFound⟩ := step_spec hValid hSince e
    have hRun' : (cacheMachine address).run (es ++ [e]) = some c' := by
      rw [Machine.run_concat, hRun]
      exact hStep
    refine ⟨c', hRun', hValid', hSince', fun pre sel imp hEs => ?_, fun pre post d hEs hPre => ?_⟩
    · obtain ⟨_, hLast⟩ := List.append_inj' hEs rfl
      exact hFound sel imp (List.singleton_inj.mp hLast)
    · induction post using List.reverseRecOn with
      | nil =>
        rw [List.append_nil] at hEs
        rw [← hEs, hRun'] at hPre
        cases hPre
        exact Nat.le_refl _
      | append_singleton post f _ =>
        rw [← List.append_assoc] at hEs
        exact Nat.le_trans (hMask pre post d (List.append_inj' hEs rfl).1 hPre) hLe

end Run

end CacheT

end OCNote.Hook
