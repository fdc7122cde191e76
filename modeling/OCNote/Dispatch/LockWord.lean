import Mathlib.Tactic.Common

/-! # The words of the locks

A lock word holds the port of its owner, without its two lowest bits, and a bit that says
that there are waiters. The word of a once token is wider: it ends as all ones, or as a generation
marked by the other low bit. -/

namespace OCNote.Dispatch
set_option autoImplicit false

def DLOCK_OWNER_MASK : BitVec 32 := 0xfffffffc#32

def DLOCK_WAITERS_BIT : BitVec 32 := 1#32

def DLOCK_FAILED_TRYLOCK_BIT : BitVec 32 := 2#32

def DLOCK_ONCE_UNLOCKED : BitVec 64 := 0#64

def DLOCK_ONCE_DONE : BitVec 64 := ~~~0#64

def DISPATCH_ONCE_GEN_SAFE_DELTA : BitVec 64 := 4#64 <<< 2

def DISPATCH_ONCE_MAKE_GEN (gen : BitVec 64) : BitVec 64 := (gen <<< 2) + DLOCK_FAILED_TRYLOCK_BIT.setWidth 64

def DISPATCH_ONCE_IS_GEN (gen : BitVec 64) : Bool := gen &&& 3#64 == DLOCK_FAILED_TRYLOCK_BIT.setWidth 64

def lock_value_from_tid (tid : BitVec 32) : BitVec 32 := tid &&& DLOCK_OWNER_MASK

def lock_is_locked_by (lock_value tid : BitVec 32) : Bool := (lock_value ^^^ tid) &&& DLOCK_OWNER_MASK == 0#32

/-- Ports of live threads: each has an owner, and they differ in more than the low bits. -/
structure Tids {ι : Type*} (tid : ι → BitVec 32) : Prop where
  owner : ∀ i, lock_value_from_tid (tid i) ≠ 0#32
  injective : ∀ i j, lock_value_from_tid (tid i) = lock_value_from_tid (tid j) → i = j

/-- The once word while the thread runs the block, with or without the bit for waiters. -/
def heldWord (tid : BitVec 32) (waiters : Bool) : BitVec 64 :=
  (lock_value_from_tid tid).setWidth 64 ||| if waiters then DLOCK_WAITERS_BIT.setWidth 64 else 0#64

section Bits

variable {tid tid' : BitVec 32} {waiters : Bool}

theorem heldWord_true (tid : BitVec 32) : heldWord tid true = heldWord tid false ||| 1#64 := by
  simp [heldWord, DLOCK_WAITERS_BIT]

theorem heldWord_low (tid : BitVec 32) (waiters : Bool) :
    heldWord tid waiters &&& 3#64 = if waiters then 1#64 else 0#64 := by
  have hMask : DLOCK_OWNER_MASK.setWidth 64 &&& 3#64 = 0#64 := by decide
  have hOwner : (lock_value_from_tid tid).setWidth 64 &&& 3#64 = 0#64 := by
    rw [lock_value_from_tid, BitVec.setWidth_and, BitVec.and_assoc, hMask, BitVec.and_zero]
  rw [heldWord, BitVec.and_or_distrib_right, hOwner, BitVec.zero_or]
  cases waiters <;> decide

theorem heldWord_owner (tid : BitVec 32) (waiters : Bool) :
    (heldWord tid waiters).setWidth 32 &&& DLOCK_OWNER_MASK = lock_value_from_tid tid := by
  have hBit : (if waiters then DLOCK_WAITERS_BIT.setWidth 64 else 0#64).setWidth 32 &&& DLOCK_OWNER_MASK = 0#32 := by
    cases waiters <;> decide
  rw [heldWord, BitVec.setWidth_or, BitVec.and_or_distrib_right, hBit, BitVec.or_zero,
    BitVec.setWidth_setWidth_of_le _ (by decide), BitVec.setWidth_eq, lock_value_from_tid, BitVec.and_assoc,
    BitVec.and_self]

theorem heldWord_or (tid : BitVec 32) (waiters : Bool) :
    heldWord tid waiters ||| DLOCK_WAITERS_BIT.setWidth 64 = heldWord tid true := by
  cases waiters with
  | false => exact (heldWord_true tid).symm
  | true => rw [heldWord_true, BitVec.or_assoc]; rfl

theorem and_xor {w : Nat} (x y z : BitVec w) : (x ^^^ y) &&& z = (x &&& z) ^^^ (y &&& z) :=
  BitVec.eq_of_getElem_eq (by simp [Bool.and_xor_distrib_right])

theorem lock_value_from_tid_self (tid : BitVec 32) :
    lock_value_from_tid (lock_value_from_tid tid) = lock_value_from_tid tid := by
  rw [lock_value_from_tid, lock_value_from_tid, BitVec.and_assoc, BitVec.and_self]

theorem lock_is_locked_by_heldWord :
    lock_is_locked_by ((heldWord tid waiters).setWidth 32) tid' = true ↔
      lock_value_from_tid tid = lock_value_from_tid tid' := by
  rw [lock_is_locked_by, beq_iff_eq, and_xor, BitVec.xor_eq_zero_iff, heldWord_owner, lock_value_from_tid,
    lock_value_from_tid]

/-- The owner's own value is the word as long as there are no waiters. -/
theorem setWidth_heldWord_iff :
    (heldWord tid waiters).setWidth 32 = lock_value_from_tid tid ↔ waiters = false := by
  have hFalse : (heldWord tid false).setWidth 32 = lock_value_from_tid tid := by
    simp [heldWord]
  have hMask : DLOCK_OWNER_MASK &&& 1#32 = 0#32 := by decide
  cases waiters with
  | false => exact iff_of_true hFalse rfl
  | true =>
    refine iff_of_false (fun h => ?_) Bool.noConfusion
    rw [heldWord_true, BitVec.setWidth_or, hFalse] at h
    have hBit := congrArg (· &&& 1#32) h
    rw [BitVec.and_or_distrib_right, lock_value_from_tid, BitVec.and_assoc, hMask, BitVec.and_zero] at hBit
    exact absurd hBit (by decide)

theorem heldWord_ne_unlocked (h : lock_value_from_tid tid ≠ 0#32) : heldWord tid waiters ≠ DLOCK_ONCE_UNLOCKED := by
  intro hZero
  have hOwner := heldWord_owner tid waiters
  rw [hZero] at hOwner
  exact h (hOwner.symm.trans (by decide))

theorem heldWord_inj {waiters' : Bool} (h : heldWord tid waiters = heldWord tid' waiters') :
    lock_value_from_tid tid = lock_value_from_tid tid' ∧ waiters = waiters' := by
  refine ⟨?_, ?_⟩
  · rw [← heldWord_owner tid waiters, h, heldWord_owner]
  · have hLow := heldWord_low tid waiters
    rw [h, heldWord_low] at hLow
    revert hLow
    cases waiters <;> cases waiters' <;> decide

/-- The block has run: all ones, or a generation. -/
def OnceDone (word : BitVec 64) : Prop := word = DLOCK_ONCE_DONE ∨ DISPATCH_ONCE_IS_GEN word = true

theorem onceDone_low {word : BitVec 64} (h : OnceDone word) : word &&& 3#64 = 3#64 ∨ word &&& 3#64 = 2#64 := by
  obtain rfl | h := h
  · exact .inl (by decide)
  · exact .inr (beq_iff_eq.mp h)

theorem not_onceDone_heldWord : ¬ OnceDone (heldWord tid waiters) := by
  intro h
  have hLow := onceDone_low h
  rw [heldWord_low] at hLow
  revert hLow
  cases waiters <;> decide

theorem isGen_makeGen (gen : BitVec 64) : DISPATCH_ONCE_IS_GEN (DISPATCH_ONCE_MAKE_GEN gen) = true := by
  have hShift : gen <<< 2 &&& 3#64 = 0#64 := by
    apply BitVec.eq_of_toNat_eq
    rw [BitVec.toNat_and, BitVec.toNat_shiftLeft, Nat.shiftLeft_eq]
    change (gen.toNat * 2 ^ 2 % 2 ^ 64) &&& (2 ^ 2 - 1) = 0
    rw [Nat.and_two_pow_sub_one_eq_mod]
    omega
  have hSum : gen <<< 2 + 2#64 = gen <<< 2 ||| 2#64 := by
    apply BitVec.add_eq_or_of_and_eq_zero
    have hBit := congrArg (· &&& 2#64) hShift
    rwa [BitVec.and_assoc] at hBit
  rw [DISPATCH_ONCE_IS_GEN, DISPATCH_ONCE_MAKE_GEN, beq_iff_eq]
  change (gen <<< 2 + 2#64) &&& 3#64 = 2#64
  rw [hSum, BitVec.and_or_distrib_right, hShift]
  rfl

theorem low_of_setWidth {x y : BitVec 64} (h : x.setWidth 32 = y.setWidth 32) : x &&& 3#64 = y &&& 3#64 := by
  have hLow : ∀ z : BitVec 64, (z &&& 3#64).toNat = z.toNat % 4 := fun z => by
    rw [BitVec.toNat_and]
    exact Nat.and_two_pow_sub_one_eq_mod z.toNat 2
  have hNat := congrArg BitVec.toNat h
  rw [BitVec.toNat_setWidth, BitVec.toNat_setWidth] at hNat
  apply BitVec.eq_of_toNat_eq
  rw [hLow, hLow]
  omega

/-- The kernel, which compares the lower half only, never lets a thread sleep on a token that is done. -/
theorem setWidth_ne_of_onceDone {word : BitVec 64} (h : OnceDone word) :
    word.setWidth 32 ≠ (heldWord tid true).setWidth 32 := by
  intro hSame
  have hLow := low_of_setWidth hSame
  rw [heldWord_low] at hLow
  obtain h | h := onceDone_low h <;> rw [h] at hLow <;> exact absurd hLow (by decide)

end Bits

end OCNote.Dispatch
