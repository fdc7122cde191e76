import Mathlib.Tactic.Common
import Mathlib.Algebra.Group.Nat.Defs

/-! # The state word of a dispatch group

The upper half is a generation. The lower half holds how often the group was entered, counted
downwards, above one bit that says that there are notifications and one that says that there are
waiters. Entering subtracts from the lower half only; leaving adds to the whole word, and the
carry out of the last entry is the next generation. -/

namespace OCNote.Dispatch.Group
set_option autoImplicit false

def DISPATCH_GROUP_GEN_MASK : BitVec 64 := 0xffffffff00000000#64

def DISPATCH_GROUP_VALUE_MASK : BitVec 64 := 0x00000000fffffffc#64

def DISPATCH_GROUP_VALUE_INTERVAL : BitVec 64 := 4#64

def DISPATCH_GROUP_VALUE_1 : BitVec 64 := DISPATCH_GROUP_VALUE_MASK

def DISPATCH_GROUP_VALUE_MAX : BitVec 64 := DISPATCH_GROUP_VALUE_INTERVAL

def DISPATCH_GROUP_HAS_NOTIFS : BitVec 64 := 2#64

def DISPATCH_GROUP_HAS_WAITERS : BitVec 64 := 1#64

def dg_state_gen (dg_state : BitVec 64) : BitVec 32 := (dg_state >>> 32).setWidth 32

def dg_state_value (dg_state : BitVec 64) : BitVec 32 :=
  (-(dg_state.setWidth 32 &&& DISPATCH_GROUP_VALUE_MASK.setWidth 32)) >>> 2

/-- `dg_bits` and `dg_gen` are the halves of `dg_state`. -/
def dg_bits (dg_state : BitVec 64) : BitVec 32 := dg_state.setWidth 32

/-- A new lower half under the old upper half. -/
def with_bits (dg_state : BitVec 64) (bits : BitVec 32) : BitVec 64 :=
  dg_state &&& DISPATCH_GROUP_GEN_MASK ||| bits.setWidth 64

/-- The word in parts. The value is the count of entries, negated. -/
structure Fields where
  gen : BitVec 32
  value : BitVec 30
  notifs : Bool
  waiters : Bool
  deriving DecidableEq, Repr

namespace Fields

def word (f : Fields) : BitVec 64 := f.gen ++ f.value ++ BitVec.ofBool f.notifs ++ BitVec.ofBool f.waiters

def count (f : Fields) : Nat := (-f.value).toNat

end Fields

def fields (w : BitVec 64) : Fields where
  gen := w.extractLsb' 32 32
  value := w.extractLsb' 2 30
  notifs := w.getLsbD 1
  waiters := w.getLsbD 0

section Parts

variable (f : Fields)

theorem toNat_word : f.word.toNat = f.gen.toNat * 2 ^ 32 + f.value.toNat * 4 + f.notifs.toNat * 2 + f.waiters.toNat := by
  have hValue := f.value.isLt
  have hNotifs : f.notifs.toNat < 2 ^ 1 := f.notifs.toNat_lt
  have hWaiters : f.waiters.toNat < 2 ^ 1 := f.waiters.toNat_lt
  simp only [Fields.word, BitVec.toNat_append, BitVec.toNat_ofBool]
  rw [← Nat.shiftLeft_add_eq_or_of_lt hValue, ← Nat.shiftLeft_add_eq_or_of_lt hNotifs,
    ← Nat.shiftLeft_add_eq_or_of_lt hWaiters]
  simp only [Nat.shiftLeft_eq]
  omega

theorem fields_word : fields f.word = f := by
  have hValue := f.value.isLt
  have hGen := f.gen.isLt
  have hNotifs := f.notifs.toNat_lt
  have hWaiters := f.waiters.toNat_lt
  have hWord := toNat_word f
  unfold fields
  obtain ⟨gen, value, notifs, waiters⟩ := f
  dsimp only at *
  congr 1
  · apply BitVec.eq_of_toNat_eq
    rw [BitVec.extractLsb'_toNat, Nat.shiftRight_eq_div_pow, hWord]
    omega
  · apply BitVec.eq_of_toNat_eq
    rw [BitVec.extractLsb'_toNat, Nat.shiftRight_eq_div_pow, hWord]
    omega
  · rw [Fields.word]
    simp only [BitVec.getLsbD_append, BitVec.getLsbD_ofBool]
    rfl
  · rw [Fields.word]
    simp only [BitVec.getLsbD_append, BitVec.getLsbD_ofBool]
    rfl

theorem word_fields (w : BitVec 64) : (fields w).word = w := by
  ext i hi
  simp only [Fields.word, fields, ← BitVec.getLsbD_eq_getElem, BitVec.getLsbD_append, BitVec.getLsbD_extractLsb',
    BitVec.getLsbD_ofBool]
  by_cases hZero : i = 0
  · simp [hZero]
  · by_cases hOne : i = 1
    · simp [hOne]
    · by_cases hLow : i < 32
      · have hNot : ¬ i < 1 := by omega
        have hNot' : ¬ i - 1 < 1 := by omega
        have hIn : i - 1 - 1 < 30 := by omega
        rw [if_neg hNot, if_neg hNot', if_pos hIn, show 2 + (i - 1 - 1) = i by omega]
        simp [hIn]
      · have hNot : ¬ i < 1 := by omega
        have hNot' : ¬ i - 1 < 1 := by omega
        have hOut : ¬ i - 1 - 1 < 30 := by omega
        rw [if_neg hNot, if_neg hNot', if_neg hOut, show 32 + (i - 1 - 1 - 30) = i by omega]
        simp
        omega

theorem word_inj {f f' : Fields} (h : f.word = f'.word) : f = f' := by
  rw [← fields_word f, h, fields_word]

theorem word_or (g : Fields) : f.word ||| g.word =
    (⟨f.gen ||| g.gen, f.value ||| g.value, f.notifs || g.notifs, f.waiters || g.waiters⟩ : Fields).word := by
  have hParts : (f.gen ++ f.value ++ BitVec.ofBool f.notifs ++ BitVec.ofBool f.waiters) |||
      (g.gen ++ g.value ++ BitVec.ofBool g.notifs ++ BitVec.ofBool g.waiters) =
      (f.gen ||| g.gen) ++ (f.value ||| g.value) ++ BitVec.ofBool (f.notifs || g.notifs) ++
        BitVec.ofBool (f.waiters || g.waiters) := by
    rw [BitVec.or_append, BitVec.or_append, BitVec.or_append, BitVec.ofBool_or_ofBool, BitVec.ofBool_or_ofBool]
  exact hParts

theorem word_and (g : Fields) : f.word &&& g.word =
    (⟨f.gen &&& g.gen, f.value &&& g.value, f.notifs && g.notifs, f.waiters && g.waiters⟩ : Fields).word := by
  have hParts : (f.gen ++ f.value ++ BitVec.ofBool f.notifs ++ BitVec.ofBool f.waiters) &&&
      (g.gen ++ g.value ++ BitVec.ofBool g.notifs ++ BitVec.ofBool g.waiters) =
      (f.gen &&& g.gen) ++ (f.value &&& g.value) ++ BitVec.ofBool (f.notifs && g.notifs) ++
        BitVec.ofBool (f.waiters && g.waiters) := by
    rw [BitVec.and_append, BitVec.and_append, BitVec.and_append, BitVec.ofBool_and_ofBool, BitVec.ofBool_and_ofBool]
  exact hParts

theorem word_or_waiters : f.word ||| DISPATCH_GROUP_HAS_WAITERS = { f with waiters := true }.word := by
  have hBit : DISPATCH_GROUP_HAS_WAITERS = (⟨0, 0, false, true⟩ : Fields).word := by decide
  rw [hBit, word_or]
  simp

theorem word_or_notifs : f.word ||| DISPATCH_GROUP_HAS_NOTIFS = { f with notifs := true }.word := by
  have hBit : DISPATCH_GROUP_HAS_NOTIFS = (⟨0, 0, true, false⟩ : Fields).word := by decide
  rw [hBit, word_or]
  simp

theorem word_clear_waiters : f.word &&& ~~~DISPATCH_GROUP_HAS_WAITERS = { f with waiters := false }.word := by
  have hBit : ~~~DISPATCH_GROUP_HAS_WAITERS = (⟨BitVec.allOnes 32, BitVec.allOnes 30, true, false⟩ : Fields).word := by decide
  rw [hBit, word_and]
  simp only [BitVec.and_allOnes, Bool.and_true, Bool.and_false]

theorem word_clear_notifs : f.word &&& ~~~DISPATCH_GROUP_HAS_NOTIFS = { f with notifs := false }.word := by
  have hBit : ~~~DISPATCH_GROUP_HAS_NOTIFS = (⟨BitVec.allOnes 32, BitVec.allOnes 30, false, true⟩ : Fields).word := by decide
  rw [hBit, word_and]
  simp only [BitVec.and_allOnes, Bool.and_true, Bool.and_false]

theorem word_and_waiters_iff : f.word &&& DISPATCH_GROUP_HAS_WAITERS ≠ 0#64 ↔ f.waiters = true := by
  have hBit : DISPATCH_GROUP_HAS_WAITERS = (⟨0, 0, false, true⟩ : Fields).word := by decide
  have hZero : 0#64 = (⟨0, 0, false, false⟩ : Fields).word := by decide
  rw [hBit, hZero, word_and]
  cases hWaiters : f.waiters with
  | true =>
    refine iff_of_true (fun hSame => ?_) rfl
    have hField := congrArg Fields.waiters (word_inj hSame)
    cases hField
  | false => simp

theorem word_and_notifs_iff : f.word &&& DISPATCH_GROUP_HAS_NOTIFS ≠ 0#64 ↔ f.notifs = true := by
  have hBit : DISPATCH_GROUP_HAS_NOTIFS = (⟨0, 0, true, false⟩ : Fields).word := by decide
  have hZero : 0#64 = (⟨0, 0, false, false⟩ : Fields).word := by decide
  rw [hBit, hZero, word_and]
  cases hNotifs : f.notifs with
  | true =>
    refine iff_of_true (fun hSame => ?_) rfl
    have hField := congrArg Fields.notifs (word_inj hSame)
    cases hField
  | false => simp

theorem word_and_value_eq_iff (value : BitVec 30) :
    f.word &&& DISPATCH_GROUP_VALUE_MASK = (⟨0, value, false, false⟩ : Fields).word ↔ f.value = value := by
  have hBit : DISPATCH_GROUP_VALUE_MASK = (⟨0, BitVec.allOnes 30, false, false⟩ : Fields).word := by decide
  rw [hBit, word_and]
  simp only [BitVec.and_allOnes, Bool.and_false]
  constructor
  · exact fun hSame => congrArg Fields.value (word_inj hSame)
  · rintro rfl
    simp

theorem gen_word : dg_state_gen f.word = f.gen := by
  apply BitVec.eq_of_toNat_eq
  have hValue := f.value.isLt
  have hGen := f.gen.isLt
  have hNotifs := f.notifs.toNat_lt
  have hWaiters := f.waiters.toNat_lt
  rw [dg_state_gen, BitVec.toNat_setWidth, BitVec.toNat_ushiftRight, Nat.shiftRight_eq_div_pow, toNat_word]
  omega

theorem bits_word_eq_zero_iff : dg_bits f.word = 0#32 ↔ f.value = 0#30 ∧ f.notifs = false ∧ f.waiters = false := by
  have hValue := f.value.isLt
  have hNotifs := f.notifs.toNat_lt
  have hWaiters := f.waiters.toNat_lt
  have hZero : f.value = 0#30 ↔ f.value.toNat = 0 := BitVec.toNat_inj.symm
  rw [← BitVec.toNat_inj, dg_bits, BitVec.toNat_setWidth, toNat_word, hZero, ← Bool.toNat_eq_zero, ← Bool.toNat_eq_zero]
  simp only [BitVec.toNat_ofNat]
  omega

/-- Leaving. The carry out of the last entry goes into the generation. -/
theorem word_add_interval : f.word + DISPATCH_GROUP_VALUE_INTERVAL =
    (if f.value = BitVec.allOnes 30 then { f with gen := f.gen + 1#32, value := 0#30 } else { f with value := f.value + 1#30 } : Fields).word := by
  apply BitVec.eq_of_toNat_eq
  have hValue := f.value.isLt
  have hGen := f.gen.isLt
  have hNotifs := f.notifs.toNat_lt
  have hWaiters := f.waiters.toNat_lt
  have hLast : f.value = BitVec.allOnes 30 ↔ f.value.toNat = 2 ^ 30 - 1 := by
    rw [← BitVec.toNat_inj, BitVec.toNat_allOnes]
  rw [BitVec.toNat_add, toNat_word, DISPATCH_GROUP_VALUE_INTERVAL]
  split
  · have hToNat := hLast.mp ‹_›
    rw [toNat_word]
    simp only [BitVec.toNat_ofNat, BitVec.toNat_add]
    omega
  · have hNot := mt hLast.mpr ‹_›
    rw [toNat_word]
    simp only [BitVec.toNat_ofNat, BitVec.toNat_add]
    omega

/-- Entering, which stays within the lower half. -/
theorem word_enter : with_bits f.word (dg_bits f.word - DISPATCH_GROUP_VALUE_INTERVAL.setWidth 32) =
    ({ f with value := f.value - 1#30 } : Fields).word := by
  have hMask : DISPATCH_GROUP_GEN_MASK = (⟨BitVec.allOnes 32, 0, false, false⟩ : Fields).word := by decide
  have hBits : (dg_bits f.word - DISPATCH_GROUP_VALUE_INTERVAL.setWidth 32).setWidth 64 =
      (⟨0#32, f.value - 1#30, f.notifs, f.waiters⟩ : Fields).word := by
    apply BitVec.eq_of_toNat_eq
    have hValue := f.value.isLt
    have hNotifs := f.notifs.toNat_lt
    have hWaiters := f.waiters.toNat_lt
    have hFour : (DISPATCH_GROUP_VALUE_INTERVAL.setWidth 32).toNat = 4 := by decide
    rw [toNat_word, BitVec.toNat_setWidth, BitVec.toNat_sub, hFour, dg_bits, BitVec.toNat_setWidth, toNat_word]
    simp only [BitVec.toNat_ofNat, BitVec.toNat_sub]
    omega
  rw [with_bits, hMask, hBits, word_and, word_or]
  simp only [BitVec.and_allOnes, Bool.and_false, BitVec.or_zero, Bool.false_or]
  rw [show (0 : BitVec 30) = 0#30 from rfl, BitVec.and_zero, BitVec.zero_or]

end Parts

namespace Fields

def enter (f : Fields) : Fields := { f with value := f.value - 1#30 }

def leave (f : Fields) : Fields :=
  if f.value = BitVec.allOnes 30 then { f with gen := f.gen + 1#32, value := 0#30 } else { f with value := f.value + 1#30 }

section Count

variable {f : Fields}

theorem count_eq (f : Fields) : f.count = (2 ^ 30 - f.value.toNat) % 2 ^ 30 := BitVec.toNat_neg f.value

theorem count_eq_zero_iff : f.count = 0 ↔ f.value = 0#30 := by
  have hValue := f.value.isLt
  have hZero : f.value = 0#30 ↔ f.value.toNat = 0 := BitVec.toNat_inj.symm
  rw [hZero, count_eq]
  omega

theorem count_eq_one_iff : f.count = 1 ↔ f.value = BitVec.allOnes 30 := by
  have hValue := f.value.isLt
  rw [← BitVec.toNat_inj, BitVec.toNat_allOnes, count_eq]
  omega

theorem count_eq_max_iff : f.count = 2 ^ 30 - 1 ↔ f.value = 1#30 := by
  have hValue := f.value.isLt
  have hOne : f.value = 1#30 ↔ f.value.toNat = 1 := BitVec.toNat_inj.symm
  rw [hOne, count_eq]
  omega

theorem count_enter (h : f.count ≠ 2 ^ 30 - 1) : f.enter.count = f.count + 1 := by
  have hValue := f.value.isLt
  rw [count_eq] at h
  rw [count_eq, count_eq, enter, BitVec.toNat_sub]
  simp only [BitVec.toNat_ofNat]
  omega

theorem count_leave (h : f.count ≠ 0) : f.leave.count = f.count - 1 := by
  have hValue := f.value.isLt
  unfold leave
  split
  · rename_i hLast
    rw [← count_eq_one_iff] at hLast
    rw [hLast]
    exact (by decide : (-0#30 : BitVec 30).toNat = 0)
  · rename_i hMore
    rw [← count_eq_one_iff] at hMore
    rw [count_eq] at h hMore
    rw [count_eq, count_eq, BitVec.toNat_add]
    simp only [BitVec.toNat_ofNat]
    omega

theorem leave_of_count_one (h : f.count = 1) : f.leave = { f with gen := f.gen + 1#32, value := 0#30 } :=
  if_pos (count_eq_one_iff.mp h)

theorem leave_of_count_ne_one (h : f.count ≠ 1) : f.leave = { f with value := f.value + 1#30 } :=
  if_neg (mt count_eq_one_iff.mpr h)

end Count

end Fields

section Words

variable (w : BitVec 64)

theorem toNat_masked : (w &&& DISPATCH_GROUP_VALUE_MASK).toNat = (fields w).value.toNat * 4 := by
  have hMask : DISPATCH_GROUP_VALUE_MASK = (⟨0, BitVec.allOnes 30, false, false⟩ : Fields).word := by decide
  conv_lhs => rw [← word_fields w]
  rw [hMask, word_and, toNat_word]
  simp only [BitVec.and_allOnes, Bool.and_false, Bool.toNat_false]
  rw [show (0 : BitVec 32) = 0#32 from rfl, BitVec.and_zero, BitVec.toNat_ofNat]
  omega

theorem setWidth_masked : ((w &&& DISPATCH_GROUP_VALUE_MASK).setWidth 32).setWidth 64 = w &&& DISPATCH_GROUP_VALUE_MASK := by
  have hValue := (fields w).value.isLt
  apply BitVec.eq_of_toNat_eq
  rw [BitVec.toNat_setWidth, BitVec.toNat_setWidth, toNat_masked]
  omega

theorem masked_bits : (dg_bits w &&& DISPATCH_GROUP_VALUE_MASK.setWidth 32).setWidth 64 = w &&& DISPATCH_GROUP_VALUE_MASK := by
  rw [dg_bits, ← BitVec.setWidth_and]
  exact setWidth_masked w

theorem toNat_dg_state_value : (dg_state_value w).toNat = (fields w).count := by
  have hValue := (fields w).value.isLt
  have hMasked : (w.setWidth 32 &&& DISPATCH_GROUP_VALUE_MASK.setWidth 32).toNat = (fields w).value.toNat * 4 := by
    rw [← BitVec.setWidth_and, BitVec.toNat_setWidth, toNat_masked]
    omega
  rw [dg_state_value, BitVec.toNat_ushiftRight, BitVec.toNat_neg, hMasked, Fields.count_eq, Nat.shiftRight_eq_div_pow]
  omega

theorem fields_or_waiters : fields (w ||| DISPATCH_GROUP_HAS_WAITERS) = { fields w with waiters := true } := by
  conv_lhs => rw [← word_fields w]
  rw [word_or_waiters, fields_word]

theorem fields_or_notifs : fields (w ||| DISPATCH_GROUP_HAS_NOTIFS) = { fields w with notifs := true } := by
  conv_lhs => rw [← word_fields w]
  rw [word_or_notifs, fields_word]

theorem count_or_waiters : (fields (w ||| DISPATCH_GROUP_HAS_WAITERS)).count = (fields w).count := by
  rw [fields_or_waiters]
  rfl

theorem count_or_notifs : (fields (w ||| DISPATCH_GROUP_HAS_NOTIFS)).count = (fields w).count := by
  rw [fields_or_notifs]
  rfl

theorem fields_clear_waiters : fields (w &&& ~~~DISPATCH_GROUP_HAS_WAITERS) = { fields w with waiters := false } := by
  conv_lhs => rw [← word_fields w]
  rw [word_clear_waiters, fields_word]

theorem fields_clear_notifs : fields (w &&& ~~~DISPATCH_GROUP_HAS_NOTIFS) = { fields w with notifs := false } := by
  conv_lhs => rw [← word_fields w]
  rw [word_clear_notifs, fields_word]

theorem fields_leave : fields (w + DISPATCH_GROUP_VALUE_INTERVAL) = (fields w).leave := by
  conv_lhs => rw [← word_fields w]
  rw [word_add_interval, fields_word]
  rfl

theorem fields_enter : fields (with_bits w (dg_bits w - DISPATCH_GROUP_VALUE_INTERVAL.setWidth 32)) = (fields w).enter := by
  conv_lhs => rw [← word_fields w]
  rw [word_enter, fields_word]
  rfl

theorem has_waiters_iff : w &&& DISPATCH_GROUP_HAS_WAITERS ≠ 0#64 ↔ (fields w).waiters = true := by
  conv_lhs => rw [← word_fields w]
  exact word_and_waiters_iff (fields w)

theorem has_notifs_iff : w &&& DISPATCH_GROUP_HAS_NOTIFS ≠ 0#64 ↔ (fields w).notifs = true := by
  conv_lhs => rw [← word_fields w]
  exact word_and_notifs_iff (fields w)

theorem gen_eq : dg_state_gen w = (fields w).gen := by
  conv_lhs => rw [← word_fields w]
  exact gen_word (fields w)

theorem empty_iff : w &&& DISPATCH_GROUP_VALUE_MASK = 0#64 ↔ (fields w).count = 0 := by
  have hZero : 0#64 = (⟨0, 0, false, false⟩ : Fields).word := by decide
  conv_lhs => rw [← word_fields w]
  rw [hZero, word_and_value_eq_iff, Fields.count_eq_zero_iff]
  rfl

theorem last_iff : w &&& DISPATCH_GROUP_VALUE_MASK = DISPATCH_GROUP_VALUE_1 ↔ (fields w).count = 1 := by
  have hLast : DISPATCH_GROUP_VALUE_1 = (⟨0, BitVec.allOnes 30, false, false⟩ : Fields).word := by decide
  conv_lhs => rw [← word_fields w]
  rw [hLast, word_and_value_eq_iff, Fields.count_eq_one_iff]

theorem full_iff : w &&& DISPATCH_GROUP_VALUE_MASK = DISPATCH_GROUP_VALUE_MAX ↔ (fields w).count = 2 ^ 30 - 1 := by
  have hFull : DISPATCH_GROUP_VALUE_MAX = (⟨0, 1#30, false, false⟩ : Fields).word := by decide
  conv_lhs => rw [← word_fields w]
  rw [hFull, word_and_value_eq_iff, Fields.count_eq_max_iff]

theorem idle_iff : dg_bits w = 0#32 ↔ (fields w).count = 0 ∧ (fields w).notifs = false ∧ (fields w).waiters = false := by
  conv_lhs => rw [← word_fields w]
  rw [bits_word_eq_zero_iff, Fields.count_eq_zero_iff]

end Words

end OCNote.Dispatch.Group
