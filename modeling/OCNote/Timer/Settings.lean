import OCNote.Support.CInt
import OCNote.Timer.MBTimer

/-! # The settings that the guard of MBTimer admits

`start` and `interval` are seconds; the calls behind the guard turn them into nanoseconds,
an `int64_t` for the delay and a `uint64_t` for the interval. -/

namespace OCNote.Timer
open OCNote.Support
set_option autoImplicit false

universe u

variable {τ : Type u}

def NSEC_PER_SEC : Rat := 1000000000

/-- The second argument of `dispatch_time`. -/
def Request.delta (r : Request τ) : Int := truncate (r.start * NSEC_PER_SEC)

/-- The interval handed to `dispatch_source_set_timer`, for a timer that does not repeat too. -/
def Request.nanoseconds (r : Request τ) : Int := truncate (r.interval * NSEC_PER_SEC)

/-- Both conversions have a result, and a repeating timer gets an interval. -/
structure Request.Representable (r : Request τ) : Prop where
  delta_nonneg : 0 ≤ r.delta
  delta_lt : r.delta < 2 ^ 63
  nanoseconds_nonneg : 0 ≤ r.nanoseconds
  nanoseconds_lt : r.nanoseconds < 2 ^ 64
  repeats_pos : r.repeats = true → 1 ≤ r.nanoseconds

theorem Request.refused_eq_false_iff (r : Request τ) : r.refused = false ↔
    r.task.isSome = true ∧ 0 ≤ r.start ∧ (r.repeats = true → 0 < r.interval) := by
  cases hTask : r.task <;> cases hRepeats : r.repeats <;> simp [Request.refused, hTask, hRepeats]

theorem NSEC_PER_SEC_pos : 0 < NSEC_PER_SEC := by
  norm_num [NSEC_PER_SEC]

theorem truncate_nanoseconds_lt_iff {q : Rat} (width : Nat) :
    truncate (q * NSEC_PER_SEC) < 2 ^ width ↔ q < 2 ^ width / NSEC_PER_SEC := by
  rw [truncate_lt_iff (by positivity), lt_div_iff₀ NSEC_PER_SEC_pos, Int.cast_pow, Int.cast_ofNat]

theorem truncate_nanoseconds_nonneg_iff {q : Rat} :
    0 ≤ truncate (q * NSEC_PER_SEC) ↔ -1 / NSEC_PER_SEC < q := by
  rw [truncate_nonneg_iff, div_lt_iff₀ NSEC_PER_SEC_pos]

theorem one_le_truncate_nanoseconds_iff {q : Rat} :
    1 ≤ truncate (q * NSEC_PER_SEC) ↔ 1 / NSEC_PER_SEC ≤ q := by
  rw [one_le_truncate_iff, div_le_iff₀ NSEC_PER_SEC_pos]

/-- The guard bounds `start` from below and says nothing of the other limits but that the
interval of a repeating timer is above 0. -/
theorem accepted_representable_iff (r : Request τ) (hAccepted : r.refused = false) :
    r.Representable ↔ r.start < 2 ^ 63 / NSEC_PER_SEC ∧
      -1 / NSEC_PER_SEC < r.interval ∧ r.interval < 2 ^ 64 / NSEC_PER_SEC ∧
      (r.repeats = true → 1 / NSEC_PER_SEC ≤ r.interval) := by
  obtain ⟨-, hStart, -⟩ := r.refused_eq_false_iff.mp hAccepted
  have hDelta : r.delta < 2 ^ 63 ↔ r.start < 2 ^ 63 / NSEC_PER_SEC := truncate_nanoseconds_lt_iff 63
  have hInterval : r.nanoseconds < 2 ^ 64 ↔ r.interval < 2 ^ 64 / NSEC_PER_SEC :=
    truncate_nanoseconds_lt_iff 64
  constructor
  · rintro ⟨-, hDeltaLt, hNonneg, hLt, hPos⟩
    exact ⟨hDelta.mp hDeltaLt, truncate_nanoseconds_nonneg_iff.mp hNonneg, hInterval.mp hLt,
      fun hRepeats => one_le_truncate_nanoseconds_iff.mp (hPos hRepeats)⟩
  · rintro ⟨hDeltaLt, hNonneg, hLt, hPos⟩
    refine ⟨truncate_nanoseconds_nonneg_iff.mpr ?_, hDelta.mpr hDeltaLt,
      truncate_nanoseconds_nonneg_iff.mpr hNonneg, hInterval.mpr hLt,
      fun hRepeats => one_le_truncate_nanoseconds_iff.mpr (hPos hRepeats)⟩
    exact (div_neg_of_neg_of_pos (by norm_num) NSEC_PER_SEC_pos).trans_le hStart

theorem accepted_representable_iff_second :
    (⟨some (), 1 / 2, 1, true, false⟩ : Request Unit).Representable ↔
      (1 / 2 : Rat) < 2 ^ 63 / NSEC_PER_SEC ∧ -1 / NSEC_PER_SEC < 1 ∧ 1 < 2 ^ 64 / NSEC_PER_SEC ∧
      (true = true → 1 / NSEC_PER_SEC ≤ 1) :=
  accepted_representable_iff ⟨some (), 1 / 2, 1, true, false⟩ (by decide +kernel)

/-- A repeating timer of a tenth of a nanosecond, a one-shot timer with a negative interval,
an interval and a delay of a thousand years: the guard admits them all. -/
theorem accepted_not_representable :
    ((⟨some (), 0, 1 / 10 ^ 10, true, false⟩ : Request Unit).refused = false ∧
      ¬ (⟨some (), 0, 1 / 10 ^ 10, true, false⟩ : Request Unit).Representable) ∧
    ((⟨some (), 0, -1, false, false⟩ : Request Unit).refused = false ∧
      ¬ (⟨some (), 0, -1, false, false⟩ : Request Unit).Representable) ∧
    ((⟨some (), 0, 31557600000, true, false⟩ : Request Unit).refused = false ∧
      ¬ (⟨some (), 0, 31557600000, true, false⟩ : Request Unit).Representable) ∧
    ((⟨some (), 31557600000, 1, true, false⟩ : Request Unit).refused = false ∧
      ¬ (⟨some (), 31557600000, 1, true, false⟩ : Request Unit).Representable) := by
  refine ⟨⟨by decide +kernel, fun h => ?_⟩, ⟨by decide +kernel, fun h => ?_⟩,
    ⟨by decide +kernel, fun h => ?_⟩, ⟨by decide +kernel, fun h => ?_⟩⟩
  · exact absurd (h.repeats_pos rfl) (by decide +kernel)
  · exact absurd h.nanoseconds_nonneg (by decide +kernel)
  · exact absurd h.nanoseconds_lt (by decide +kernel)
  · exact absurd h.delta_lt (by decide +kernel)

end OCNote.Timer
