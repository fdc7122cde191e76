import Mathlib.Data.List.Basic
import Mathlib.Tactic.Common

/-! # Open addressing along probe paths

A slot is empty or holds a key with its value. A key is looked for along its path of
slots; the search ends at the key, at the first empty slot or at the end of the path. In a placed
table every stored key is where the search for it ends, so that the table is a partial map. -/

namespace OCNote.Support
set_option autoImplicit false

universe u v

/-- The slots `lo + n - 1, …, lo`. -/
def downFrom (lo : Nat) : Nat → List Nat
  | 0 => []
  | n + 1 => (lo + n) :: downFrom lo n

theorem mem_downFrom {lo n i : Nat} : i ∈ downFrom lo n ↔ lo ≤ i ∧ i < lo + n := by
  induction n with
  | zero =>
    simp only [downFrom, List.not_mem_nil, false_iff]
    omega
  | succ n ih =>
    simp only [downFrom, List.mem_cons, ih]
    omega

abbrev Slots (κ : Type u) (υ : Type v) := List (Option (κ × υ))

inductive Probe (υ : Type v) where
  | holds (i : Nat) (value : υ)
  | vacant (i : Nat)
  | exhausted
  deriving DecidableEq, Repr

namespace Slots

variable {κ : Type u} {υ : Type v}

def entry (slots : Slots κ υ) (i : Nat) : Option (κ × υ) := slots[i]?.join

def taken (slots : Slots κ υ) : Nat := slots.countP Option.isSome

theorem entry_replicate (n i : Nat) : entry (List.replicate n none : Slots κ υ) i = none := by
  unfold entry
  rw [List.getElem?_replicate]
  split <;> rfl

theorem entry_set (slots : Slots κ υ) {i : Nat} (hi : i < slots.length) (e : Option (κ × υ)) (j : Nat) :
    entry (slots.set i e) j = if j = i then e else entry slots j := by
  unfold entry
  rw [List.getElem?_set]
  obtain rfl | hj := eq_or_ne j i
  · simp [hi]
  · simp [hj, hj.symm]

theorem taken_replicate (n : Nat) : taken (List.replicate n none : Slots κ υ) = 0 := by
  simp [taken, List.countP_replicate]

theorem taken_set {slots : Slots κ υ} {i : Nat} (hi : i < slots.length) (hEmpty : entry slots i = none)
    (e : κ × υ) : taken (slots.set i (some e)) = taken slots + 1 := by
  unfold taken
  have hNone : slots[i] = none := by simpa [entry, List.getElem?_eq_getElem hi] using hEmpty
  rw [List.countP_set hi, hNone]
  simp

theorem taken_of_full {slots : Slots κ υ} (h : ∀ i < slots.length, entry slots i ≠ none) :
    taken slots = slots.length := by
  refine List.countP_eq_length.mpr fun e he => ?_
  obtain ⟨i, hi, rfl⟩ := List.getElem_of_mem he
  have hTaken := h i hi
  rw [entry, List.getElem?_eq_getElem hi] at hTaken
  exact Option.isSome_iff_ne_none.mpr hTaken

theorem entry_of_taken {slots : Slots κ υ} (h : taken slots = 0) (i : Nat) : entry slots i = none := by
  unfold entry
  cases hi : slots[i]? with
  | none => rfl
  | some e => simpa using List.countP_eq_zero.mp h e (List.mem_of_getElem? hi)

variable [DecidableEq κ]

def probe (slots : Slots κ υ) (key : κ) : List Nat → Probe υ
  | [] => .exhausted
  | i :: path =>
    match entry slots i with
    | none => .vacant i
    | some (k, value) => if k = key then .holds i value else probe slots key path

theorem probe_append (slots : Slots κ υ) (key : κ) (path path' : List Nat) :
    probe slots key (path ++ path') =
      match probe slots key path with
      | .exhausted => probe slots key path'
      | found => found := by
  induction path with
  | nil => rfl
  | cons i path ih =>
    simp only [List.cons_append, probe]
    cases entry slots i with
    | none => rfl
    | some e =>
      by_cases hKey : e.1 = key
      · simp only [hKey, if_true]
      · simp only [hKey, if_false, ih]

theorem entry_of_holds {slots : Slots κ υ} {key : κ} {path : List Nat} {i : Nat} {value : υ}
    (h : probe slots key path = .holds i value) : entry slots i = some (key, value) := by
  induction path with
  | nil => cases h
  | cons j path ih =>
    rw [probe] at h
    split at h
    · cases h
    · rename_i k value' hEntry
      split at h
      · rename_i hKey
        cases h
        rw [hEntry, hKey]
      · exact ih h

theorem entry_of_vacant {slots : Slots κ υ} {key : κ} {path : List Nat} {i : Nat}
    (h : probe slots key path = .vacant i) : i ∈ path ∧ entry slots i = none := by
  induction path with
  | nil => cases h
  | cons j path ih =>
    rw [probe] at h
    split at h
    · rename_i hEntry
      cases h
      exact ⟨List.mem_cons_self, hEntry⟩
    · split at h
      · cases h
      · exact ⟨List.mem_cons_of_mem j (ih h).1, (ih h).2⟩

theorem entry_of_exhausted {slots : Slots κ υ} {key : κ} {path : List Nat}
    (h : probe slots key path = .exhausted) {i : Nat} (hi : i ∈ path) :
    ∃ k value, entry slots i = some (k, value) ∧ k ≠ key := by
  induction path with
  | nil => cases hi
  | cons j path ih =>
    rw [probe] at h
    split at h
    · cases h
    · rename_i k value hEntry
      split at h
      · cases h
      · rename_i hKey
        obtain rfl | hi := List.mem_cons.mp hi
        · exact ⟨k, value, hEntry, hKey⟩
        · exact ih h hi

/-- Filling an empty slot does not disturb a search that ended at its key. -/
theorem probe_set_of_holds {slots : Slots κ υ} {key : κ} {path : List Nat} {i j : Nat} {value : υ}
    (h : probe slots key path = .holds j value) (hEmpty : entry slots i = none) (hi : i < slots.length)
    (e : κ × υ) : probe (slots.set i (some e)) key path = .holds j value := by
  induction path with
  | nil => cases h
  | cons p path ih =>
    rw [probe] at h
    split at h
    · cases h
    · rename_i k value' hEntry
      have hNe : p ≠ i := by
        rintro rfl
        rw [hEmpty] at hEntry
        cases hEntry
      rw [probe, entry_set slots hi, if_neg hNe, hEntry]
      dsimp only
      split at h
      · rename_i hKey
        rw [if_pos hKey]
        exact h
      · rename_i hKey
        rw [if_neg hKey]
        exact ih h

theorem probe_set_of_vacant {slots : Slots κ υ} {key : κ} {path : List Nat} {i : Nat}
    (h : probe slots key path = .vacant i) (hi : i < slots.length) (value : υ) :
    probe (slots.set i (some (key, value))) key path = .holds i value := by
  induction path with
  | nil => cases h
  | cons p path ih =>
    rw [probe] at h
    split at h
    · cases h
      rw [probe, entry_set slots hi, if_pos rfl]
      simp
    · rename_i k value' hEntry
      split at h
      · cases h
      · rename_i hKey
        have hNe : p ≠ i := by
          rintro rfl
          rw [(entry_of_vacant h).2] at hEntry
          cases hEntry
        rw [probe, entry_set slots hi, if_neg hNe, hEntry]
        simp only [hKey, if_false]
        exact ih h

/-- Every stored key is where the search for it ends. -/
def Placed (path : κ → List Nat) (slots : Slots κ υ) : Prop :=
  ∀ i key value, entry slots i = some (key, value) → probe slots key (path key) = .holds i value

variable {path : κ → List Nat}

theorem Placed.replicate (n : Nat) : Placed path (List.replicate n none : Slots κ υ) := by
  intro i key value h
  rw [entry_replicate] at h
  cases h

theorem Placed.set {slots : Slots κ υ} (h : Placed path slots) {key : κ} {i : Nat}
    (hVacant : probe slots key (path key) = .vacant i) (hi : i < slots.length) (value : υ) :
    Placed path (slots.set i (some (key, value))) := by
  intro j k v hEntry
  rw [entry_set slots hi] at hEntry
  split at hEntry
  · rename_i hj
    cases hEntry
    rw [hj]
    exact probe_set_of_vacant hVacant hi value
  · exact probe_set_of_holds (h j k v hEntry) (entry_of_vacant hVacant).2 hi _

def find? (path : κ → List Nat) (slots : Slots κ υ) (key : κ) : Option υ :=
  match probe slots key (path key) with
  | .holds _ value => some value
  | _ => none

theorem find?_eq_some_of_holds {slots : Slots κ υ} {key : κ} {i : Nat} {value : υ}
    (h : probe slots key (path key) = .holds i value) : find? path slots key = some value := by
  rw [find?, h]

theorem exists_holds {slots : Slots κ υ} {key : κ} {value : υ} (h : find? path slots key = some value) :
    ∃ i, probe slots key (path key) = .holds i value := by
  unfold find? at h
  split at h
  · rename_i i v hProbe
    cases h
    exact ⟨i, hProbe⟩
  · cases h

/-- A placed table is the partial map that its entries are. -/
theorem Placed.find?_eq_some {slots : Slots κ υ} (h : Placed path slots) {key : κ} {value : υ} :
    find? path slots key = some value ↔ ∃ i, entry slots i = some (key, value) := by
  constructor
  · intro hFind
    obtain ⟨i, hi⟩ := exists_holds hFind
    exact ⟨i, entry_of_holds hi⟩
  · rintro ⟨i, hi⟩
    exact find?_eq_some_of_holds (h i key value hi)

/-- A path over all slots ends early unless the table is full. -/
theorem probe_ne_exhausted {slots : Slots κ υ} {key : κ} (hAll : ∀ i < slots.length, i ∈ path key)
    (hRoom : taken slots < slots.length) : probe slots key (path key) ≠ .exhausted := by
  intro h
  refine Nat.ne_of_lt hRoom (taken_of_full fun i hi => ?_)
  obtain ⟨k, value, hEntry, _⟩ := entry_of_exhausted h (hAll i hi)
  rw [hEntry]
  exact Option.some_ne_none _

end Slots

end OCNote.Support
