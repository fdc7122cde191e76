import Mathlib.Data.List.Nodup
import OCNote.Support.Forest

/-! # Children of a forest in preorder

The nodes that are present form a forest of their own when parents of present nodes are
present. Each of them lists its present children; the preorder below a node, cut off under the
nodes that are not entered, meets every present node below it once. -/

namespace OCNote.Support
set_option autoImplicit false

universe u

variable {ν : Type u}

/-- `l` is what is met from `first` along the links. -/
def Linked (next : ν → Option ν) : Option ν → List ν → Prop
  | first, [] => first = none
  | first, c :: l => first = some c ∧ Linked next (next c) l

theorem Linked.congr {next next' : ν → Option ν} {first : Option ν} {l : List ν} (h : Linked next first l)
    (hSame : ∀ c ∈ l, next' c = next c) : Linked next' first l := by
  induction l generalizing first with
  | nil => exact h
  | cons c l ih =>
    refine ⟨h.1, ?_⟩
    rw [hSame c List.mem_cons_self]
    exact ih h.2 fun d hd => hSame d (List.mem_cons_of_mem c hd)

structure Branches (F : Forest ν) (present : ν → Prop) (kids : ν → List ν) : Prop where
  mem_kids : ∀ {c d}, d ∈ kids c ↔ F.parent d = some c ∧ present d
  nodup_kids : ∀ c, (kids c).Nodup
  present_parent : ∀ {d c}, present d → F.parent d = some c → present c

def preorder (kids : ν → List ν) (enter : ν → Bool) : Nat → ν → List ν
  | 0, c => [c]
  | h + 1, c => c :: if enter c then (kids c).flatMap (preorder kids enter h) else []

/-- No present node lies more than `h` below `c`. -/
def Height (F : Forest ν) (present : ν → Prop) (h : Nat) (c : ν) : Prop :=
  ∀ d, present d → c ∈ F.chain d → F.depth d ≤ F.depth c + h

/-- All nodes from `c` down to above `d` are entered. -/
def Entered (F : Forest ν) (enter : ν → Bool) (c d : ν) : Prop :=
  ∀ e ∈ F.chain d, c ∈ F.chain e → e ≠ d → enter e = true

section Branches

variable {F : Forest ν} {present : ν → Prop} {kids : ν → List ν} {enter : ν → Bool}

theorem depth_lt_of_below {c d k : ν} (hk : F.parent k = some c) (hd : k ∈ F.chain d) :
    F.depth c < F.depth d := Nat.lt_of_lt_of_le (F.depth_lt hk) (F.depth_le_of_mem_chain hd)

theorem Branches.present_of_mem_chain (hB : Branches F present kids) {c d : ν} (hd : present d)
    (hMem : c ∈ F.chain d) : present c := by
  induction d using F.induction with
  | hRoot d hp =>
    rw [F.chain_of_root hp, List.mem_singleton] at hMem
    rwa [hMem]
  | hChild d p hp ih =>
    obtain rfl | ⟨q, hq, hMem⟩ := F.mem_chain_cases hMem
    · exact hd
    · cases hp.symm.trans hq
      exact ih (hB.present_parent hd hp) hMem

theorem Height.of_kid {h : Nat} {c k : ν} (hHeight : Height F present (h + 1) c)
    (hk : F.parent k = some c) : Height F present h k := by
  intro d hd hMem
  have hBound := hHeight d hd (F.mem_chain_trans hMem (F.mem_chain_of_parent hk (F.mem_chain_self c)))
  have hLess := F.depth_lt hk
  omega

theorem Branches.kids_of_height_zero (hB : Branches F present kids) {c : ν}
    (hHeight : Height F present 0 c) : kids c = [] := by
  refine List.eq_nil_iff_forall_not_mem.mpr fun k hk => ?_
  obtain ⟨hParent, hPresent⟩ := hB.mem_kids.mp hk
  have hBound := hHeight k hPresent (F.mem_chain_of_parent hParent (F.mem_chain_self c))
  have hLess := F.depth_lt hParent
  omega

theorem entered_self (c : ν) : Entered F enter c c :=
  fun _ he hMem hNe => absurd (F.mem_chain_antisymm hMem he) hNe

theorem entered_iff_of_kid {c d k : ν} (hk : F.parent k = some c) (hMem : k ∈ F.chain d) :
    Entered F enter c d ↔ enter c = true ∧ Entered F enter k d := by
  have hUp : c ∈ F.chain k := F.mem_chain_of_parent hk (F.mem_chain_self c)
  have hLess := depth_lt_of_below hk hMem
  constructor
  · intro h
    refine ⟨h c (F.mem_chain_trans hMem hUp) (F.mem_chain_self c) (by rintro rfl; omega), ?_⟩
    intro e he hke
    exact h e he (F.mem_chain_trans hke hUp)
  · rintro ⟨hEnter, h⟩ e he hce hNe
    -- an entered node on the way down is `c` itself or below the child
    obtain hke | hek := F.mem_chain_total hMem he
    · exact h e he hke hNe
    · obtain rfl | ⟨p, hp, hMem'⟩ := F.mem_chain_cases hek
      · exact h e he (F.mem_chain_self e) hNe
      · cases hk.symm.trans hp
        rwa [F.mem_chain_antisymm hce hMem']

variable (enter) in
theorem Branches.mem_preorder (hB : Branches F present kids) {h : Nat} {c d : ν}
    (hHeight : Height F present h c) (hc : present c) :
    d ∈ preorder kids enter h c ↔ present d ∧ c ∈ F.chain d ∧ Entered F enter c d := by
  induction h generalizing c with
  | zero =>
    rw [preorder, List.mem_singleton]
    constructor
    · rintro rfl
      exact ⟨hc, F.mem_chain_self d, entered_self d⟩
    · rintro ⟨hd, hMem, _⟩
      obtain rfl | ⟨k, hk, hMem'⟩ := F.exists_child_of_mem_chain hMem
      · rfl
      · have hBound := hHeight d hd hMem
        have hLess := depth_lt_of_below hk hMem'
        omega
  | succ h ih =>
    rw [preorder, List.mem_cons]
    constructor
    · rintro (rfl | hd)
      · exact ⟨hc, F.mem_chain_self d, entered_self d⟩
      · split at hd
        · rename_i hEnter
          obtain ⟨k, hk, hd⟩ := List.mem_flatMap.mp hd
          obtain ⟨hParent, hPresent⟩ := hB.mem_kids.mp hk
          obtain ⟨hd, hMem, hEntered⟩ := (ih (hHeight.of_kid hParent) hPresent).mp hd
          refine ⟨hd, F.mem_chain_trans hMem (F.mem_chain_of_parent hParent (F.mem_chain_self c)), ?_⟩
          exact (entered_iff_of_kid hParent hMem).mpr ⟨hEnter, hEntered⟩
        · cases hd
    · rintro ⟨hd, hMem, hEntered⟩
      obtain rfl | ⟨k, hk, hMem'⟩ := F.exists_child_of_mem_chain hMem
      · exact .inl rfl
      · right
        obtain ⟨hEnter, hBelow⟩ := (entered_iff_of_kid hk hMem').mp hEntered
        have hPresent := hB.present_of_mem_chain hd hMem'
        rw [if_pos hEnter]
        refine List.mem_flatMap.mpr ⟨k, hB.mem_kids.mpr ⟨hk, hPresent⟩, ?_⟩
        exact (ih (hHeight.of_kid hk) hPresent).mpr ⟨hd, hMem', hBelow⟩

variable (enter) in
theorem Branches.nodup_preorder (hB : Branches F present kids) {h : Nat} {c : ν}
    (hHeight : Height F present h c) (hc : present c) : (preorder kids enter h c).Nodup := by
  induction h generalizing c with
  | zero => exact List.nodup_singleton c
  | succ h ih =>
    rw [preorder]
    split
    · have hBelow : ∀ {k d : ν}, k ∈ kids c → d ∈ preorder kids enter h k →
          F.parent k = some c ∧ k ∈ F.chain d := by
        intro k d hk hd
        obtain ⟨hParent, hPresent⟩ := hB.mem_kids.mp hk
        exact ⟨hParent, ((hB.mem_preorder enter (hHeight.of_kid hParent) hPresent).mp hd).2.1⟩
      refine List.nodup_cons.mpr ⟨fun hMem => ?_, List.nodup_flatMap.mpr ⟨fun k hk => ?_, ?_⟩⟩
      · obtain ⟨k, hk, hd⟩ := List.mem_flatMap.mp hMem
        obtain ⟨hParent, hChain⟩ := hBelow hk hd
        exact Nat.lt_irrefl _ (depth_lt_of_below hParent hChain)
      · obtain ⟨hParent, hPresent⟩ := hB.mem_kids.mp hk
        exact ih (hHeight.of_kid hParent) hPresent
      · refine (hB.nodup_kids c).imp_of_mem fun hk hk' hNe d hd hd' => hNe ?_
        obtain ⟨hParent, hChain⟩ := hBelow hk hd
        obtain ⟨hParent', hChain'⟩ := hBelow hk' hd'
        exact F.child_unique hParent hParent' hChain hChain'
    · exact List.nodup_singleton c

end Branches

end OCNote.Support
