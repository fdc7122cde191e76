import Mathlib.Tactic.Common

/-! # Forests and nearest-ancestor lookup

Every node has at most one parent and a depth that falls along the parent, so a chain
of ancestors is finite and can be listed. `nearest f c` is the value of `f` at the
nearest node of the chain of `c` that has one. -/

namespace OCNote.Support
set_option autoImplicit false

universe u v w

structure Forest (ν : Type u) where
  parent : ν → Option ν
  depth : ν → Nat
  depth_lt : ∀ {c p}, parent c = some p → depth p < depth c

namespace Forest

variable {ν : Type u} (F : Forest ν)

def climb : Nat → ν → List ν
  | 0, c => [c]
  | fuel + 1, c => c ::
    match F.parent c with
    | none => []
    | some p => climb fuel p

/-- The node itself and all of its ancestors, nearest first. -/
def chain (c : ν) : List ν := F.climb (F.depth c) c

theorem climb_eq {c : ν} {n m : Nat} (hn : F.depth c ≤ n) (hm : F.depth c ≤ m) :
    F.climb n c = F.climb m c := by
  induction n generalizing c m with
  | zero =>
    have hRoot : F.parent c = none := by
      cases hp : F.parent c with
      | none => rfl
      | some p =>
        have hLess := F.depth_lt hp
        omega
    cases m with
    | zero => rfl
    | succ m => simp only [climb, hRoot]
  | succ n ih =>
    cases hp : F.parent c with
    | none => cases m <;> simp only [climb, hp]
    | some p =>
      have hLess := F.depth_lt hp
      cases m with
      | zero => omega
      | succ m => simp only [climb, hp, ih (c := p) (m := m) (by omega) (by omega)]

theorem chain_of_root {c : ν} (h : F.parent c = none) : F.chain c = [c] := by
  unfold chain
  cases F.depth c <;> simp only [climb, h]

theorem chain_of_parent {c p : ν} (h : F.parent c = some p) : F.chain c = c :: F.chain p := by
  have hLess := F.depth_lt h
  unfold chain
  cases hc : F.depth c with
  | zero => omega
  | succ n => simp only [climb, h, F.climb_eq (c := p) (n := n) (by omega) (Nat.le_refl _)]

theorem mem_chain_self (c : ν) : c ∈ F.chain c := by
  cases h : F.parent c with
  | none => simp [F.chain_of_root h]
  | some p => simp [F.chain_of_parent h]

theorem induction {P : ν → Prop} (hRoot : ∀ c, F.parent c = none → P c)
    (hChild : ∀ c p, F.parent c = some p → P p → P c) (c : ν) : P c := by
  induction h : F.depth c using Nat.strongRecOn generalizing c with
  | ind n ih =>
    cases hp : F.parent c with
    | none => exact hRoot c hp
    | some p => exact hChild c p hp (ih (F.depth p) (h ▸ F.depth_lt hp) p rfl)

theorem depth_le_of_mem_chain {c d : ν} (h : d ∈ F.chain c) : F.depth d ≤ F.depth c := by
  induction c using F.induction with
  | hRoot c hp =>
    rw [F.chain_of_root hp, List.mem_singleton] at h
    exact Nat.le_of_eq (congrArg F.depth h)
  | hChild c p hp ih =>
    rw [F.chain_of_parent hp] at h
    obtain rfl | h := List.mem_cons.mp h
    · exact Nat.le_refl _
    · exact Nat.le_trans (ih h) (Nat.le_of_lt (F.depth_lt hp))

theorem mem_chain_antisymm {c d : ν} (h : d ∈ F.chain c) (h' : c ∈ F.chain d) : c = d := by
  cases hp : F.parent c with
  | none =>
    rw [F.chain_of_root hp, List.mem_singleton] at h
    exact h.symm
  | some p =>
    rw [F.chain_of_parent hp] at h
    obtain rfl | h := List.mem_cons.mp h
    · rfl
    · have hUp := F.depth_le_of_mem_chain h
      have hDown := F.depth_le_of_mem_chain h'
      have hLess := F.depth_lt hp
      omega

theorem mem_chain_of_parent {c p d : ν} (hp : F.parent c = some p) (hd : d ∈ F.chain p) : d ∈ F.chain c := by
  rw [F.chain_of_parent hp]
  exact List.mem_cons_of_mem c hd

theorem mem_chain_cases {c d : ν} (h : d ∈ F.chain c) :
    d = c ∨ ∃ p, F.parent c = some p ∧ d ∈ F.chain p := by
  cases hp : F.parent c with
  | none =>
    rw [F.chain_of_root hp, List.mem_singleton] at h
    exact .inl h
  | some p =>
    rw [F.chain_of_parent hp] at h
    exact (List.mem_cons.mp h).imp_right fun h => ⟨p, rfl, h⟩

theorem mem_chain_trans {c d e : ν} (hd : d ∈ F.chain c) (he : e ∈ F.chain d) : e ∈ F.chain c := by
  induction c using F.induction with
  | hRoot c hp =>
    rw [F.chain_of_root hp, List.mem_singleton] at hd
    rwa [← hd]
  | hChild c p hp ih =>
    obtain rfl | ⟨q, hq, hd⟩ := F.mem_chain_cases hd
    · exact he
    · cases hp.symm.trans hq
      exact F.mem_chain_of_parent hp (ih hd)

theorem mem_chain_total {c d e : ν} (hd : d ∈ F.chain c) (he : e ∈ F.chain c) :
    d ∈ F.chain e ∨ e ∈ F.chain d := by
  induction c using F.induction with
  | hRoot c hp =>
    rw [F.chain_of_root hp, List.mem_singleton] at hd he
    rw [hd, he]
    exact .inl (F.mem_chain_self c)
  | hChild c p hp ih =>
    obtain rfl | ⟨q, hq, hd'⟩ := F.mem_chain_cases hd
    · exact .inr he
    · obtain rfl | ⟨r, hr, he'⟩ := F.mem_chain_cases he
      · exact .inl hd
      · cases hp.symm.trans hq
        cases hp.symm.trans hr
        exact ih hd' he'

/-- The way up to a proper ancestor enters it through one of its children. -/
theorem exists_child_of_mem_chain {c d : ν} (h : c ∈ F.chain d) :
    c = d ∨ ∃ k, F.parent k = some c ∧ k ∈ F.chain d := by
  induction d using F.induction with
  | hRoot d hp =>
    rw [F.chain_of_root hp, List.mem_singleton] at h
    exact .inl h
  | hChild d p hp ih =>
    obtain h | ⟨q, hq, h⟩ := F.mem_chain_cases h
    · exact .inl h
    · cases hp.symm.trans hq
      right
      obtain rfl | ⟨k, hk, hMem⟩ := ih h
      · exact ⟨d, hp, F.mem_chain_self d⟩
      · exact ⟨k, hk, F.mem_chain_of_parent hp hMem⟩

theorem child_unique {c d k k' : ν} (hk : F.parent k = some c) (hk' : F.parent k' = some c)
    (h : k ∈ F.chain d) (h' : k' ∈ F.chain d) : k = k' := by
  have hEqual : ∀ {a b : ν}, F.parent a = some c → F.parent b = some c → a ∈ F.chain b → a = b := by
    intro a b ha hb hMem
    obtain rfl | ⟨p, hp, hMem⟩ := F.mem_chain_cases hMem
    · rfl
    · cases hb.symm.trans hp
      have hUp := F.depth_le_of_mem_chain hMem
      have hLess := F.depth_lt ha
      omega
  obtain hMem | hMem := F.mem_chain_total h h'
  · exact hEqual hk hk' hMem
  · exact (hEqual hk' hk hMem).symm

theorem exists_root_of_chain (d : ν) : ∃ c, F.parent c = none ∧ c ∈ F.chain d := by
  induction d using F.induction with
  | hRoot d hp => exact ⟨d, hp, F.mem_chain_self d⟩
  | hChild d p hp ih =>
    obtain ⟨c, hc, hMem⟩ := ih
    exact ⟨c, hc, F.mem_chain_of_parent hp hMem⟩

theorem root_unique {c c' d : ν} (hc : F.parent c = none) (hc' : F.parent c' = none) (h : c ∈ F.chain d)
    (h' : c' ∈ F.chain d) : c = c' := by
  obtain hMem | hMem := F.mem_chain_total h h'
  · rw [F.chain_of_root hc', List.mem_singleton] at hMem
    exact hMem
  · rw [F.chain_of_root hc, List.mem_singleton] at hMem
    exact hMem.symm

section Nearest

variable {β : Type v}

def nearest (f : ν → Option β) (c : ν) : Option β := (F.chain c).findSome? f

theorem nearest_of_root {c : ν} (f : ν → Option β) (h : F.parent c = none) :
    F.nearest f c = f c := by
  rw [nearest, F.chain_of_root h, List.findSome?_cons]
  cases f c <;> rfl

theorem nearest_of_parent {c p : ν} (f : ν → Option β) (h : F.parent c = some p) :
    F.nearest f c = (f c).or (F.nearest f p) := by
  rw [nearest, F.chain_of_parent h, List.findSome?_cons]
  cases f c <;> rfl

theorem nearest_of_some {c : ν} {f : ν → Option β} {x : β} (h : f c = some x) :
    F.nearest f c = some x := by
  cases hp : F.parent c with
  | none => rw [F.nearest_of_root f hp, h]
  | some p => rw [F.nearest_of_parent f hp, h, Option.some_or]

theorem nearest_congr {f g : ν → Option β} {c : ν} (h : ∀ d ∈ F.chain c, f d = g d) :
    F.nearest f c = F.nearest g c := by
  induction c using F.induction with
  | hRoot c hp => rw [F.nearest_of_root f hp, F.nearest_of_root g hp, h c (F.mem_chain_self c)]
  | hChild c p hp ih =>
    rw [F.nearest_of_parent f hp, F.nearest_of_parent g hp, h c (F.mem_chain_self c), ih]
    intro d hd
    exact h d (by rw [F.chain_of_parent hp]; exact List.mem_cons_of_mem c hd)

/-- A node may store for itself what a lookup at it finds. -/
theorem nearest_of_stored {f g : ν → Option β} {d : ν} (hOther : ∀ e, e ≠ d → g e = f e)
    (hStored : g d = F.nearest f d) (c : ν) : F.nearest g c = F.nearest f c := by
  induction c using F.induction with
  | hRoot c hp =>
    rw [F.nearest_of_root g hp, F.nearest_of_root f hp]
    obtain rfl | hc := eq_or_ne c d
    · rw [hStored, F.nearest_of_root f hp]
    · exact hOther c hc
  | hChild c p hp ih =>
    rw [F.nearest_of_parent g hp, F.nearest_of_parent f hp, ih]
    obtain rfl | hc := eq_or_ne c d
    · rw [hStored, F.nearest_of_parent f hp]
      cases f c <;> simp
    · rw [hOther c hc]

/-- A lookup passes over the nodes below `d` that have nothing. -/
theorem nearest_of_below {f : ν → Option β} {c d : ν} (hd : d ∈ F.chain c)
    (hBelow : ∀ e ∈ F.chain c, e ∉ F.chain d → f e = none) : F.nearest f c = F.nearest f d := by
  induction c using F.induction with
  | hRoot c hp =>
    rw [F.chain_of_root hp, List.mem_singleton] at hd
    rw [hd]
  | hChild c p hp ih =>
    have hc := F.mem_chain_self c
    simp only [F.chain_of_parent hp, List.mem_cons] at hd hBelow
    obtain rfl | hd := hd
    · rfl
    · have hAbove : c ∉ F.chain d := by
        intro h
        have hUp := F.depth_le_of_mem_chain h
        have hDown := F.depth_le_of_mem_chain hd
        have hLess := F.depth_lt hp
        omega
      rw [F.nearest_of_parent f hp, hBelow c (.inl rfl) hAbove, Option.none_or]
      exact ih hd fun e he => hBelow e (.inr he)

/-- The node at which a lookup ends serves every lookup with the same domain. -/
theorem nearest_eq_some {f : ν → Option β} {c : ν} {x : β} (h : F.nearest f c = some x) :
    ∃ d ∈ F.chain c, f d = some x ∧ ∀ {γ : Type w} (g : ν → Option γ),
      (∀ e, (g e).isSome = (f e).isSome) → F.nearest g c = g d := by
  induction c using F.induction with
  | hRoot c hp =>
    rw [F.nearest_of_root f hp] at h
    exact ⟨c, F.mem_chain_self c, h, fun g _ => F.nearest_of_root g hp⟩
  | hChild c p hp ih =>
    rw [F.nearest_of_parent f hp] at h
    cases hc : f c with
    | some y =>
      rw [hc, Option.some_or] at h
      refine ⟨c, F.mem_chain_self c, hc.trans h, fun g hg => ?_⟩
      obtain ⟨z, hz⟩ := Option.isSome_iff_exists.mp ((hg c).trans (by rw [hc]; rfl))
      rw [F.nearest_of_some hz, hz]
    | none =>
      rw [hc, Option.none_or] at h
      obtain ⟨d, hd, hfd, hAll⟩ := ih h
      refine ⟨d, by rw [F.chain_of_parent hp]; exact List.mem_cons_of_mem c hd, hfd, fun g hg => ?_⟩
      have hgc : g c = none := by
        have hNone := hg c
        rw [hc] at hNone
        simpa using hNone
      rw [F.nearest_of_parent g hp, hgc, Option.none_or, hAll g hg]

end Nearest

end Forest

end OCNote.Support
