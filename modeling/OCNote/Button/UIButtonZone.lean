import Mathlib.Algebra.Order.Ring.Rat
import Mathlib.Data.List.Induction
import Mathlib.Data.Set.Prod
import Mathlib.Tactic.Linarith
import Mathlib.Tactic.Ring
import OCNote.Support.Span

/-! # The enlarged hit area of UIButton+zone

Coordinates are exact: the `float` that an edge is stored as is not rounded here. -/

namespace OCNote.Button
open OCNote.Support
set_option autoImplicit false

structure CGPoint where
  x : Rat
  y : Rat
  deriving DecidableEq

structure CGSize where
  width : Rat
  height : Rat
  deriving DecidableEq

structure CGRect where
  origin : CGPoint
  size : CGSize

def CGRectMake (x y width height : Rat) : CGRect := ⟨⟨x, y⟩, ⟨width, height⟩⟩

/-- The end with the least coordinate and the length of one side. -/
def standardize (origin length : Rat) : Rat × Rat :=
  if length < 0 then (origin + length, -length) else (origin, length)

def CGRectStandardize (rect : CGRect) : CGRect :=
  let x := standardize rect.origin.x rect.size.width
  let y := standardize rect.origin.y rect.size.height
  CGRectMake x.1 y.1 x.2 y.2

def CGRectEqualToRect (rect1 rect2 : CGRect) : Bool :=
  let r1 := CGRectStandardize rect1
  let r2 := CGRectStandardize rect2
  decide (r1.origin = r2.origin ∧ r1.size = r2.size)

def CGRectContainsPoint (rect : CGRect) (point : CGPoint) : Bool :=
  let r := CGRectStandardize rect
  decide (r.origin.x ≤ point.x ∧ point.x < r.origin.x + r.size.width ∧
    r.origin.y ≤ point.y ∧ point.y < r.origin.y + r.size.height)

/-- The button with its associated objects, `none` where none has been set. -/
structure UIButton where
  bounds : CGRect
  topNameKey : Option Rat
  rightNameKey : Option Rat
  bottomNameKey : Option Rat
  leftNameKey : Option Rat

def UIButton.setEnlargeEdge (button : UIButton) (top right bottom left : Rat) : UIButton :=
  { button with
    topNameKey := some top
    rightNameKey := some right
    bottomNameKey := some bottom
    leftNameKey := some left }

def UIButton.enlargedRect (button : UIButton) : CGRect :=
  match button.topNameKey, button.rightNameKey, button.bottomNameKey, button.leftNameKey with
  | some topEdge, some rightEdge, some bottomEdge, some leftEdge =>
    CGRectMake (button.bounds.origin.x - leftEdge) (button.bounds.origin.y - topEdge)
      (button.bounds.size.width + leftEdge + rightEdge)
      (button.bounds.size.height + topEdge + bottomEdge)
  | _, _, _, _ => button.bounds

/-- What `[super pointInside:withEvent:]` answers. -/
def UIButton.superPointInside (button : UIButton) (point : CGPoint) : Bool :=
  CGRectContainsPoint button.bounds point

def UIButton.pointInside (button : UIButton) (point : CGPoint) : Bool :=
  let rect := button.enlargedRect
  if CGRectEqualToRect rect button.bounds then button.superPointInside point
  else CGRectContainsPoint rect point

/-- The arguments of `setEnlargeEdgeWithTop:right:bottom:left:`. -/
structure Edges where
  top : Rat
  right : Rat
  bottom : Rat
  left : Rat

instance : LE Edges :=
  ⟨fun e e' => e.top ≤ e'.top ∧ e.right ≤ e'.right ∧ e.bottom ≤ e'.bottom ∧ e.left ≤ e'.left⟩

instance (e e' : Edges) : Decidable (e ≤ e') :=
  inferInstanceAs (Decidable (e.top ≤ e'.top ∧ e.right ≤ e'.right ∧ e.bottom ≤ e'.bottom ∧
    e.left ≤ e'.left))

def created (bounds : CGRect) : UIButton := ⟨bounds, none, none, none, none⟩

/-- The button after some calls of `setEnlargeEdgeWithTop:right:bottom:left:`. -/
def configure (bounds : CGRect) (calls : List Edges) : UIButton :=
  calls.foldl (fun button e => button.setEnlargeEdge e.top e.right e.bottom e.left) (created bounds)

/-- The last setting counts, and a button that was never set counts as set to 0. -/
def inForce (calls : List Edges) : Edges := calls.getLastD ⟨0, 0, 0, 0⟩

section Rect

theorem standardize_span (origin length q : Rat) :
    ((standardize origin length).1 ≤ q ∧
      q < (standardize origin length).1 + (standardize origin length).2) ↔
      q ∈ span origin (origin + length) := by
  by_cases hNeg : length < 0
  · rw [standardize, if_pos hNeg, span_comm, span_of_le (by linarith), Set.mem_Ico,
      add_neg_cancel_right]
  · rw [standardize, if_neg hNeg, span_of_le (by linarith), Set.mem_Ico]

theorem containsPoint_iff (rect : CGRect) (point : CGPoint) :
    CGRectContainsPoint rect point = true ↔
      point.x ∈ span rect.origin.x (rect.origin.x + rect.size.width) ∧
        point.y ∈ span rect.origin.y (rect.origin.y + rect.size.height) := by
  rw [← standardize_span, ← standardize_span, CGRectContainsPoint, decide_eq_true_iff, and_assoc]
  rfl

/-- Containment looks at the standardised rectangle only, as equality does. -/
theorem containsPoint_of_equalToRect {rect1 rect2 : CGRect}
    (hEqual : CGRectEqualToRect rect1 rect2 = true) (point : CGPoint) :
    CGRectContainsPoint rect1 point = CGRectContainsPoint rect2 point := by
  obtain ⟨hOrigin, hSize⟩ := of_decide_eq_true hEqual
  simp only [CGRectContainsPoint, hOrigin, hSize]

end Rect

/-- The two containment paths agree where they meet. -/
theorem UIButton.pointInside_eq (button : UIButton) (point : CGPoint) :
    button.pointInside point = CGRectContainsPoint button.enlargedRect point := by
  unfold UIButton.pointInside
  by_cases hEqual : CGRectEqualToRect button.enlargedRect button.bounds = true
  · rw [if_pos hEqual, UIButton.superPointInside, containsPoint_of_equalToRect hEqual]
  · rw [if_neg hEqual]

theorem configure_concat (bounds : CGRect) (calls : List Edges) (e : Edges) :
    configure bounds (calls ++ [e]) =
      (configure bounds calls).setEnlargeEdge e.top e.right e.bottom e.left := by
  rw [configure, List.foldl_append]
  rfl

theorem inForce_concat (calls : List Edges) (e : Edges) : inForce (calls ++ [e]) = e := by
  rw [inForce, List.getLastD_concat]

theorem configure_bounds (bounds : CGRect) (calls : List Edges) :
    (configure bounds calls).bounds = bounds := by
  induction calls using List.reverseRecOn with
  | nil => rfl
  | append_singleton calls e ih =>
    rw [configure_concat]
    exact ih

theorem UIButton.enlargedRect_setEnlargeEdge (button : UIButton) (top right bottom left : Rat) :
    (button.setEnlargeEdge top right bottom left).enlargedRect =
      CGRectMake (button.bounds.origin.x - left) (button.bounds.origin.y - top)
        (button.bounds.size.width + left + right) (button.bounds.size.height + top + bottom) := rfl

theorem enlargedRect_configure (bounds : CGRect) (calls : List Edges) :
    (configure bounds calls).enlargedRect =
      CGRectMake (bounds.origin.x - (inForce calls).left) (bounds.origin.y - (inForce calls).top)
        (bounds.size.width + (inForce calls).left + (inForce calls).right)
        (bounds.size.height + (inForce calls).top + (inForce calls).bottom) := by
  cases calls using List.reverseRecOn with
  | nil =>
    show bounds = CGRectMake (bounds.origin.x - 0) (bounds.origin.y - 0)
      (bounds.size.width + 0 + 0) (bounds.size.height + 0 + 0)
    rw [sub_zero, sub_zero, add_zero, add_zero, add_zero, add_zero, CGRectMake]
  | append_singleton calls e =>
    rw [configure_concat, inForce_concat, UIButton.enlargedRect_setEnlargeEdge, configure_bounds]

/-- The hit area, as a set of coordinates. -/
def UIButton.area (button : UIButton) : Set (Rat × Rat) :=
  {p | button.pointInside ⟨p.1, p.2⟩ = true}

theorem area_configure (bounds : CGRect) (calls : List Edges) :
    (configure bounds calls).area =
      span (bounds.origin.x - (inForce calls).left)
          (bounds.origin.x + bounds.size.width + (inForce calls).right) ×ˢ
        span (bounds.origin.y - (inForce calls).top)
          (bounds.origin.y + bounds.size.height + (inForce calls).bottom) := by
  have hEnd (origin length low high : Rat) :
      origin - low + (length + low + high) = origin + length + high := by ring
  ext p
  rw [UIButton.area, Set.mem_ofPred_eq, UIButton.pointInside_eq, enlargedRect_configure,
    containsPoint_iff, Set.mem_prod]
  simp only [CGRectMake, hEnd]

/-- Along one axis, on which the button has `length`: both sides have stayed, or neither side
of the first hit area lies past the opposite side of the second. -/
def Kept (length low high low' high' : Rat) : Prop :=
  (low' = low ∧ high' = high) ∨ (0 ≤ length + low' + high ∧ 0 ≤ length + low + high')

theorem span_enlarged_subset_iff {origin length low high low' high' : Rat}
    (hLow : low ≤ low') (hHigh : high ≤ high') :
    span (origin - low) (origin + length + high) ⊆ span (origin - low') (origin + length + high') ↔
      length + low + high = 0 ∨ Kept length low high low' high' := by
  rw [span_subset_span_iff (by linarith) (by linarith), Kept, sub_right_inj, add_right_inj]
  refine or_congr ?_ (or_congr Iff.rfl (and_congr ?_ ?_))
  · constructor <;> intro h <;> linarith
  · constructor <;> intro h <;> linarith
  · constructor <;> intro h <;> linarith

theorem span_enlarged_eq_empty_iff {origin length low high : Rat} :
    span (origin - low) (origin + length + high) = ∅ ↔ length + low + high = 0 := by
  rw [span_eq_empty_iff]
  constructor <;> intro h <;> linarith

theorem Kept.of_nonneg {length low high low' high' : Rat} (hLow : low ≤ low')
    (hHigh : high ≤ high') (hNonneg : 0 ≤ length + low + high) :
    Kept length low high low' high' :=
  Or.inr ⟨by linarith, by linarith⟩

theorem area_subset_iff (bounds : CGRect) {first second : List Edges}
    (hLe : inForce first ≤ inForce second) :
    (configure bounds first).area ⊆ (configure bounds second).area ↔
      (bounds.size.width + (inForce first).left + (inForce first).right = 0 ∨
        bounds.size.height + (inForce first).top + (inForce first).bottom = 0) ∨
      (Kept bounds.size.width (inForce first).left (inForce first).right
          (inForce second).left (inForce second).right ∧
        Kept bounds.size.height (inForce first).top (inForce first).bottom
          (inForce second).top (inForce second).bottom) := by
  obtain ⟨hTop, hRight, hBottom, hLeft⟩ := hLe
  rw [area_configure, area_configure, Set.prod_subset_prod_iff,
    span_enlarged_subset_iff hLeft hRight, span_enlarged_subset_iff hTop hBottom,
    span_enlarged_eq_empty_iff, span_enlarged_eq_empty_iff]
  tauto

/-- In particular, no point is lost where the first setting leaves the sides in their order. -/
theorem area_subset_of_nonneg (bounds : CGRect) {first second : List Edges}
    (hLe : inForce first ≤ inForce second)
    (hWidth : 0 ≤ bounds.size.width + (inForce first).left + (inForce first).right)
    (hHeight : 0 ≤ bounds.size.height + (inForce first).top + (inForce first).bottom) :
    (configure bounds first).area ⊆ (configure bounds second).area := by
  rw [area_subset_iff bounds hLe]
  obtain ⟨hTop, hRight, hBottom, hLeft⟩ := hLe
  exact Or.inr ⟨Kept.of_nonneg hLeft hRight hWidth, Kept.of_nonneg hTop hBottom hHeight⟩

/-- Larger edges keep every point of the hit area unless a side was past its opposite one:
`CGRectMake` then gets a negative width or height, and its rectangle lies between the two
sides all the same. -/
theorem pointInside_mono_iff (bounds : CGRect) (first second : List Edges)
    (hLe : inForce first ≤ inForce second) :
    (∀ point, (configure bounds first).pointInside point = true →
      (configure bounds second).pointInside point = true) ↔
      (bounds.size.width + (inForce first).left + (inForce first).right = 0 ∨
        bounds.size.height + (inForce first).top + (inForce first).bottom = 0) ∨
      (Kept bounds.size.width (inForce first).left (inForce first).right
          (inForce second).left (inForce second).right ∧
        Kept bounds.size.height (inForce first).top (inForce first).bottom
          (inForce second).top (inForce second).bottom) := by
  rw [← area_subset_iff bounds hLe]
  constructor
  · intro h p hp
    exact h ⟨p.1, p.2⟩ hp
  · intro h point hPoint
    exact @h (point.x, point.y) hPoint

/-- A button never set, and the setting of the demo. -/
theorem pointInside_mono_iff_demo :
    (∀ point, (configure (CGRectMake 0 0 40 40) []).pointInside point = true →
      (configure (CGRectMake 0 0 40 40) [⟨20, 20, 20, 30⟩]).pointInside point = true) ↔
      ((40 + 0 + 0 : Rat) = 0 ∨ (40 + 0 + 0 : Rat) = 0) ∨
        (Kept 40 0 0 30 20 ∧ Kept 40 0 0 20 20) :=
  pointInside_mono_iff (CGRectMake 0 0 40 40) [] [⟨20, 20, 20, 30⟩] (by decide +kernel)

/-- Moved in by 10 the sides of a button of 10 by 10 have changed places, and the button
accepts what it accepts untouched; moved in by 5 it accepts nothing. -/
theorem pointInside_lost_with_larger_edges :
    inForce [⟨-10, -10, -10, -10⟩] ≤ inForce [⟨-5, -5, -5, -5⟩] ∧
    (configure (CGRectMake 0 0 10 10) [⟨-10, -10, -10, -10⟩]).pointInside ⟨3, 3⟩ = true ∧
    (configure (CGRectMake 0 0 10 10) [⟨-5, -5, -5, -5⟩]).pointInside ⟨3, 3⟩ = false := by
  decide +kernel

end OCNote.Button
