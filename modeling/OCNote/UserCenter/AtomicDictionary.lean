import OCNote.UserCenter.UserCenter

/-! # The atomic dictionary

The abstract dictionary answers every operation at once. Its contents after a list of
operations are those of the last writes, and reads can be inserted anywhere. -/

namespace OCNote.UserCenter
open OCNote.Support
set_option autoImplicit false

universe u v

variable {κ : Type u} {ο : Type v} [DecidableEq κ]

/-- An operation on the abstract dictionary together with what it answers. -/
inductive Event (κ : Type u) (ο : Type v) where
  | objectForKey (key : κ) (result : Option ο)
  | setObject (obj : ο) (key : κ)

omit [DecidableEq κ] in
def Event.operation : Event κ ο → Operation κ ο
  | .objectForKey key _ => .objectForKey key
  | .setObject obj key => .setObject obj key

noncomputable def atomicDictionary (κ : Type u) (ο : Type v) [DecidableEq κ] :
    Machine (κ → Option ο) (Event κ ο) where
  start := fun _ => none
  step dic
    | .objectForKey key result =>
      open Classical in if result = dic key then some dic else none
    | .setObject obj key => some (Function.update dic key (some obj))

/-- The object of the last `setObject:forKey:` for the key, if there is one. -/
def lastObject (key : κ) (operations : List (Operation κ ο)) : Option ο :=
  operations.reverse.findSome? fun
    | .objectForKey _ => none
    | .setObject obj k => if k = key then some obj else none

def contents (operations : List (Operation κ ο)) : κ → Option ο :=
  operations.foldl Operation.apply fun _ => none

theorem contents_concat (operations : List (Operation κ ο)) (op : Operation κ ο) :
    contents (operations ++ [op]) = op.apply (contents operations) := by
  simp [contents, List.foldl_append]

theorem contents_eq_lastObject (operations : List (Operation κ ο)) (key : κ) :
    contents operations key = lastObject key operations := by
  induction operations using List.reverseRecOn with
  | nil => rfl
  | append_singleton operations op ih =>
    rw [contents_concat]
    cases op with
    | objectForKey k => simpa [Operation.apply, lastObject] using ih
    | setObject obj k =>
      obtain rfl | hk := eq_or_ne k key
      · simp [Operation.apply, lastObject]
      · simp only [Operation.apply, Function.update_of_ne (Ne.symm hk), ih]
        simp [lastObject, hk]

def Operation.event (dic : κ → Option ο) : Operation κ ο → Event κ ο
  | .objectForKey key => .objectForKey key (dic key)
  | .setObject obj key => .setObject obj key

def history (dic : κ → Option ο) : List (Operation κ ο) → List (Event κ ο)
  | [] => []
  | op :: operations => op.event dic :: history (op.apply dic) operations

theorem history_operations (dic : κ → Option ο) (operations : List (Operation κ ο)) :
    (history dic operations).map Event.operation = operations := by
  induction operations generalizing dic with
  | nil => rfl
  | cons op operations ih =>
    rw [history, List.map_cons, ih]
    cases op <;> rfl

theorem history_runs (dic : κ → Option ο) (operations : List (Operation κ ο)) :
    (atomicDictionary κ ο).runFrom dic (history dic operations) =
      some (operations.foldl Operation.apply dic) := by
  induction operations generalizing dic with
  | nil => rfl
  | cons op operations ih =>
    have hStep : (atomicDictionary κ ο).step dic (op.event dic) = some (op.apply dic) := by
      cases op <;> simp [atomicDictionary, Operation.event, Operation.apply]
    rw [history, Machine.runFrom, hStep]
    exact ih _

theorem history_getElem? (dic : κ → Option ο) (operations : List (Operation κ ο)) (n : Nat) :
    (history dic operations)[n]? =
      operations[n]?.map fun op => op.event ((operations.take n).foldl Operation.apply dic) := by
  induction operations generalizing dic n with
  | nil => rfl
  | cons op operations ih =>
    cases n with
    | zero => rfl
    | succ n => exact ih _ n

omit [DecidableEq κ] in
def Operation.isSet : Operation κ ο → Bool
  | .objectForKey _ => false
  | .setObject _ _ => true

theorem contents_take_of_reads {ops : List (Operation κ ο)} {k l : Nat} (hkl : k ≤ l)
    (hReads : ∀ (n : Nat) (op : Operation κ ο), k ≤ n → n < l → ops[n]? = some op → op.isSet = false) :
    contents (ops.take l) = contents (ops.take k) := by
  induction l with
  | zero => rw [Nat.le_zero.mp hkl]
  | succ l ih =>
    obtain hlk | hlk := Nat.lt_or_ge l k
    · rw [Nat.le_antisymm hkl hlk]
    · rw [← ih hlk fun n op hn hnl => hReads n op hn (by omega), List.take_add_one]
      cases hOp : ops[l]? with
      | none => simp
      | some op =>
        have hRead := hReads l op hlk (by omega) hOp
        cases op with
        | objectForKey key => exact contents_concat _ _
        | setObject => cases hRead

end OCNote.UserCenter
