import Mathlib
import RegisterMachine.Memory.Pointer

/-! Casting pointers and moving them.

Addresses and counts are numbers modulo `2 ^ 32`, and so moving a pointer twice is moving it once by
the sum of the counts, however often that wraps around (`offset_offset`); the address is off by the
signed count times the size of an element (`toNat_offset`). A locked pointer refuses every type but
its own, so whatever is called on it only moves it (`run_of_locked`). An unlocked one takes every
type, and moves by the size of the one it took last (`calls_on_pointers`). -/
namespace RegisterMachine.Pointer

variable {p : Pointer} {kind : ElementKind}

/-- A call on a pointer. -/
inductive Call where
  | cast (kind : ElementKind)
  | offset (count : UInt32)

/-- How many elements further on a call moves a pointer. -/
def Call.count : Call → UInt32
  | .cast _ => 0
  | .offset count => count

/-- The type that a call asks for. -/
def Call.kind? : Call → Option ElementKind
  | .cast kind => some kind
  | .offset _ => none

/-- The pointer after a call. A refused cast leaves it as it was. -/
def after (p : Pointer) : Call → Pointer
  | .cast kind =>
    match p.cast kind with
    | .ok p' => p'
    | .error _ => p
  | .offset count => p.offset count

/-- The pointer after calls in this order. -/
def run (p : Pointer) (calls : List Call) : Pointer := calls.foldl after p

/-- The type that calls asked for last, or this one if they asked for none. -/
def lastCast (kind : ElementKind) (calls : List Call) : ElementKind :=
  (calls.filterMap Call.kind?).getLastD kind

theorem run_concat (p : Pointer) (calls : List Call) (call : Call) :
    p.run (calls ++ [call]) = (p.run calls).after call := by
  rw [run, List.foldl_concat, run]

theorem lastCast_concat (kind : ElementKind) (calls : List Call) (call : Call) :
    lastCast kind (calls ++ [call]) = call.kind?.getD (lastCast kind calls) := by
  rw [lastCast, List.filterMap_append]
  cases call with
  | cast _ => exact List.getLastD_concat
  | offset _ => exact congrArg (List.getLastD · kind) (List.append_nil _)

/-! ### Moving -/

theorem offset_zero (p : Pointer) : p.offset 0 = p := by
  rw [offset, UInt32.zero_mul, UInt32.add_zero]

theorem offset_offset (p : Pointer) (m n : UInt32) : (p.offset m).offset n = p.offset (m + n) := by
  rw [offset, offset, offset, UInt32.add_mul, UInt32.add_assoc]

theorem offset_neg (p : Pointer) (m : UInt32) : (p.offset m).offset (-m) = p := by
  rw [offset_offset, UInt32.add_right_neg, offset_zero]

/-- The signed count times the size is added modulo `2 ^ 32`. -/
theorem toNat_offset (p : Pointer) (n : UInt32) : ((p.offset n).address.toNat : ℤ) =
    (p.address.toNat + n.toInt32.toInt * p.kind.size) % 2 ^ 32 := by
  have hsize : (UInt32.ofNat p.kind.size).toNat = p.kind.size := by
    cases p.kind <;> rfl
  have hcount : n.toInt32.toInt ≡ n.toNat [ZMOD 2 ^ 32] := by
    show n.toBitVec.toInt ≡ n.toBitVec.toNat [ZMOD 2 ^ 32]
    rw [BitVec.toInt_eq_toNat_bmod]
    exact Int.bmod_emod
  have haddress : ((p.offset n).address.toNat : ℤ) =
      (p.address.toNat + n.toNat * p.kind.size) % 2 ^ 32 := by
    rw [offset, UInt32.toNat_add, UInt32.toNat_mul, hsize, Nat.add_mod_mod]
    norm_cast
  rw [haddress]
  exact ((hcount.mul_right _).add_left _).symm

/-! ### Locked pointers -/

theorem cast_of_locked (h : p.locked = true) :
    p.cast kind = if kind = p.kind then .ok p else .error ⟨p.address⟩ := by
  by_cases hkind : kind = p.kind
  · rw [cast, if_neg fun hrefused => hrefused.2 hkind, if_pos hkind, hkind]
  · rw [cast, if_pos ⟨h, hkind⟩, if_neg hkind]

/-- Whatever is called on a locked pointer moves it, if at all. -/
theorem after_of_locked (h : p.locked = true) (call : Call) :
    p.after call = p.offset call.count := by
  cases call with
  | cast kind =>
    rw [Call.count, offset_zero]
    by_cases hkind : kind = p.kind
    · simp only [after, cast_of_locked h, if_pos hkind]
    · simp only [after, cast_of_locked h, if_neg hkind]
  | offset count => rfl

theorem run_of_locked (h : p.locked = true) (calls : List Call) :
    p.run calls = p.offset (calls.map Call.count).sum := by
  induction calls generalizing p with
  | nil => exact p.offset_zero.symm
  | cons call rest ih =>
    have hmoved : (p.offset call.count).locked = true := h
    rw [run, List.foldl_cons, after_of_locked h, ← run, ih hmoved, offset_offset, List.map_cons,
      List.sum_cons]

/-! ### Unlocked pointers -/

theorem cast_of_unlocked (h : p.locked = false) : p.cast kind = .ok { p with kind } := by
  rw [cast, if_neg (by simp [h])]

/-- An unlocked pointer takes the type that a call asks for and stays unlocked. -/
theorem after_of_unlocked (h : p.locked = false) (call : Call) :
    (p.after call).locked = false ∧ (p.after call).kind = call.kind?.getD p.kind := by
  cases call with
  | cast kind =>
    rw [after, cast_of_unlocked h]
    exact ⟨h, rfl⟩
  | offset count => exact ⟨h, rfl⟩

theorem run_of_unlocked (h : p.locked = false) (calls : List Call) :
    (p.run calls).locked = false ∧ (p.run calls).kind = lastCast p.kind calls := by
  -- from the end, since the last cast is the one that counts
  induction calls using List.reverseRecOn with
  | nil => exact ⟨h, rfl⟩
  | append_singleton calls call ih =>
    obtain ⟨hlocked, hkind⟩ := ih
    obtain ⟨hafter, htaken⟩ := after_of_unlocked hlocked call
    rw [run_concat, lastCast_concat, ← hkind]
    exact ⟨hafter, htaken⟩

/-- **Pointer arithmetic and casts.** Offsets add up and are undone by their negatives, and an
address moves by the signed count times the size of an element, modulo `2 ^ 32`. Calls on a locked
pointer move it by the sum of their counts and leave its type and its lock; every cast to another
type is refused and changes nothing. Calls on an unlocked pointer leave it unlocked, no cast is
refused, and it moves by the size of the type it was cast to last. -/
theorem calls_on_pointers (p : Pointer) (calls : List Call) :
    (∀ m n, (p.offset m).offset n = p.offset (m + n)) ∧
      (∀ m, (p.offset m).offset (-m) = p) ∧
      (∀ n, ((p.offset n).address.toNat : ℤ) =
        (p.address.toNat + n.toInt32.toInt * p.kind.size) % 2 ^ 32) ∧
      let q := p.run calls
      (p.locked = true → q = p.offset (calls.map Call.count).sum ∧ q.kind = p.kind ∧
        q.locked = true ∧ ∀ kind, q.after (.cast kind) = q ∧
          q.cast kind = if kind = p.kind then .ok q else .error ⟨q.address⟩) ∧
      (p.locked = false → q.locked = false ∧ q.kind = lastCast p.kind calls ∧
        (∀ kind, q.cast kind = .ok { q with kind }) ∧
        ∀ n, ((q.offset n).address.toNat : ℤ) =
          (q.address.toNat + n.toInt32.toInt * (lastCast p.kind calls).size) % 2 ^ 32) := by
  refine ⟨p.offset_offset, p.offset_neg, p.toNat_offset, fun hlocked => ?_, fun hunlocked => ?_⟩
  · have hrun := run_of_locked hlocked calls
    have hkind : (p.run calls).kind = p.kind := by rw [hrun, offset]
    have hkept : (p.run calls).locked = true := by rw [hrun, offset, hlocked]
    refine ⟨hrun, hkind, hkept, fun kind => ⟨?_, ?_⟩⟩
    · rw [after_of_locked hkept, Call.count, offset_zero]
    · rw [cast_of_locked hkept, hkind]
  · obtain ⟨hkept, hkind⟩ := run_of_unlocked hunlocked calls
    refine ⟨hkept, hkind, fun kind => cast_of_unlocked hkept, fun n => ?_⟩
    rw [toNat_offset, hkind]

end RegisterMachine.Pointer
