import RegisterMachine.Memory.Basic

/-! What stands in memory.

A slice reads a stretch of cells, and bytes that are written are read back from
where they were put. Writing two runs of bytes one behind the other is writing them
at once. -/
namespace RegisterMachine.Memory

variable {m : Memory} {start n k i : Nat} {bytes first second : List UInt8}

theorem slice_eq (m : Memory) (start count : Nat) :
    m.slice start count = (m.cells.toList.drop start).take count := by
  rw [slice, Array.toList_extract, List.extract_eq_take_drop, Nat.add_sub_cancel_left]

theorem length_slice (h : start + n ≤ m.size) : (m.slice start n).length = n := by
  have hcells : m.cells.toList.length = m.size := rfl
  rw [slice_eq, List.length_take, List.length_drop]
  omega

/-- Where two runs of bytes stand one behind the other, each stands by itself. -/
theorem slice_of_append (hfirst : first.length = n) (hsecond : second.length = k)
    (h : m.slice start (n + k) = first ++ second) :
    m.slice start n = first ∧ m.slice (start + n) k = second := by
  subst hfirst hsecond
  rw [slice_eq] at h
  rw [slice_eq, slice_eq]
  constructor
  · have htake := congrArg (List.take first.length) h
    rw [List.take_take, Nat.min_eq_left (Nat.le_add_right _ _), List.take_left] at htake
    exact htake
  · have hdrop := congrArg (List.drop first.length) h
    rw [List.drop_take, List.drop_drop, Nat.add_sub_cancel_left, List.drop_left] at hdrop
    exact hdrop

/-- A part of a slice is a slice. -/
theorem slice_slice (h : k + i ≤ n) :
    ((m.slice start n).drop k).take i = m.slice (start + k) i := by
  rw [slice_eq, slice_eq, List.drop_take, List.take_take, List.drop_drop,
    Nat.min_eq_left (by omega)]

/-- A slice depends on its own cells only. -/
theorem slice_congr {m' : Memory}
    (h : ∀ i, start ≤ i → i < start + n → m.cells[i]? = m'.cells[i]?) :
    m.slice start n = m'.slice start n := by
  apply List.ext_getElem?
  intro i
  rw [slice_eq, slice_eq, List.getElem?_take, List.getElem?_take]
  split
  · rw [List.getElem?_drop, List.getElem?_drop, Array.getElem?_toList, Array.getElem?_toList]
    exact h _ (by omega) (by omega)
  · rfl

theorem putBytes_append (cells : Array UInt8) (start : Nat) (first second : List UInt8) :
    putBytes cells start (first ++ second) =
      putBytes (putBytes cells start first) (start + first.length) second := by
  induction first generalizing cells start with
  | nil => rfl
  | cons b rest ih =>
    rw [List.cons_append, putBytes, putBytes, ih, List.length_cons]
    congr 1
    omega

theorem overwrite_append (m : Memory) (start : Nat) (first second : List UInt8) :
    m.overwrite start (first ++ second) =
      (m.overwrite start first).overwrite (start + first.length) second :=
  congrArg Memory.mk (putBytes_append m.cells start first second)

/-- A write to addresses that are all there succeeds. -/
theorem write_eq {address : UInt32} (htop : address.toNat < 0x80000000)
    (hend : address.toNat + bytes.length ≤ m.size) :
    m.write address bytes = .ok (m.overwrite address.toNat bytes) := by
  have hspan : m.span address bytes.length = .ok address.toNat :=
    span_eq_ok_iff.mpr ⟨rfl, htop, hend⟩
  rw [write, hspan]
  rfl

/-- What was written is read back. -/
theorem slice_overwrite (h : start + bytes.length ≤ m.size) :
    (m.overwrite start bytes).slice start bytes.length = bytes := by
  apply List.ext_getElem?
  intro i
  have hcell := getElem?_putBytes m.cells start bytes (start + i) h
  rw [slice_eq, List.getElem?_take]
  split
  · rename_i hi
    rw [if_pos (by omega), Nat.add_sub_cancel_left] at hcell
    rw [List.getElem?_drop, Array.getElem?_toList]
    exact hcell
  · rename_i hi
    exact (List.getElem?_eq_none (Nat.not_lt.mp hi)).symm

/-- Nothing else was written. -/
theorem getElem?_overwrite (h : start + bytes.length ≤ m.size)
    (hi : i < start ∨ start + bytes.length ≤ i) :
    (m.overwrite start bytes).cells[i]? = m.cells[i]? :=
  (getElem?_putBytes m.cells start bytes i h).trans (if_neg (by omega))

end RegisterMachine.Memory
