import RegisterMachine.Memory.Pointer
import RegisterMachine.Proofs.Memory.Contents
import RegisterMachine.Proofs.Number.LittleEndian

/-! Memory as a store of bytes.

A number is stored as its low bytes, least significant first, all of them or none: the address and
the end of the access are checked before a byte is written. Any later access, of whatever width and
wherever it overlaps, finds the bytes that were written where they were written and the old ones
elsewhere, and reads them as a number in the same order (`Stores`, `stores_and_loads`). -/
namespace RegisterMachine

/-! ### Bytes -/

namespace LittleEndian

/-- The byte of a number at a place, the least significant one being at place zero. -/
def byte (n place : Nat) : UInt8 := UInt8.ofNat (n / 256 ^ place)

theorem getElem?_bytes {width place : Nat} (n : Nat) (h : place < width) :
    (bytes width n)[place]? = some (byte n place) := by
  induction width generalizing n place with
  | zero => exact absurd h (Nat.not_lt_zero _)
  | succ width ih =>
    cases place with
    | zero => rw [bytes, byte, pow_zero, Nat.div_one, List.getElem?_cons_zero]
    | succ place =>
      rw [bytes, List.getElem?_cons_succ, ih (n / 256) (Nat.lt_of_succ_lt_succ h), byte, byte,
        Nat.div_div_eq_div_mul, pow_succ']

/-- The number that the bytes at `count` places from `start` on stand for. -/
def number (byteAt : Nat → UInt8) (start count : Nat) : Nat :=
  ∑ k ∈ Finset.range count, (byteAt (start + k)).toNat * 256 ^ k

theorem value_eq_sum (bs : List UInt8) :
    value bs = ∑ k ∈ Finset.range bs.length, (bs.getD k 0).toNat * 256 ^ k := by
  induction bs with
  | nil => rfl
  | cons b rest ih =>
    rw [value, ih, List.length_cons, Finset.sum_range_succ', Finset.mul_sum, Nat.add_comm]
    congr 1
    · refine Finset.sum_congr rfl fun k _ => ?_
      rw [List.getD_cons_succ, pow_succ]
      ring
    · rw [List.getD_cons_zero, pow_zero, Nat.mul_one]

end LittleEndian

namespace Memory

variable {m m' : Memory} {address : UInt32} {start width count n i : Nat}

/-- The byte at an address; behind the end there are zeros. -/
def byte (m : Memory) (i : Nat) : UInt8 := m.cells.getD i 0

/-- There are this many bytes from the address on. -/
def Reaches (m : Memory) (address : UInt32) (count : Nat) : Prop :=
  address.toNat < 0x80000000 ∧ address.toNat + count ≤ m.size

/-! ### Reading -/

theorem byte_eq (m : Memory) (i : Nat) : m.byte i = m.cells[i]?.getD 0 :=
  Array.getD_eq_getD_getElem?

theorem value_slice (h : start + count ≤ m.size) :
    LittleEndian.value (m.slice start count) = LittleEndian.number m.byte start count := by
  rw [LittleEndian.value_eq_sum, length_slice h, LittleEndian.number]
  refine Finset.sum_congr rfl fun k hk => ?_
  rw [List.getD_eq_getElem?_getD, slice_eq, List.getElem?_take,
    if_pos (Finset.mem_range.mp hk), List.getElem?_drop, Array.getElem?_toList, byte_eq]

theorem read_eq (h : m.Reaches address count) :
    m.read address count = .ok (m.slice address.toNat count) := by
  rw [read, span_eq_ok_iff.mpr ⟨rfl, h.1, h.2⟩]
  rfl

/-- A word has room for up to four bytes. -/
theorem load_eq (h : m.Reaches address count) (hcount : count ≤ 4) :
    ∃ word, m.load address count = .ok word ∧
      word.toNat = LittleEndian.number m.byte address.toNat count := by
  refine ⟨UInt32.ofNat (LittleEndian.value (m.slice address.toNat count)), ?_, ?_⟩
  · rw [load, read_eq h]
    rfl
  · have hlt := LittleEndian.value_lt (m.slice address.toNat count)
    have hword : 256 ^ count ≤ 256 ^ 4 := Nat.pow_le_pow_right (by decide) hcount
    rw [length_slice h.2] at hlt
    rw [UInt32.toNat_ofNat', Nat.mod_eq_of_lt (by omega), value_slice h.2]

theorem pointer_read_eq {p : Pointer} (h : m.Reaches p.address p.kind.size) : p.read m =
    .ok (p.kind.normalize (LittleEndian.number m.byte p.address.toNat p.kind.size)) := by
  rw [Pointer.read, read_eq h, ← value_slice h.2]
  rfl

/-! ### Writing -/

/-- The bytes of memory, but for the low bytes of a number in a part of it. -/
def patched (m : Memory) (start width n i : Nat) : UInt8 :=
  if start ≤ i ∧ i < start + width then LittleEndian.byte n (i - start) else m.byte i

theorem byte_overwrite (h : start + width ≤ m.size) (n i : Nat) :
    (m.overwrite start (LittleEndian.bytes width n)).byte i = m.patched start width n i := by
  have hcell := getElem?_putBytes m.cells start (LittleEndian.bytes width n) i
    (by rwa [LittleEndian.length_bytes])
  rw [LittleEndian.length_bytes] at hcell
  rw [byte_eq, overwrite, hcell, patched]
  split
  · rw [LittleEndian.getElem?_bytes n (by omega), Option.getD_some]
  · rw [byte_eq]

/-- What an answer leaves of memory: all of it as it was, unless the answer is another memory. -/
def after (m : Memory) : Except Interrupt Memory → Memory
  | .ok m' => m'
  | .error _ => m

/-- The answer is that of a store of the low bytes of a number. It succeeds exactly if all of them
have a place, and otherwise leaves everything as it was. Whatever is read after it is read of the new
bytes where they were stored and of the old ones elsewhere. -/
structure Stores (m : Memory) (address : UInt32) (width n : Nat) (answer : Except Interrupt Memory) :
    Prop where
  succeeds : (∃ m', answer = .ok m') ↔ m.Reaches address width
  fails : ¬m.Reaches address width →
    answer = .error (if 0x80000000 ≤ address.toNat then .segmentationFault else .outOfMemory)
  size : (m.after answer).size = m.size
  kept : ¬m.Reaches address width → ∀ i, (m.after answer).byte i = m.byte i
  written : m.Reaches address width →
    ∀ i, (m.after answer).byte i = m.patched address.toNat width n i
  loads : m.Reaches address width → ∀ source count, count ≤ 4 → m.Reaches source count →
    ∃ word, (m.after answer).load source count = .ok word ∧
      word.toNat = LittleEndian.number (m.patched address.toNat width n) source.toNat count
  reads : m.Reaches address width → ∀ p : Pointer, m.Reaches p.address p.kind.size →
    p.read (m.after answer) = .ok (p.kind.normalize
      (LittleEndian.number (m.patched address.toNat width n) p.address.toNat p.kind.size))

theorem span_of_not_reaches (h : ¬m.Reaches address count) : m.span address count =
    .error (if 0x80000000 ≤ address.toNat then .segmentationFault else .outOfMemory) := by
  unfold Reaches at h
  rw [span]
  split
  · rfl
  · rw [if_pos (by omega)]

theorem stores_write (m : Memory) (address : UInt32) (width n : Nat) :
    m.Stores address width n (m.write address (LittleEndian.bytes width n)) := by
  have hwrite : m.write address (LittleEndian.bytes width n) =
      (m.span address width).map fun start => m.overwrite start (LittleEndian.bytes width n) := by
    rw [write, LittleEndian.length_bytes]
  by_cases hreaches : m.Reaches address width
  · have hanswer : m.write address (LittleEndian.bytes width n) =
        .ok (m.overwrite address.toNat (LittleEndian.bytes width n)) := by
      rw [hwrite, span_eq_ok_iff.mpr ⟨rfl, hreaches.1, hreaches.2⟩]
      rfl
    have hbytes : (m.overwrite address.toNat (LittleEndian.bytes width n)).byte =
        m.patched address.toNat width n := funext fun i => byte_overwrite hreaches.2 n i
    have hsize := m.size_overwrite address.toNat (LittleEndian.bytes width n)
    rw [hanswer]
    exact {
      succeeds := ⟨fun _ => hreaches, fun _ => ⟨_, rfl⟩⟩
      fails := fun h => absurd hreaches h
      size := hsize
      kept := fun h => absurd hreaches h
      written := fun _ i => congrFun hbytes i
      loads := fun _ source count hcount hsource => by
        rw [← hbytes]
        exact load_eq ⟨hsource.1, hsize.symm ▸ hsource.2⟩ hcount
      reads := fun _ p hp => by
        rw [← hbytes]
        exact pointer_read_eq ⟨hp.1, hsize.symm ▸ hp.2⟩ }
  · rw [hwrite, span_of_not_reaches hreaches]
    exact {
      succeeds := ⟨by rintro ⟨_, ⟨⟩⟩, fun h => absurd h hreaches⟩
      fails := fun _ => rfl
      size := rfl
      kept := fun _ _ => rfl
      written := fun h => absurd h hreaches
      loads := fun h => absurd h hreaches
      reads := fun h => absurd h hreaches }

/-- What is read from where it was stored is what was stored, cut to the width. -/
theorem number_patched (m : Memory) (start width n : Nat) :
    LittleEndian.number (m.patched start width n) start width = n % 256 ^ width := by
  rw [← LittleEndian.value_bytes, LittleEndian.value_eq_sum, LittleEndian.length_bytes,
    LittleEndian.number]
  refine Finset.sum_congr rfl fun k hk => ?_
  have hlt := Finset.mem_range.mp hk
  rw [patched, if_pos (by omega), Nat.add_sub_cancel_left, List.getD_eq_getElem?_getD,
    LittleEndian.getElem?_bytes n hlt, Option.getD_some]

theorem normalize_cut (kind : ElementKind) (n : Nat) :
    kind.normalize (kind.normalize n % 256 ^ kind.size) =
      if kind = .bool then if n = 0 then 0 else 1 else n % 2 ^ (8 * kind.size) := by
  have hpow : 256 ^ kind.size = 2 ^ (8 * kind.size) := by rw [Nat.pow_mul]
  by_cases hbool : kind = .bool
  · subst hbool
    by_cases hn : n = 0 <;> simp [ElementKind.normalize, ElementKind.size, hn]
  · simp only [ElementKind.normalize, if_neg hbool, hpow]

/-- **Memory is a store of bytes.** A store, or a write through a pointer, is all or nothing, and
what is read after it, at any width and with any overlap, are the bytes that were written and the old
ones around them. A pointer reads what it wrote, cut to the size of its element. -/
theorem stores_and_loads (m : Memory) :
    (∀ address width value, m.Stores address width value.toNat (m.store address width value)) ∧
    ∀ (p : Pointer) value,
      m.Stores p.address p.kind.size (p.kind.normalize value) (p.write m value) ∧
      ∀ m', p.write m value = .ok m' → p.read m' = .ok
        (if p.kind = .bool then if value = 0 then 0 else 1
          else value % 2 ^ (8 * p.kind.size)) := by
  refine ⟨fun address width value => stores_write m address width value.toNat, fun p value => ?_⟩
  have hstores := stores_write m p.address p.kind.size (p.kind.normalize value)
  refine ⟨hstores, fun m' hwrite => ?_⟩
  have hreaches := hstores.succeeds.mp ⟨m', hwrite⟩
  have hread := hstores.reads hreaches p hreaches
  rw [number_patched, normalize_cut] at hread
  have hafter : m.after (p.write m value) = m' := by rw [hwrite, after]
  rw [← hafter]
  exact hread

end Memory

end RegisterMachine
