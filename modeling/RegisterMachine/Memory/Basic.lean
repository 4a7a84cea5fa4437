import RegisterMachine.Machine.Interrupt
import RegisterMachine.Number.LittleEndian

/-!
Byte-addressed memory. An access is checked by `span` before anything is read or written: an address
whose top bit is set is a segmentation fault, an access past the end is out of memory.
-/

namespace RegisterMachine

structure Memory where
  cells : Array UInt8
  deriving DecidableEq

/-- A size that main memory cannot have. -/
structure InvalidSize where
  size : Nat
  deriving DecidableEq, Repr

namespace Memory

def minSize : Nat := 512

def maxSize : Nat := 16 * 1024 * 1024

/-- Main memory is a whole number of words within fixed bounds. -/
def ValidSize (size : Nat) : Prop := minSize ≤ size ∧ size ≤ maxSize ∧ size % 4 = 0

instance (size : Nat) : Decidable (ValidSize size) := inferInstanceAs (Decidable (_ ∧ _ ∧ _))

end Memory

namespace InvalidSize

def message (e : InvalidSize) : String :=
  s!"invalid memory size {e.size} (must be a multiple of 4 between {Memory.minSize} and "
    ++ s!"{Memory.maxSize})"

end InvalidSize

namespace Memory

/-- Memory of zeros. -/
def zeroed (size : Nat) : Memory := ⟨Array.replicate size 0⟩

/-- Main memory of zeros. -/
def create (size : Nat) : Except InvalidSize Memory :=
  if ValidSize size then .ok (zeroed size) else .error ⟨size⟩

def size (m : Memory) : Nat := m.cells.size

/-- Where an access to `count` bytes begins, if all of them are there. -/
def span (m : Memory) (address : UInt32) (count : Nat) : Except Interrupt Nat :=
  if 0x80000000 ≤ address.toNat then .error .segmentationFault
  else if m.size < address.toNat + count then .error .outOfMemory
  else .ok address.toNat

/-- The bytes from `start` on. -/
def slice (m : Memory) (start count : Nat) : List UInt8 :=
  (m.cells.extract start (start + count)).toList

def read (m : Memory) (address : UInt32) (count : Nat) : Except Interrupt (List UInt8) :=
  (m.span address count).map fun start => m.slice start count

/-- Reads `width` bytes as one number, least significant byte first. -/
def load (m : Memory) (address : UInt32) (width : Nat) : Except Interrupt UInt32 :=
  (m.read address width).map fun bytes => UInt32.ofNat (LittleEndian.value bytes)

def loadWord (m : Memory) (address : UInt32) : Except Interrupt UInt32 := m.load address 4

/-- Puts bytes into cells from `start` on. -/
def putBytes (cells : Array UInt8) (start : Nat) : List UInt8 → Array UInt8
  | [] => cells
  | b :: rest => putBytes (cells.setIfInBounds start b) (start + 1) rest

/-- Puts one byte into `count` cells from `start` on. -/
def putSame (cells : Array UInt8) (start : Nat) (b : UInt8) : Nat → Array UInt8
  | 0 => cells
  | count + 1 => putSame (cells.setIfInBounds start b) (start + 1) b count

/-- Replaces the bytes from `start` on. -/
def overwrite (m : Memory) (start : Nat) (bytes : List UInt8) : Memory :=
  ⟨putBytes m.cells start bytes⟩

def write (m : Memory) (address : UInt32) (bytes : List UInt8) : Except Interrupt Memory :=
  (m.span address bytes.length).map fun start => m.overwrite start bytes

/-- Writes the low `width` bytes of a number, least significant byte first. -/
def store (m : Memory) (address : UInt32) (width : Nat) (value : UInt32) :
    Except Interrupt Memory :=
  m.write address (LittleEndian.bytes width value.toNat)

def storeWord (m : Memory) (address value : UInt32) : Except Interrupt Memory :=
  m.store address 4 value

def fill (m : Memory) (address : UInt32) (count : Nat) (b : UInt8) : Except Interrupt Memory :=
  (m.span address count).map fun start => ⟨putSame m.cells start b count⟩

@[simp] theorem size_putBytes (cells : Array UInt8) (start : Nat) (bytes : List UInt8) :
    (putBytes cells start bytes).size = cells.size := by
  induction bytes generalizing cells start with
  | nil => rfl
  | cons b rest ih => simp [putBytes, ih]

theorem putSame_eq_putBytes (cells : Array UInt8) (start : Nat) (b : UInt8) (count : Nat) :
    putSame cells start b count = putBytes cells start (List.replicate count b) := by
  induction count generalizing cells start with
  | zero => rfl
  | succ count ih => simp [putSame, putBytes, List.replicate_succ, ih]

/-- After a write, a cell holds its new byte if the write covers it and its old one if not. -/
theorem getElem?_putBytes (cells : Array UInt8) (start : Nat) (bytes : List UInt8) (i : Nat)
    (h : start + bytes.length ≤ cells.size) :
    (putBytes cells start bytes)[i]? =
      if start ≤ i ∧ i < start + bytes.length then bytes[i - start]? else cells[i]? := by
  induction bytes generalizing cells start with
  | nil =>
    have : ¬(start ≤ i ∧ i < start + ([] : List UInt8).length) := by
      simp only [List.length_nil]
      omega
    rw [if_neg this]
    rfl
  | cons b rest ih =>
    simp only [List.length_cons] at h ⊢
    rw [putBytes, ih _ _ (by simpa using (by omega : start + 1 + rest.length ≤ cells.size)),
      Array.getElem?_setIfInBounds]
    by_cases first : i = start
    · subst first
      rw [if_neg (by omega), if_pos rfl, if_pos (by omega), if_pos (by omega), Nat.sub_self]
      rfl
    · by_cases inside : start + 1 ≤ i ∧ i < start + 1 + rest.length
      · rw [if_pos inside, if_pos (by omega),
          show i - start = (i - (start + 1)) + 1 by omega, List.getElem?_cons_succ]
      · rw [if_neg inside, if_neg (Ne.symm first), if_neg (by omega)]

@[simp] theorem size_overwrite (m : Memory) (start : Nat) (bytes : List UInt8) :
    (m.overwrite start bytes).size = m.size :=
  size_putBytes _ _ _

theorem span_eq_ok_iff {m : Memory} {address : UInt32} {count start : Nat} :
    m.span address count = .ok start ↔
      start = address.toNat ∧ address.toNat < 0x80000000 ∧ address.toNat + count ≤ m.size := by
  unfold span
  split
  · simp
    omega
  · split
    · simp
      omega
    · simp only [Except.ok.injEq]
      omega

end Memory

end RegisterMachine
