/-!
Numbers as bytes, least significant byte first.
-/

namespace RegisterMachine.LittleEndian

/-- The low `width` bytes of a number. -/
def bytes : Nat → Nat → List UInt8
  | 0, _ => []
  | width + 1, n => UInt8.ofNat n :: bytes width (n / 256)

/-- The number that a list of bytes stands for. -/
def value : List UInt8 → Nat
  | [] => 0
  | b :: rest => b.toNat + 256 * value rest

/-- The whole words in a list of bytes; up to three bytes at the end are left over. -/
def words : List UInt8 → List UInt32
  | a :: b :: c :: d :: rest => UInt32.ofNat (value [a, b, c, d]) :: words rest
  | _ => []

/-- The four bytes of a word. -/
def wordBytes (word : UInt32) : List UInt8 :=
  bytes 4 word.toNat

@[simp] theorem length_bytes (width n : Nat) : (bytes width n).length = width := by
  induction width generalizing n with
  | zero => rfl
  | succ width ih => simp [bytes, ih]

@[simp] theorem length_wordBytes (word : UInt32) : (wordBytes word).length = 4 :=
  length_bytes 4 _

end RegisterMachine.LittleEndian
