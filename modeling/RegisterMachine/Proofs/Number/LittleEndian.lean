import Mathlib
import RegisterMachine.Number.LittleEndian

/-! `bytes` and `value` undo each other on numbers that fit the width and on every list of bytes.
Behind other bytes, bytes count for as many powers of 256 more. -/
namespace RegisterMachine.LittleEndian

theorem value_bytes (width n : Nat) : value (bytes width n) = n % 256 ^ width := by
  induction width generalizing n with
  | zero => simp [bytes, value, Nat.mod_one]
  | succ width ih =>
    rw [bytes, value, ih, UInt8.toNat_ofNat', pow_succ' _ width]
    exact (Nat.mod_mul).symm

theorem value_wordBytes (word : UInt32) : value (wordBytes word) = word.toNat := by
  rw [wordBytes, value_bytes]
  exact Nat.mod_eq_of_lt word.toNat_lt

theorem value_singleton (b : UInt8) : value [b] = b.toNat := by
  rw [value, value, Nat.mul_zero, Nat.add_zero]

theorem value_lt (bs : List UInt8) : value bs < 256 ^ bs.length := by
  induction bs with
  | nil => simp [value]
  | cons b rest ih =>
    have := b.toNat_lt
    simp only [value, List.length_cons, pow_succ']
    omega

theorem value_append (front back : List UInt8) :
    value (front ++ back) = value front + 256 ^ front.length * value back := by
  induction front with
  | nil => simp [value]
  | cons b rest ih =>
    have hpow : 256 ^ (b :: rest).length = 256 * 256 ^ rest.length := Nat.pow_succ'
    rw [List.cons_append, value, ih, value, hpow, Nat.mul_add, Nat.mul_assoc, Nat.add_assoc]

theorem bytes_value (bs : List UInt8) : bytes bs.length (value bs) = bs := by
  induction bs with
  | nil => rfl
  | cons b rest ih =>
    have low : (b.toNat + 256 * value rest) / 256 = value rest := by
      have := b.toNat_lt
      omega
    have high : UInt8.ofNat (b.toNat + 256 * value rest) = b := by
      apply UInt8.toNat_inj.mp
      have := b.toNat_lt
      simp only [UInt8.toNat_ofNat']
      omega
    simp [bytes, value, low, high, ih]

/-- A word is read from its own four bytes. -/
theorem getElem?_words (bs : List UInt8) (k : Nat) :
    (words bs)[k]? = (words ((bs.drop (4 * k)).take 4)).head? := by
  induction bs using words.induct generalizing k with
  | case1 a b c d rest ih =>
    cases k with
    | zero => simp [words]
    | succ k =>
      have hdrop : (a :: b :: c :: d :: rest).drop (4 * (k + 1)) = rest.drop (4 * k) := rfl
      rw [words, List.getElem?_cons_succ, ih, hdrop]
  | case2 bs hshort =>
    have hlength : bs.length < 4 := by
      match bs, hshort with
      | [], _ | [_], _ | [_, _], _ | [_, _, _], _ => simp
      | a :: b :: c :: d :: rest, hshort => exact absurd rfl (hshort a b c d rest)
    cases k with
    | zero => rw [Nat.mul_zero, List.drop_zero, List.take_of_length_le (by omega),
        List.head?_eq_getElem?]
    | succ k =>
      rw [List.drop_of_length_le (by omega), words.eq_2 bs hshort]
      rfl

end RegisterMachine.LittleEndian
