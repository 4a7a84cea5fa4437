import RegisterMachine.Machine.Generator
import RegisterMachine.Proofs.Number.LittleEndian

/-! Random bytes.

The draws of a generator, written one behind the other as bytes, are its stream. Eight bytes are two
draws of the stream (`bytes_long`), so bytes that are drawn eight at a time, with an end of up to
seven, are the front of the stream, and what they take of it is whole draws (`bytes_eq`). Drawing
some bytes and then more therefore gives the same as drawing them at once, if the first ones are
whole draws (`bytes_are_stream`). -/
namespace RegisterMachine.Generator

open Function

/-- The words of the next draws. -/
def draws (g : Generator) : Nat → List UInt32
  | 0 => []
  | count + 1 => g.word.1 :: g.word.2.draws count

/-- The bytes of the next draws. -/
def stream (g : Generator) (count : Nat) : List UInt8 :=
  (g.draws count).flatMap LittleEndian.wordBytes

/-! ### The stream -/

theorem word_snd (g : Generator) : g.word.2 = g.next := rfl

theorem draws_add (g : Generator) (first second : Nat) :
    g.draws (first + second) = g.draws first ++ (next^[first] g).draws second := by
  induction first generalizing g with
  | zero => rw [Nat.zero_add, iterate_zero_apply, draws, List.nil_append]
  | succ first ih =>
    rw [Nat.add_right_comm, draws, ih, draws, List.cons_append, word_snd, iterate_succ_apply]

theorem stream_add (g : Generator) (first second : Nat) :
    g.stream (first + second) = g.stream first ++ (next^[first] g).stream second := by
  rw [stream, draws_add, List.flatMap_append, stream, stream]

theorem stream_one (g : Generator) : g.stream 1 = LittleEndian.wordBytes g.word.1 := by
  rw [stream, draws, draws, List.flatMap_singleton]

theorem length_stream (g : Generator) (count : Nat) : (g.stream count).length = 4 * count := by
  induction count generalizing g with
  | zero => rfl
  | succ count ih =>
    rw [Nat.add_comm, stream_add, List.length_append, ih, stream_one,
      LittleEndian.length_wordBytes, Nat.mul_add]

/-! ### Two words at a time -/

theorem toNat_long (g : Generator) :
    g.long.1.toNat = g.word.1.toNat + 2 ^ 32 * g.next.word.1.toNat := by
  have hlow := g.word.1.toNat_lt
  have hhigh := g.next.word.1.toNat_lt
  show (g.next.word.1.toUInt64 <<< 32 ||| g.word.1.toUInt64).toNat = _
  rw [UInt64.toNat_or, UInt64.toNat_shiftLeft, UInt32.toNat_toUInt64, UInt32.toNat_toUInt64]
  show g.next.word.1.toNat <<< 32 % 2 ^ 64 ||| g.word.1.toNat = _
  rw [Nat.shiftLeft_eq, Nat.mod_eq_of_lt (by omega), Nat.mul_comm,
    ← Nat.two_pow_add_eq_or_of_lt hlow, Nat.add_comm]

/-- The eight bytes of two words are those of the first draw and then those of the second. -/
theorem bytes_long (g : Generator) : LittleEndian.bytes 8 g.long.1.toNat = g.stream 2 := by
  have hstream : g.stream 2 =
      LittleEndian.wordBytes g.word.1 ++ LittleEndian.wordBytes g.next.word.1 := by
    rw [stream_add g 1 1, stream_one, stream_one, iterate_one]
  have hvalue : LittleEndian.value (g.stream 2) = g.long.1.toNat := by
    rw [hstream, LittleEndian.value_append, LittleEndian.length_wordBytes,
      LittleEndian.value_wordBytes, LittleEndian.value_wordBytes, toNat_long, Nat.pow_mul 2 8 4]
  have hbytes := LittleEndian.bytes_value (g.stream 2)
  rwa [hvalue, length_stream] at hbytes

/-! ### Any number of bytes -/

/-- Eight bytes are drawn in front of the others. -/
theorem bytes_of_le (g : Generator) {count : Nat} (h : 8 ≤ count) :
    g.bytes count = (g.stream 2 ++ ((next^[2] g).bytes (count - 8)).1,
      ((next^[2] g).bytes (count - 8)).2) := by
  rw [bytes, dif_pos h, ← bytes_long]
  rfl

/-- Fewer bytes are the front of two draws, of one or of none. -/
theorem bytes_of_lt (g : Generator) {count : Nat} (h : count < 8) :
    g.bytes count = ((g.stream ((count + 3) / 4)).take count, next^[(count + 3) / 4] g) := by
  rw [bytes, dif_neg (Nat.not_le.mpr h)]
  by_cases htwo : 4 < count
  · rw [if_pos htwo, show (count + 3) / 4 = 2 by omega, ← bytes_long]
    rfl
  · rw [if_neg htwo]
    by_cases hone : 0 < count
    · rw [if_pos hone, show (count + 3) / 4 = 1 by omega, stream_one]
      rfl
    · obtain rfl : count = 0 := by omega
      rfl

/-- The front of a longer stream. -/
theorem take_stream (g : Generator) {count first : Nat} (hcount : count ≤ 4 * first)
    (more : Nat) : (g.stream (first + more)).take count = (g.stream first).take count := by
  rw [stream_add, List.take_append_of_le_length (by rwa [length_stream])]

/-- Bytes are the front of the stream, and take whole draws of it. -/
theorem bytes_eq (g : Generator) (count : Nat) :
    g.bytes count = ((g.stream ((count + 3) / 4)).take count, next^[(count + 3) / 4] g) := by
  induction count using Nat.strong_induction_on generalizing g with
  | _ count ih =>
    by_cases h : 8 ≤ count
    · -- the front is two whole draws, and the rest begins behind them
      have hdraws : (count + 3) / 4 = 2 + (count - 8 + 3) / 4 := by omega
      have hlength : (g.stream 2).length = 8 := g.length_stream 2
      have hfront : (g.stream 2).take count = g.stream 2 :=
        List.take_of_length_le (hlength.trans_le h)
      have hstate : next^[(count + 3) / 4] g = next^[(count - 8 + 3) / 4] (next^[2] g) := by
        rw [hdraws, Nat.add_comm, iterate_add_apply]
      rw [bytes_of_le g h, ih (count - 8) (by omega), hstate, hdraws, stream_add, List.take_append,
        hlength, hfront]
    · exact bytes_of_lt g (Nat.not_le.mp h)

/-- Whole draws are the stream itself. -/
theorem bytes_four_mul (g : Generator) (count : Nat) :
    g.bytes (4 * count) = (g.stream count, next^[count] g) := by
  rw [bytes_eq, show (4 * count + 3) / 4 = count by omega,
    List.take_of_length_le (Nat.le_of_eq (g.length_stream count))]

/-- **Random bytes are the stream of the draws.** Drawing `count` bytes gives the first `count`
bytes of the stream, however far that is continued, and advances the generator by as many draws as
have a byte among them. So bytes that are whole draws and then more are the same as all of them at
once, and a 64-bit draw is two draws, the low half first. -/
theorem bytes_are_stream (g : Generator) (count : Nat) :
    (g.bytes count).1.length = count ∧
      (∀ more, (g.bytes count).1 = (g.stream ((count + 3) / 4 + more)).take count) ∧
      (g.bytes count).2 = next^[(count + 3) / 4] g ∧
      (∀ whole, let (first, g') := g.bytes (4 * whole)
        let (second, g'') := g'.bytes count
        g.bytes (4 * whole + count) = (first ++ second, g'')) ∧
      g.long.1.toNat = g.word.1.toNat + 2 ^ 32 * g.word.2.word.1.toNat ∧
      g.long.2 = g.word.2.word.2 := by
  have hcount : count ≤ 4 * ((count + 3) / 4) := by omega
  refine ⟨?_, fun more => ?_, ?_, fun whole => ?_, g.toNat_long, rfl⟩
  · rw [bytes_eq, List.length_take, length_stream, Nat.min_eq_left hcount]
  · rw [bytes_eq, take_stream g hcount]
  · rw [bytes_eq]
  · have hdraws : (4 * whole + count + 3) / 4 = whole + (count + 3) / 4 := by omega
    rw [bytes_four_mul]
    dsimp only
    rw [bytes_eq _ count, bytes_eq, hdraws, stream_add, List.take_append, length_stream,
      List.take_of_length_le (by rw [length_stream]; omega), Nat.add_sub_cancel_left,
      ← iterate_add_apply, Nat.add_comm _ whole]

end RegisterMachine.Generator
