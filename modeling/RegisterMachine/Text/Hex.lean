/-!
Hexadecimal text. `hex` pads with zeros on the left and never cuts a digit off.
-/

namespace RegisterMachine.Text

/-- The hexadecimal digits of `n` in lower case, at least `width` of them. -/
def hex (width n : Nat) : String :=
  let digits := Nat.toDigits 16 n
  String.ofList (List.replicate (width - digits.length) '0' ++ digits)

/-- The hexadecimal digits of `n` in upper case, at least `width` of them. -/
def hexUpper (width n : Nat) : String :=
  (hex width n).map Char.toUpper

/-- Hexadecimal with the mark `0x` in front and at least `width` digits after it. -/
def hexMarked (width n : Nat) : String :=
  "0x" ++ hex width n

theorem toList_hex (width n : Nat) :
    (hex width n).toList =
      List.replicate (width - (Nat.toDigits 16 n).length) '0' ++ Nat.toDigits 16 n := by
  simp [hex]

end RegisterMachine.Text
