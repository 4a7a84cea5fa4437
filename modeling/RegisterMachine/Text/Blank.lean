/-!
White space as Unicode defines it: the twenty-five characters with the property `White_Space`.
-/

namespace RegisterMachine.Text

/-- The property `White_Space`, as ranges of code points. -/
def blankRanges : List (Nat × Nat) :=
  [(0x9, 0xD), (0x20, 0x20), (0x85, 0x85), (0xA0, 0xA0), (0x1680, 0x1680), (0x2000, 0x200A),
    (0x2028, 0x2029), (0x202F, 0x202F), (0x205F, 0x205F), (0x3000, 0x3000)]

def isBlank (c : Char) : Bool :=
  blankRanges.any fun (low, high) => low ≤ c.toNat && c.toNat ≤ high

/-- A text without the blanks at its two ends. -/
def trim (text : String) : String :=
  let inner := text.toList.dropWhile isBlank
  String.ofList (inner.reverse.dropWhile isBlank).reverse

end RegisterMachine.Text
