/-!
Text as UTF-8. `utf8` and `ofUtf8?` undo each other. Bytes that are no UTF-8 can still be read as
text: the longest piece that begins a character without completing it, and any byte that begins
none, becomes one replacement character.
-/

namespace RegisterMachine.Text

/-- The UTF-8 encoding of a text. -/
def utf8 (text : String) : List UInt8 := text.toUTF8.data.toList

/-- The text that these bytes encode, if they are UTF-8. -/
def ofUtf8? (bytes : List UInt8) : Option String := String.fromUTF8? ⟨bytes.toArray⟩

theorem ofUtf8?_utf8 (text : String) : ofUtf8? (utf8 text) = some text := by
  have bytes : (⟨(utf8 text).toArray⟩ : ByteArray) = text.toByteArray := by
    simp [utf8]
  rw [ofUtf8?, bytes, String.fromUTF8?, dif_pos text.isValidUTF8]
  rfl

theorem utf8_of_ofUtf8? {bytes : List UInt8} {text : String} (h : ofUtf8? bytes = some text) :
    utf8 text = bytes := by
  rw [ofUtf8?, String.fromUTF8?] at h
  split at h
  · rw [← Option.some.inj h]
    rfl
  · cases h

/-- A character that has begun. -/
structure OpenChar where
  /-- The bits read so far. -/
  bits : Nat
  /-- How many bytes are still due, at least one. -/
  due : Nat
  /-- The bounds of the next byte. -/
  low : UInt8
  high : UInt8
  deriving DecidableEq, Repr

/-- What stands for bytes that are no character: `U+FFFD`. -/
def replacement : Char := Char.ofNat 0xFFFD

/-- Reads a byte between two characters. The bounds of a second byte leave out surrogates, encodings
longer than needed and what lies beyond the last character. -/
def firstByte (b : UInt8) : List Char × Option OpenChar :=
  if b ≤ 0x7F then ([Char.ofNat b.toNat], none)
  else if 0xC2 ≤ b ∧ b ≤ 0xDF then ([], some ⟨b.toNat - 0xC0, 1, 0x80, 0xBF⟩)
  else if 0xE0 ≤ b ∧ b ≤ 0xEF then
    ([], some ⟨b.toNat - 0xE0, 2, if b = 0xE0 then 0xA0 else 0x80, if b = 0xED then 0x9F else 0xBF⟩)
  else if 0xF0 ≤ b ∧ b ≤ 0xF4 then
    ([], some ⟨b.toNat - 0xF0, 3, if b = 0xF0 then 0x90 else 0x80, if b = 0xF4 then 0x8F else 0xBF⟩)
  else ([replacement], none)

/-- Reads a byte. One that does not continue the open character is read again as a first byte. -/
def readByte : Option OpenChar → UInt8 → List Char × Option OpenChar
  | none, b => firstByte b
  | some c, b =>
    if c.low ≤ b ∧ b ≤ c.high then
      let bits := 64 * c.bits + (b.toNat - 0x80)
      if c.due = 1 then ([Char.ofNat bits], none) else ([], some ⟨bits, c.due - 1, 0x80, 0xBF⟩)
    else
      let (text, opened) := firstByte b
      (replacement :: text, opened)

def readBytes (opened : Option OpenChar) : List UInt8 → List Char
  | [] => if opened.isSome then [replacement] else []
  | b :: rest =>
    let (text, opened) := readByte opened b
    text ++ readBytes opened rest

/-- The text of any bytes. -/
def ofBytes (bytes : List UInt8) : String := String.ofList (readBytes none bytes)

end RegisterMachine.Text
