import RegisterMachine.Program.Basic
import RegisterMachine.Text.Utf8

/-!
Program images: the form in which a program is stored. An image is a mark, a version, three words,
the bytes and the labels; bytes and names carry their length in front. `Program.image` writes one
and `Program.ofImage` reads one, to its last byte.
-/

namespace RegisterMachine

inductive ImageError where
  | truncated
  | badMagic
  | unsupportedVersion
  | unaligned
  | invalidName
  | trailingBytes
  deriving DecidableEq, Repr

namespace ImageError

def message (e : ImageError) : String :=
  "decoding error: " ++ match e with
    | .truncated => "truncated"
    | .badMagic => "bad magic"
    | .unsupportedVersion => "unsupported version"
    | .unaligned => "image is not word-aligned"
    | .invalidName => "label is not valid UTF-8"
    | .trailingBytes => "trailing bytes"

end ImageError

namespace Image

/-- The mark at the start of every image: `TVM_BC`. -/
def magic : List UInt8 := [0x54, 0x56, 0x4D, 0x5F, 0x42, 0x43]

/-- The version of the format: 0.1.0. -/
def version : List UInt8 := [0, 1, 0]

/-- A word, least significant byte first. -/
def wordField (word : UInt32) : List UInt8 := LittleEndian.wordBytes word

/-- Bytes with their number in front. -/
def bytesField (bytes : List UInt8) : List UInt8 :=
  wordField (UInt32.ofNat bytes.length) ++ bytes

/-- A name with its number of bytes in front, then its address. -/
def labelField (label : String × UInt32) : List UInt8 :=
  bytesField (Text.utf8 label.1) ++ wordField label.2

/-- The first `count` bytes and the rest. -/
def take (count : Nat) (input : List UInt8) : Except ImageError (List UInt8 × List UInt8) :=
  let front := input.take count
  if front.length < count then .error .truncated else .ok (front, input.drop count)

/-- Takes bytes that can only be these. -/
def expect (bytes : List UInt8) (e : ImageError) (input : List UInt8) :
    Except ImageError (List UInt8) := do
  let (found, rest) ← take bytes.length input
  if found = bytes then .ok rest else .error e

def takeWord (input : List UInt8) : Except ImageError (UInt32 × List UInt8) := do
  let (bytes, rest) ← take 4 input
  .ok (UInt32.ofNat (LittleEndian.value bytes), rest)

def takeBytes (input : List UInt8) : Except ImageError (List UInt8 × List UInt8) := do
  let (count, rest) ← takeWord input
  take count.toNat rest

def takeLabel (input : List UInt8) : Except ImageError ((String × UInt32) × List UInt8) := do
  let (bytes, rest) ← takeBytes input
  match Text.ofUtf8? bytes with
  | none => .error .invalidName
  | some name =>
    let (address, rest) ← takeWord rest
    .ok ((name, address), rest)

def takeLabels : Nat → List UInt8 → Except ImageError (List (String × UInt32) × List UInt8)
  | 0, input => .ok ([], input)
  | count + 1, input => do
    let (label, rest) ← takeLabel input
    let (labels, rest) ← takeLabels count rest
    .ok (label :: labels, rest)

end Image

namespace Program

open Image

/-- The image of a program. -/
def image (p : Program) : List UInt8 :=
  magic ++ version ++ wordField p.origin ++ wordField p.entry ++ wordField (p.stackSize.getD 0)
    ++ bytesField p.bytes ++ wordField (UInt32.ofNat p.labels.size)
    ++ p.labels.entries.flatMap labelField

/-- Reads an image. A stack size of zero stands for none, and of a name that is given more than
once the last address counts. -/
def ofImage (input : List UInt8) : Except ImageError Program := do
  let rest ← expect magic .badMagic input
  let rest ← expect version .unsupportedVersion rest
  let (origin, rest) ← takeWord rest
  let (entry, rest) ← takeWord rest
  let (stackSize, rest) ← takeWord rest
  let (bytes, rest) ← takeBytes rest
  if origin.toNat % 4 ≠ 0 ∨ bytes.length % 4 ≠ 0 then .error .unaligned
  else
    let (count, rest) ← takeWord rest
    let (labels, rest) ← takeLabels count.toNat rest
    if rest.isEmpty then
      .ok ⟨origin, entry, if stackSize = 0 then none else some stackSize, bytes,
        LabelTable.ofList labels⟩
    else .error .trailingBytes

end Program

end RegisterMachine
