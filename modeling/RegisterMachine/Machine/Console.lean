/-!
The console of a machine: what arrives on its input and what its output has taken. The output is
flushed at every line feed.
-/

namespace RegisterMachine

/-- The input or output failed, for this reason. -/
structure StreamError where
  reason : String
  deriving DecidableEq, Repr

namespace StreamError

def message (e : StreamError) : String := s!"stream error: {e.reason}"

end StreamError

/-- What one attempt to read brings. -/
inductive Arrival where
  | byte (b : UInt8)
  /-- Nothing yet; the attempt is repeated. -/
  | interrupted
  deriving DecidableEq, Repr

structure Console where
  /-- What is still to arrive. -/
  input : List Arrival
  /-- Why reading fails behind the last arrival, where it does not just end. -/
  inputFailure : Option String
  /-- The bytes written so far, the last one first. -/
  written : List UInt8
  /-- How many more bytes the output takes before it fails, and why it then fails. -/
  room : Option (Nat × String)
  /-- Why flushing the output fails, if it does. -/
  flushFailure : Option String
  deriving DecidableEq

namespace Console

/-- A console with this input whose output never fails. -/
def ofBytes (input : List UInt8) : Console := ⟨input.map .byte, none, [], none, none⟩

/-- What is left of the input, behind its first byte, and that byte. -/
def nextByte : List Arrival → Option UInt8 × List Arrival
  | [] => (none, [])
  | .byte b :: rest => (some b, rest)
  | .interrupted :: rest => nextByte rest

/-- Reads a byte, or nothing at the end of the input. -/
def read (c : Console) : Except StreamError (Option UInt8) × Console :=
  match nextByte c.input with
  | (some b, rest) => (.ok (some b), { c with input := rest })
  | (none, rest) =>
    (match c.inputFailure with
      | some reason => .error ⟨reason⟩
      | none => .ok none, { c with input := rest })

def flush (c : Console) : Except StreamError Unit :=
  match c.flushFailure with
  | some reason => .error ⟨reason⟩
  | none => .ok ()

/-- The bytes written so far. -/
def output (c : Console) : List UInt8 := c.written.reverse

/-- Writes a byte and, behind a line feed, flushes the output. -/
def write (c : Console) (b : UInt8) : Except StreamError Unit × Console :=
  let flushed := if b = 10 then c.flush else .ok ()
  match c.room with
  | none => (flushed, { c with written := b :: c.written })
  | some (0, reason) => (.error ⟨reason⟩, c)
  | some (n + 1, reason) =>
    (flushed, { c with written := b :: c.written, room := some (n, reason) })

end Console

end RegisterMachine
