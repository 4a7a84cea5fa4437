import RegisterMachine.Memory.Pointer
import RegisterMachine.Text.Hex

/-!
Allocation of main memory. Blocks stand in the order of their addresses. A request takes the first
gap of exactly its size, or else the smallest larger gap, or else the room behind the last block.
-/

namespace RegisterMachine

/-- The addresses from `start` up to, but not including, `stop`. -/
structure Block where
  start : Nat
  stop : Nat
  deriving DecidableEq, Repr

namespace Block

def size (b : Block) : Nat := b.stop - b.start

def Overlaps (a b : Block) : Prop := a.start < b.stop ∧ b.start < a.stop

instance (a b : Block) : Decidable (Overlaps a b) := inferInstanceAs (Decidable (_ ∧ _))

def text (b : Block) : String := Text.hexMarked 0 b.start ++ ".." ++ Text.hexMarked 0 b.stop

end Block

inductive AllocatorError where
  | outOfMemory (requested : Nat)
  /-- The block was never handed out, or is no longer registered. -/
  | unregistered (block : Block)
  | occupied (block : Block)
  /-- The block was registered, but memory ends before it does. -/
  | inaccessible (i : Interrupt)
  deriving DecidableEq, Repr

namespace AllocatorError

def message : AllocatorError → String
  | .outOfMemory requested => s!"out of memory: cannot allocate {requested} bytes"
  | .unregistered block => s!"range {block.text} is not allocated"
  | .occupied block => s!"range {block.text} overlaps an allocated block"
  | .inaccessible i => i.message

end AllocatorError

/-- The region from `origin` up to `limit` and the blocks that are allocated in it. -/
structure Allocator where
  origin : Nat
  limit : Nat
  blocks : List Block
  deriving DecidableEq, Repr

/-- A size rounded up to whole words, at least one, if that is a 32-bit number. -/
def wordAlign (size : Nat) : Option Nat :=
  let padded := max size 1 + 3
  if padded < UInt32.size then some (padded / 4 * 4) else none

namespace Allocator

/-- The better place for a request of `n` bytes: this gap, if it is larger than the request and
smaller than the best gap so far. -/
def better (n : Nat) (gap : Block) (best : Option Block) : Option Block :=
  if n < gap.size ∧ best.all (gap.size < ·.size) then some gap else best

/-- Looks for `n` bytes in front of each of these blocks, with everything below `cursor` seen. A gap
of exactly this size ends the scan; otherwise the best gap takes the request, or the room behind the
blocks. -/
def scan (n limit cursor : Nat) (best : Option Block) : List Block → Except AllocatorError Nat
  | [] =>
    let start := match best with
      | some gap => gap.start
      | none => cursor
    if start + n ≤ limit then .ok start else .error (.outOfMemory n)
  | b :: rest =>
    let gap : Block := ⟨cursor, b.start⟩
    let next := max cursor b.stop
    if cursor < b.start then
      if gap.size = n then .ok cursor
      else scan n limit next (better n gap best) rest
    else scan n limit next best rest

/-- The address that a request for this many bytes gets. -/
def fit (a : Allocator) (size : Nat) : Except AllocatorError Nat :=
  match wordAlign size with
  | none => .error (.outOfMemory size)
  | some aligned => scan aligned a.limit a.origin none a.blocks

/-- Puts a block before the first one that does not start below it. -/
def insertBlock (b : Block) : List Block → List Block
  | [] => [b]
  | c :: rest => if c.start < b.start then c :: insertBlock b rest else b :: c :: rest

def register (a : Allocator) (b : Block) : Allocator :=
  { a with blocks := insertBlock b a.blocks }

/-- The block that a request for this many bytes gets. -/
def request (a : Allocator) (size : Nat) : Except AllocatorError Block :=
  match wordAlign size with
  | none => .error (.outOfMemory size)
  | some aligned => (a.fit size).map fun start => ⟨start, start + aligned⟩

/-- A pointer to a block that is handed out. -/
def pointer (b : Block) : Pointer := ⟨UInt32.ofNat b.start, .void, false⟩

/-- Allocates a block of at least this many bytes. -/
def malloc (a : Allocator) (size : Nat) : Except AllocatorError (Pointer × Allocator) :=
  (a.request size).map fun b => (pointer b, a.register b)

/-- Allocates a block of zeros. The block stays registered when memory is too small for it. -/
def calloc (a : Allocator) (m : Memory) (size : Nat) :
    Except AllocatorError Pointer × Allocator × Memory :=
  match a.request size with
  | .error e => (.error e, a, m)
  | .ok b =>
    match m.fill (UInt32.ofNat b.start) b.size 0 with
    | .error i => (.error (.inaccessible i), a.register b, m)
    | .ok m => (.ok (pointer b), a.register b, m)

/-- Allocates exactly this block. -/
def claim (a : Allocator) (b : Block) : Except AllocatorError Allocator :=
  if b.start < a.origin ∨ a.limit < b.stop ∨ b.stop ≤ b.start then .error (.outOfMemory b.size)
  else if a.blocks.any fun c => c.Overlaps b then .error (.occupied b)
  else .ok (a.register b)

/-- Releases a block that is allocated exactly so. -/
def free (a : Allocator) (b : Block) : Except AllocatorError Allocator :=
  if b ∈ a.blocks then .ok { a with blocks := a.blocks.erase b } else .error (.unregistered b)

/-- Cuts bytes off the end of a block, or releases it if nothing would be left. The second result
is what remains of it. -/
def reduce (a : Allocator) (b : Block) (bytes : Nat) :
    Except AllocatorError (Allocator × Block) :=
  if b ∈ a.blocks then
    if b.size ≤ bytes then .ok ({ a with blocks := a.blocks.erase b }, ⟨b.start, b.start⟩)
    else
      let rest : Block := ⟨b.start, b.stop - bytes⟩
      .ok ({ a with blocks := a.blocks.replace b rest }, rest)
  else .error (.unregistered b)

/-- How many bytes are allocated, added up in 32 bits. -/
def used (a : Allocator) : Nat :=
  (a.blocks.foldl (fun total b => total + UInt32.ofNat b.size) (0 : UInt32)).toNat

end Allocator

end RegisterMachine
