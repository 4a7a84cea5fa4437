import RegisterMachine.Instruction.Word
import RegisterMachine.Machine.Arithmetic
import RegisterMachine.Machine.Basic
import RegisterMachine.Report.Event

/-!
Execution of one instruction in two halves. `Machine.plan` checks everything and changes nothing: it
finds the one effect of the instruction, or the interrupt or failure it ends in. `Machine.perform`
carries the effect out. Most instructions only change the active context.
-/

namespace RegisterMachine

/-- Why an instruction is not carried out. -/
inductive Stop where
  | interrupt (i : Interrupt)
  | failure (f : Failure)
  deriving DecidableEq, Repr

/-- What an instruction draws from the generator. -/
inductive Draw where
  | word
  | float
  deriving DecidableEq, Repr

inductive Effect where
  /-- The active context becomes this one. -/
  | context (c : Context)
  | halt
  /-- Bytes are written to the memory that the device number means. -/
  | write (device : UInt32) (start : Nat) (bytes : List UInt8)
  /-- A block is allocated, and cleared if asked for, and its address assigned. -/
  | allocate (rd : Reg) (size : UInt32) (cleared : Bool)
  | release (block : Block)
  | switch (id : Nat)
  | yield
  | draw (rd : Reg) (kind : Draw)
  | readByte (rd : Reg)
  | writeByte (b : UInt8)
  | callDevice (slot argument : UInt32)
  /-- An `INT` on a vector that has no interrupt. -/
  | ignore (vector : UInt32)
  deriving DecidableEq

namespace Machine

/-! ### Planning -/

/-- An effect on the active context, unless an interrupt comes in between. -/
def onContext (c : Except Interrupt Context) : Except Stop Effect :=
  (c.map Effect.context).mapError .interrupt

/-- Loads `width` bytes into a register. -/
def planLoad (m : Machine) (rd : Reg) (device address : UInt32) (width : Nat) :
    Except Stop Effect := do
  let space ← (m.space device).mapError .failure
  let value ← (space.load address width).mapError .interrupt
  .ok (.context (m.context.assign rd value))

/-- Stores the low `width` bytes of a value. -/
def planStore (m : Machine) (device address : UInt32) (width : Nat) (value : UInt32) :
    Except Stop Effect := do
  let space ← (m.space device).mapError .failure
  let start ← (space.span address width).mapError .interrupt
  .ok (.write device start (LittleEndian.bytes width value.toNat))

/-- Copies bytes: the source is checked before the destination. -/
def planCopy (m : Machine) (toDevice fromDevice count source target : UInt32) :
    Except Stop Effect := do
  let space ← (m.space fromDevice).mapError .failure
  let bytes ← (space.read source count.toNat).mapError .interrupt
  let space ← (m.space toDevice).mapError .failure
  let start ← (space.span target count.toNat).mapError .interrupt
  .ok (.write toDevice start bytes)

/-- Allocates a block, or is out of memory. -/
def planAllocation (m : Machine) (rd : Reg) (size : UInt32) (cleared : Bool) :
    Except Stop Effect :=
  match m.allocator.request size.toNat with
  | .ok _ => .ok (.allocate rd size cleared)
  | .error _ => .error (.interrupt .outOfMemory)

/-- Releases the block that an allocation of `size` bytes returned. -/
def planRelease (m : Machine) (address size : UInt32) : Except Stop Effect :=
  match wordAlign size.toNat with
  | none => .error (.interrupt .segmentationFault)
  | some aligned =>
    let block : Block := ⟨address.toNat, address.toNat + aligned⟩
    if block ∈ m.allocator.blocks then .ok (.release block)
    else .error (.interrupt .segmentationFault)

/-- Raises the interrupt of a vector. -/
def planInterrupt (vector : UInt32) : Except Stop Effect :=
  if vectorCount ≤ vector.toNat then .error (.interrupt .illegalOpcode)
  else
    match Interrupt.ofIndex? vector.toNat with
    | some i => .error (.interrupt i)
    | none => .ok (.ignore vector)

/-- The size of a device's memory; device 0 is main memory and the last one tells the time. -/
def planSize (m : Machine) (rd : Reg) (device : UInt32) : Except Stop Effect :=
  if device = DeviceTable.biosSlot then .ok (.context (m.context.assign rd m.clock))
  else do
    let space ← (m.space device).mapError .failure
    .ok (.context (m.context.assign rd (UInt32.ofNat space.size)))

/-- The effect of an instruction whose condition holds. The program counter is already behind it. -/
def plan (m : Machine) (d : Decoded) : Except Stop Effect :=
  let c := m.context
  let rd := d.reg 0
  let held : UInt32 := c.registers.get rd
  let offset : UInt32 := d.imm <<< 2
  let x0 := c.read (d.operand 0)
  let x1 := c.read (d.operand 1)
  let x2 := c.read (d.operand 2)
  let assign (value : UInt32) : Except Stop Effect := .ok (.context (c.assign rd value))
  let compare (flag : Except Interrupt Int) : Except Stop Effect :=
    onContext (flag.map fun flag => { c with flag })
  let jumpIf (taken : Bool) : Except Stop Effect :=
    .ok (.context (if taken then c.jump offset else c))
  match d.instruction with
  | .halt => .ok .halt
  | .cmp => compare (.ok (Arithmetic.compareInt x0.toInt32 x1.toInt32))
  | .cmpIf => compare (Arithmetic.compareFloat (Arithmetic.ofInteger x0) (Arithmetic.ofFloat x1))
  | .cmpFi => compare (Arithmetic.compareFloat (Arithmetic.ofFloat x0) (Arithmetic.ofInteger x1))
  | .cmpFf => compare (Arithmetic.compareFloat (Arithmetic.ofFloat x0) (Arithmetic.ofFloat x1))
  | .rndi => .ok (.draw rd .word)
  | .rnd => .ok (.draw rd .float)
  | .xchg =>
    let other := d.reg 1
    .ok (.context ((c.assign rd c.registers[other]).assign other held))
  | .inc => assign (held + 1)
  | .dec => assign (held - 1)
  | .malloc => m.planAllocation rd x1 false
  | .calloc => m.planAllocation rd x1 true
  | .free => m.planRelease x0 x1
  | .ctxsw =>
    if x0.toNat < ContextTable.limit then .ok (.switch x0.toNat)
    else .error (.interrupt .illegalOpcode)
  | .yield => .ok .yield
  | .getchar => .ok (.readByte rd)
  | .putchar => .ok (.writeByte x0.toUInt8)
  | .jsr => onContext (c.call x0)
  | .ret => onContext (c.pop.map fun (lr, c) => { c with lr, pc := lr })
  | .loadByte => m.planLoad rd x2 x1 1
  | .storeByte => m.planStore x2 x1 1 x0
  | .loadHword => m.planLoad rd x2 x1 2
  | .storeHword => m.planStore x2 x1 2 x0
  | .loadWord => m.planLoad rd x2 x1 4
  | .storeWord => m.planStore x2 x1 4 x0
  | .memcpy => m.planCopy x0 x1 x2 (c.registers.get (d.reg 3)) (c.registers.get (d.reg 4))
  | .loadByteI | .loadHwordI => assign d.imm
  | .storeByteI => m.planStore DeviceTable.mainMemory held 1 d.imm
  | .storeHwordI => m.planStore DeviceTable.mainMemory held 2 d.imm
  | .loadWordILo => assign (held &&& 0xFFFF0000 ||| d.imm)
  | .loadWordIHi => assign (held &&& 0x0000FFFF ||| Selector.field 16 d.imm)
  | .loadWordIMem => m.planLoad rd DeviceTable.mainMemory offset 4
  | .storeWordIMem => m.planStore DeviceTable.mainMemory offset 4 held
  | .push => onContext (c.push held)
  | .pop => onContext (c.pop.map fun (word, c) => c.assign rd word)
  | .pushWordI => onContext (c.push offset)
  | .popWordI => onContext (c.pop.map fun (lr, c) => { c with lr })
  | .jmp => jumpIf true
  | .jz => jumpIf (Condition.zero.holds c.flag)
  | .jnz => jumpIf (Condition.nonZero.holds c.flag)
  | .jgt => jumpIf (Condition.greater.holds c.flag)
  | .jls => jumpIf (Condition.less.holds c.flag)
  | .jfw => .ok (.context (c.jump (c.pc + offset)))
  | .jbw => .ok (.context (c.jump (c.pc - offset)))
  | .jsrI => onContext (c.call offset)
  | .uptime => assign m.clock
  | .call =>
    match m.devices.device? d.imm with
    | some _ => .ok (.callDevice d.imm held)
    | none => .error (.failure (.unattached d.imm))
  | .memSize => m.planSize rd d.imm
  | .int => planInterrupt d.imm
  | i =>
    match Arithmetic.result i x1 x2 with
    | some value => onContext (value.map fun value => c.assign rd value)
    | none => .ok (.context c)

end Machine

/-- A machine after an effect, why the effect stopped short, if it did, and what there is to
report. -/
structure Progress where
  machine : Machine
  stop : Option Stop
  events : List Event

namespace Machine

/-! ### Performing -/

def done (m : Machine) : Progress := ⟨m, none, []⟩

/-- Assigns a register of the active context. -/
def assign (m : Machine) (rd : Reg) (value : UInt32) : Machine :=
  m.modifyContext fun c => c.assign rd value

/-- Allocates a block and assigns its address. -/
def allocate (m : Machine) (rd : Reg) (size : UInt32) : Progress :=
  match m.allocator.malloc size.toNat with
  | .ok (p, allocator) => { m with allocator }.assign rd p.address |>.done
  | .error _ => ⟨m, some (.interrupt .outOfMemory), []⟩

/-- Allocates a block of zeros and assigns its address. -/
def allocateCleared (m : Machine) (rd : Reg) (size : UInt32) : Progress :=
  let (answer, allocator, memory) := m.allocator.calloc m.memory size.toNat
  let m := { m with allocator, memory }
  match answer with
  | .ok p => m.assign rd p.address |>.done
  | .error _ => ⟨m, some (.interrupt .outOfMemory), []⟩

/-- Writes bytes to the memory that the device number means. -/
def overwrite (m : Machine) (device : UInt32) (start : Nat) (bytes : List UInt8) : Machine :=
  if device = DeviceTable.mainMemory then { m with memory := m.memory.overwrite start bytes }
  else
    match m.devices.device? device with
    | some d =>
      { m with devices := m.devices.setMemory device (d.memory.overwrite start bytes) }
    | none => m

/-- Reads a byte into a register; the end of the input reads as minus one. -/
def readByte (m : Machine) (rd : Reg) : Progress :=
  match m.console.read with
  | (.ok b, console) =>
    let value := match b with
      | some b => b.toUInt32
      | none => 0xFFFFFFFF
    { m with console }.assign rd value |>.done
  | (.error e, console) => ⟨{ m with console }, some (.failure (.stream e)), []⟩

def writeByte (m : Machine) (b : UInt8) : Progress :=
  match m.console.write b with
  | (.ok (), console) => { m with console }.done
  | (.error e, console) => ⟨{ m with console }, some (.failure (.stream e)), []⟩

/-- Calls a device. A fault it reports is raised in the program, any other error is fatal. -/
def callDevice (m : Machine) (slot argument : UInt32) : Progress :=
  let (devices, answer) := m.devices.invoke slot argument
  let m := { m with devices }
  match answer with
  | .ok () => m.done
  | .error (.fault i) => ⟨m, some (.interrupt i), []⟩
  | .error e => ⟨m, some (.failure (.device slot e)), []⟩

/-- Makes a context the active one; a new one is reported. -/
def switchContext (m : Machine) (id : Nat) : Except InvalidContext (Machine × List Event) :=
  (m.contexts.switch id).map fun (created, contexts) =>
    ({ m with contexts }, if created then [.contextCreated id] else [])

def perform (m : Machine) : Effect → Progress
  | .context c => (m.modifyContext fun _ => c).done
  | .halt => { m with halted := true }.done
  | .write device start bytes => (m.overwrite device start bytes).done
  | .allocate rd size cleared =>
    if cleared then m.allocateCleared rd size else m.allocate rd size
  | .release block =>
    match m.allocator.free block with
    | .ok allocator => { m with allocator }.done
    | .error _ => ⟨m, some (.interrupt .segmentationFault), []⟩
  | .switch id =>
    match m.switchContext id with
    | .ok (m, events) => ⟨m, none, events⟩
    | .error _ => ⟨m, some (.interrupt .illegalOpcode), []⟩
  | .yield =>
    ⟨{ m with control := m.control.yield }, none,
      if m.control.yieldSuspends then [.yielded m.contexts.activeId] else []⟩
  | .draw rd .word =>
    let (value, generator) := m.generator.word
    { m with generator }.assign rd value |>.done
  | .draw rd .float =>
    let (value, generator) := m.generator.float
    { m with generator }.assign rd value |>.done
  | .readByte rd => m.readByte rd
  | .writeByte b => m.writeByte b
  | .callDevice slot argument => m.callDevice slot argument
  | .ignore vector => ⟨m, none, [.ignored vector]⟩

end Machine

end RegisterMachine
