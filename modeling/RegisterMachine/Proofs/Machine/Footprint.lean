import RegisterMachine.Proofs.Machine.DeviceTable
import RegisterMachine.Proofs.Machine.Planning
import RegisterMachine.Proofs.Memory.Contents

/-! What a step writes.

Main memory and the memory of each device are spaces of bytes. Only the stores, `MEMCPY` and
`CALLOC` write to any of them, and each of these to one range of one space (`Footprint`): a store
to the bytes that it was given an address and a width for, in the space that its device operand
names, a copy to its destination, and `CALLOC` to the block that it returns. All other bytes stay
as they are, and so do the sizes of all spaces (`step_footprint`).

A device that is called may do what it likes with its own memory, so the calls that are spoken of
are calls of plain memory. -/
namespace RegisterMachine

/-! ### Spaces -/

/-- Main memory, or the memory of the device in a slot. -/
inductive Space where
  | main
  | slot (number : UInt32)
  deriving DecidableEq

/-- The space that a device number names in a load, a store or a copy. -/
def Space.named (device : UInt32) : Space :=
  if device = DeviceTable.mainMemory then .main else .slot device

/-- What there is in each space. -/
abbrev Spaces := Space → Option Memory

namespace Spaces

def byte? (spaces : Spaces) (space : Space) (i : Nat) : Option UInt8 :=
  (spaces space).bind fun memory => memory.cells[i]?

/-- Of all bytes of all spaces those from `start` on have become these bytes, and nothing else has
changed. -/
structure Rewritten (before after : Spaces) (space : Space) (start : Nat) (bytes : List UInt8) :
    Prop where
  inside : ∃ memory, before space = some memory ∧ start + bytes.length ≤ memory.size
  written : ∀ k, k < bytes.length → after.byte? space (start + k) = bytes[k]?
  kept : ∀ other i, other ≠ space ∨ i < start ∨ start + bytes.length ≤ i →
    after.byte? other i = before.byte? other i
  sizes : ∀ other, (after other).map Memory.size = (before other).map Memory.size

/-- The space that the device number names has this many bytes from the address on. -/
def Reaches (spaces : Spaces) (device address : UInt32) (count : Nat) : Prop :=
  address.toNat < 0x80000000 ∧
    ∃ memory, spaces (.named device) = some memory ∧ address.toNat + count ≤ memory.size

/-- The low bytes of a value have been stored, if the addresses are there. -/
def Stored (before after : Spaces) (device address : UInt32) (width : Nat) (value : UInt32) :
    Prop :=
  (before.Reaches device address width → before.Rewritten after (.named device) address.toNat
    (LittleEndian.bytes width value.toNat)) ∧
  (¬before.Reaches device address width → after = before)

/-- Bytes have been copied, as they were before, if the addresses of both ranges are there. -/
def Copied (before after : Spaces) (toDevice fromDevice count source target : UInt32) : Prop :=
  (before.Reaches fromDevice source count.toNat ∧ before.Reaches toDevice target count.toNat →
    ∃ memory, before (.named fromDevice) = some memory ∧
      before.Rewritten after (.named toDevice) target.toNat
        (memory.slice source.toNat count.toNat)) ∧
  (¬(before.Reaches fromDevice source count.toNat ∧ before.Reaches toDevice target count.toNat) →
    after = before)

variable {before after : Spaces} {space : Space} {memory : Memory} {start : Nat}
  {bytes : List UInt8} {device address value count source target toDevice fromDevice : UInt32}
  {width : Nat}

theorem rewritten_of_overwrite (hspace : before space = some memory)
    (hend : start + bytes.length ≤ memory.size)
    (hafter : ∀ other, after other =
      if other = space then some (memory.overwrite start bytes) else before other) :
    Rewritten before after space start bytes where
  inside := ⟨memory, hspace, hend⟩
  written k hk := by
    have hcell := Memory.getElem?_putBytes memory.cells start bytes (start + k) hend
    rw [if_pos (by omega), Nat.add_sub_cancel_left] at hcell
    rw [byte?, hafter, if_pos rfl]
    exact hcell
  kept other i hi := by
    rw [byte?, byte?, hafter]
    split
    · rename_i hsame
      rw [hsame, hspace]
      exact Memory.getElem?_overwrite hend (hi.resolve_left (fun hne => hne hsame))
    · rfl
  sizes other := by
    rw [hafter]
    split
    · rename_i hsame
      rw [hsame, hspace, Option.map_some, Option.map_some, Memory.size_overwrite]
    · rfl

theorem sizes_of_stored (h : before.Stored after device address width value) (space : Space) :
    (after space).map Memory.size = (before space).map Memory.size := by
  by_cases hreaches : before.Reaches device address width
  · exact (h.1 hreaches).sizes space
  · rw [h.2 hreaches]

theorem sizes_of_copied (h : before.Copied after toDevice fromDevice count source target)
    (space : Space) : (after space).map Memory.size = (before space).map Memory.size := by
  by_cases hreaches :
      before.Reaches fromDevice source count.toNat ∧ before.Reaches toDevice target count.toNat
  · obtain ⟨memory, -, hrewritten⟩ := h.1 hreaches
    exact hrewritten.sizes space
  · rw [h.2 hreaches]

end Spaces

namespace Machine

/-- The spaces of a machine. -/
def spaces (m : Machine) : Spaces
  | .main => some m.memory
  | .slot number => m.devices.memory? number

variable {m m' n n' : Machine} {d : Decoded} {e : Effect} {device address value : UInt32}
  {count source target toDevice fromDevice : UInt32} {width : Nat} {memory : Memory}

theorem spaces_of_same (hmemory : m'.memory = m.memory) (hdevices : m'.devices = m.devices) :
    m'.spaces = m.spaces := by
  funext space
  cases space with
  | main => exact congrArg some hmemory
  | slot number => exact congrArg (·.memory? number) hdevices

theorem spaces_named_iff :
    m.spaces (.named device) = some memory ↔ m.space device = .ok memory := by
  rw [Space.named, space]
  split
  · exact ⟨fun h => congrArg _ (Option.some.inj h), fun h => congrArg _ (Except.ok.inj h)⟩
  · show (m.devices.device? device).map Device.memory = _ ↔ _
    cases m.devices.device? device with
    | none => exact ⟨nofun, nofun⟩
    | some attached =>
      exact ⟨fun h => congrArg _ (Option.some.inj h), fun h => congrArg _ (Except.ok.inj h)⟩

theorem spaces_overwrite (hspace : m.spaces (.named device) = some memory) (start : Nat)
    (bytes : List UInt8) (other : Space) : (m.overwrite device start bytes).spaces other =
      if other = .named device then some (memory.overwrite start bytes) else m.spaces other := by
  rw [Space.named] at hspace ⊢
  rw [overwrite]
  by_cases hmain : device = DeviceTable.mainMemory
  · simp only [if_pos hmain] at hspace ⊢
    obtain rfl : m.memory = memory := Option.some.inj hspace
    cases other <;> rfl
  · simp only [if_neg hmain] at hspace ⊢
    obtain ⟨attached, hdevice, rfl⟩ := Option.map_eq_some_iff.mp hspace
    rw [hdevice]
    cases other with
    | main => rfl
    | slot number =>
      show (m.devices.setMemory device _).memory? number = _
      rw [DeviceTable.memory?_setMemory]
      simp only [Space.slot.injEq, DeviceTable.memory?, hdevice]
      rfl

theorem rewritten_overwrite {bytes : List UInt8}
    (h : m.spaces.Reaches device address bytes.length) :
    m.spaces.Rewritten (m.overwrite device address.toNat bytes).spaces (.named device)
      address.toNat bytes := by
  obtain ⟨-, memory, hspace, hend⟩ := h
  exact Spaces.rewritten_of_overwrite hspace hend (spaces_overwrite hspace _ _)

/-! ### What each instruction writes -/

/-- A block of zeros has been allocated and its address assigned, if there is room. -/
def Cleared (m m' : Machine) (rd : Reg) (size : UInt32) : Prop :=
  match m.allocator.request size.toNat with
  | .ok block => (m'.context.registers.get rd).toNat = block.start ∧
    m'.allocator = m.allocator.register block ∧
    m.spaces.Rewritten m'.spaces .main block.start (List.replicate block.size 0)
  | .error _ => m'.spaces = m.spaces

/-- All that an instruction writes. Its operands are those of the machine `m`. -/
def Footprint (m m' : Machine) (d : Decoded) : Prop :=
  let c := m.context
  let held : UInt32 := c.registers.get (d.reg 0)
  let x0 := c.read (d.operand 0)
  let x1 := c.read (d.operand 1)
  let x2 := c.read (d.operand 2)
  match d.instruction with
  | .storeByte => m.spaces.Stored m'.spaces x2 x1 1 x0
  | .storeHword => m.spaces.Stored m'.spaces x2 x1 2 x0
  | .storeWord => m.spaces.Stored m'.spaces x2 x1 4 x0
  | .storeByteI => m.spaces.Stored m'.spaces DeviceTable.mainMemory held 1 d.imm
  | .storeHwordI => m.spaces.Stored m'.spaces DeviceTable.mainMemory held 2 d.imm
  | .storeWordIMem => m.spaces.Stored m'.spaces DeviceTable.mainMemory (d.imm <<< 2) 4 held
  | .memcpy =>
    m.spaces.Copied m'.spaces x0 x1 x2 (c.registers.get (d.reg 3)) (c.registers.get (d.reg 4))
  | .calloc => m.Cleared m' (d.reg 0) x1
  | _ => m'.spaces = m.spaces

theorem sizes_of_footprint (h : m.Footprint m' d) (space : Space) :
    (m'.spaces space).map Memory.size = (m.spaces space).map Memory.size := by
  unfold Footprint at h
  dsimp only at h
  split at h
  case h_7 => exact Spaces.sizes_of_copied h space
  case h_8 =>
    unfold Cleared at h
    split at h
    · exact h.2.2.sizes space
    · rw [h]
  case h_9 => rw [h]
  all_goals exact Spaces.sizes_of_stored h space

theorem attempt_of_not_ok {plan : Except Stop Effect} (h : ∀ e, plan ≠ .ok e) :
    (m.attempt plan).machine = m := by
  cases plan with
  | ok e => exact absurd rfl (h e)
  | error stop => rfl

theorem planStore_ok_iff : m.planStore device address width value = .ok e ↔
    m.spaces.Reaches device address width ∧
      e = .write device address.toNat (LittleEndian.bytes width value.toNat) := by
  constructor
  · intro hok
    obtain ⟨memory, hspace, hok⟩ := bind_ok_iff.mp hok
    obtain ⟨start, hspan, hok⟩ := bind_ok_iff.mp hok
    rw [mapError_ok_iff, ← spaces_named_iff] at hspace
    rw [mapError_ok_iff, Memory.span_eq_ok_iff] at hspan
    obtain ⟨rfl, htop, hend⟩ := hspan
    exact ⟨⟨htop, memory, hspace, hend⟩, (Except.ok.inj hok).symm⟩
  · rintro ⟨⟨htop, memory, hspace, hend⟩, rfl⟩
    refine bind_ok_iff.mpr ⟨memory, mapError_ok_iff.mpr (spaces_named_iff.mp hspace), ?_⟩
    refine bind_ok_iff.mpr ⟨address.toNat, mapError_ok_iff.mpr ?_, rfl⟩
    exact Memory.span_eq_ok_iff.mpr ⟨rfl, htop, hend⟩

theorem stored_attempt (m : Machine) (device address : UInt32) (width : Nat) (value : UInt32) :
    m.spaces.Stored (m.attempt (m.planStore device address width value)).machine.spaces
      device address width value := by
  constructor
  · intro hreaches
    rw [planStore_ok_iff.mpr ⟨hreaches, rfl⟩]
    apply rewritten_overwrite
    rwa [LittleEndian.length_bytes]
  · intro hnot
    rw [attempt_of_not_ok fun e hok => hnot (planStore_ok_iff.mp hok).1]

theorem planCopy_ok_iff : m.planCopy toDevice fromDevice count source target = .ok e ↔
    (m.spaces.Reaches fromDevice source count.toNat ∧
      m.spaces.Reaches toDevice target count.toNat) ∧
    ∃ memory, m.spaces (.named fromDevice) = some memory ∧
      e = .write toDevice target.toNat (memory.slice source.toNat count.toNat) := by
  constructor
  · intro hok
    obtain ⟨memory, hfrom, hok⟩ := bind_ok_iff.mp hok
    obtain ⟨bytes, hread, hok⟩ := bind_ok_iff.mp hok
    obtain ⟨memory', hto, hok⟩ := bind_ok_iff.mp hok
    obtain ⟨start, hspan, hok⟩ := bind_ok_iff.mp hok
    rw [mapError_ok_iff, ← spaces_named_iff] at hfrom hto
    rw [mapError_ok_iff] at hread
    obtain ⟨start', hspan', rfl⟩ := map_ok_iff.mp hread
    rw [mapError_ok_iff, Memory.span_eq_ok_iff] at hspan
    obtain ⟨rfl, htop, hend⟩ := hspan
    obtain ⟨rfl, htop', hend'⟩ := Memory.span_eq_ok_iff.mp hspan'
    exact ⟨⟨⟨htop', memory, hfrom, hend'⟩, htop, memory', hto, hend⟩, memory, hfrom,
      (Except.ok.inj hok).symm⟩
  · rintro ⟨⟨⟨htop', _, hfrom', hend'⟩, htop, memory', hto, hend⟩, memory, hfrom, rfl⟩
    obtain rfl := Option.some.inj (hfrom'.symm.trans hfrom)
    refine bind_ok_iff.mpr ⟨_, mapError_ok_iff.mpr (spaces_named_iff.mp hfrom), ?_⟩
    refine bind_ok_iff.mpr ⟨_, mapError_ok_iff.mpr (map_ok_iff.mpr ⟨source.toNat, ?_, rfl⟩), ?_⟩
    · exact Memory.span_eq_ok_iff.mpr ⟨rfl, htop', hend'⟩
    refine bind_ok_iff.mpr ⟨memory', mapError_ok_iff.mpr (spaces_named_iff.mp hto), ?_⟩
    refine bind_ok_iff.mpr ⟨target.toNat, mapError_ok_iff.mpr ?_, rfl⟩
    exact Memory.span_eq_ok_iff.mpr ⟨rfl, htop, hend⟩

theorem copied_attempt (m : Machine) (toDevice fromDevice count source target : UInt32) :
    m.spaces.Copied (m.attempt (m.planCopy toDevice fromDevice count source target)).machine.spaces
      toDevice fromDevice count source target := by
  constructor
  · intro hreaches
    obtain ⟨-, memory, hfrom, hend⟩ := hreaches.1
    rw [planCopy_ok_iff.mpr ⟨hreaches, memory, hfrom, rfl⟩]
    refine ⟨memory, hfrom, rewritten_overwrite ?_⟩
    rw [Memory.length_slice hend]
    exact hreaches.2
  · intro hnot
    rw [attempt_of_not_ok fun e hok => hnot (planCopy_ok_iff.mp hok).1]

theorem cleared_attempt (h : m.Sound) (rd : Reg) (size : UInt32) :
    m.Cleared (m.attempt (m.planAllocation rd size true)).machine rd size := by
  unfold Cleared planAllocation
  cases hrequest : m.allocator.request size.toNat with
  | error e => rfl
  | ok block =>
    obtain ⟨hstart, hend, hcalloc⟩ := h.calloc_of_request hrequest
    have hmachine : (m.attempt (.ok (.allocate rd size true))).machine =
        { m with
          allocator := m.allocator.register block
          memory := m.memory.overwrite block.start (List.replicate block.size 0) }.assign rd
            (Allocator.pointer block).address := by
      show (m.allocateCleared rd size).machine = _
      rw [allocateCleared, hcalloc]
      rfl
    dsimp only
    rw [hmachine]
    refine ⟨?_, rfl, ?_⟩
    · have hassigned (c : Context) (word : UInt32) : (c.assign rd word).registers.get rd = word :=
        Vector.getElem_set_self _
      rw [assign, context_modifyContext, hassigned]
      exact hstart
    · have hmain : m.spaces .main = some m.memory := rfl
      refine Spaces.rewritten_of_overwrite hmain (by simpa using hend) ?_
      rintro (_ | number) <;> rfl

/-- What an effect makes of main memory and of the devices: only writing, clearing and calling
change them. -/
theorem memories_perform (m : Machine) (e : Effect) :
    ((m.perform e).machine.memory, (m.perform e).machine.devices) =
      match e with
      | .write device start bytes =>
        ((m.overwrite device start bytes).memory, (m.overwrite device start bytes).devices)
      | .allocate _ size true => ((m.allocator.calloc m.memory size.toNat).2.2, m.devices)
      | .callDevice slot argument => (m.memory, (m.devices.invoke slot argument).1)
      | _ => (m.memory, m.devices) := by
  cases e with
  | context | halt | yield | ignore | write => rfl
  | allocate rd size cleared =>
    cases cleared with
    | true =>
      show ((m.allocateCleared rd size).machine.memory,
        (m.allocateCleared rd size).machine.devices) = _
      rw [allocateCleared]
      dsimp only
      cases (m.allocator.calloc m.memory size.toNat).1 <;> rfl
    | false =>
      show ((m.allocate rd size).machine.memory, (m.allocate rd size).machine.devices) = _
      rw [allocate]
      cases m.allocator.malloc size.toNat <;> rfl
  | release block =>
    simp only [perform]
    cases m.allocator.free block <;> rfl
  | switch id =>
    simp only [perform]
    split
    · rename_i m' events hok
      obtain ⟨contexts, rfl⟩ := switchContext_ok hok
      rfl
    · rfl
  | draw rd kind => cases kind <;> rfl
  | readByte rd =>
    simp only [perform, readByte]
    split <;> rfl
  | writeByte b =>
    simp only [perform, writeByte]
    split <;> rfl
  | callDevice slot argument =>
    simp only [perform, callDevice]
    split <;> rfl

/-- What is not planned by one of the writing instructions writes nothing. -/
theorem spaces_perform (hfrom : e.From m.context d) (hstore : d.instruction.isStore = false)
    (hcopy : d.instruction ≠ .memcpy) (hclear : d.instruction ≠ .calloc)
    (hplain : ∀ device, d.instruction = .call → m.devices.device? d.imm = some device →
      device.isPlain = true) : (m.perform e).machine.spaces = m.spaces := by
  obtain ⟨hmemory, hdevices⟩ := Prod.mk.inj (m.memories_perform e)
  cases e with
  | write device start bytes =>
    rcases hfrom with h | h
    · exact absurd h (by simp [hstore])
    · exact absurd h hcopy
  | allocate rd size cleared =>
    cases cleared with
    | true => exact absurd hfrom hclear
    | false => exact spaces_of_same hmemory hdevices
  | callDevice slot argument =>
    obtain ⟨hcall, rfl⟩ := hfrom
    funext space
    cases space with
    | main => exact congrArg some hmemory
    | slot number =>
      exact (congrArg (·.memory? number) hdevices).trans
        (DeviceTable.memory?_invoke (fun device => hplain device hcall) argument number)
  | _ => exact spaces_of_same hmemory hdevices

/-- An instruction writes what its footprint says. -/
theorem footprint_attempt (h : m.Sound) (d : Decoded)
    (hplain : ∀ device, d.instruction = .call → m.devices.device? d.imm = some device →
      device.isPlain = true) : m.Footprint (m.attempt (m.plan d)).machine d := by
  unfold Footprint
  dsimp only
  split
  case h_7 hi =>
    simp only [plan, hi]
    exact m.copied_attempt _ _ _ _ _
  case h_8 hi =>
    simp only [plan, hi]
    exact cleared_attempt h _ _
  case h_9 h1 h2 h3 h4 h5 h6 hcopy hclear =>
    cases hplan : m.plan d with
    | error stop => rfl
    | ok e =>
      have hstore : d.instruction.isStore = false := by
        unfold Instruction.isStore
        split
        all_goals first | rfl | contradiction
      exact spaces_perform (m.plan_from d e hplan) hstore hcopy hclear hplain
  all_goals
    rename_i hi
    simp only [plan, hi]
    exact m.stored_attempt _ _ _ _

/-! ### What a step writes -/

/-- The machines have the same registers, memories and allocator. -/
structure Agrees (m m' : Machine) : Prop where
  registers : m'.context.registers = m.context.registers
  memory : m'.memory = m.memory
  devices : m'.devices = m.devices
  allocator : m'.allocator = m.allocator

theorem Agrees.refl (m : Machine) : m.Agrees m := ⟨rfl, rfl, rfl, rfl⟩

theorem Agrees.trans {m'' : Machine} (h : m.Agrees m') (h' : m'.Agrees m'') : m.Agrees m'' :=
  ⟨h'.registers.trans h.registers, h'.memory.trans h.memory, h'.devices.trans h.devices,
    h'.allocator.trans h.allocator⟩

theorem Agrees.spaces (h : m.Agrees m') : m'.spaces = m.spaces :=
  spaces_of_same h.memory h.devices

theorem read_of_agrees (h : m.Agrees m') (o : Operand) : m'.context.read o = m.context.read o := by
  cases o with
  | register r => exact congrArg (·.get r) h.registers
  | zero => rfl

/-- What an instruction writes depends on registers, memories and allocators only. -/
theorem footprint_of_agrees (h : m.Agrees n) (h' : n'.Agrees m') (hn : n.Footprint n' d) :
    m.Footprint m' d := by
  simpa only [Footprint, Cleared, read_of_agrees h, h.registers, h.spaces, h.allocator,
    h'.registers, h'.spaces, h'.allocator] using hn

theorem agrees_modifyContext {f : Context → Context}
    (h : (f m.context).registers = m.context.registers) : m.Agrees (m.modifyContext f) := by
  refine ⟨?_, rfl, rfl, rfl⟩
  rw [context_modifyContext]
  exact h

theorem agrees_raise (m : Machine) (i : Interrupt) : m.Agrees (m.raise i).machine := by
  obtain ⟨stack, pc, heq⟩ := m.raise_changes i
  rw [heq]
  exact agrees_modifyContext rfl

theorem agrees_delivered (m : Machine) (control : Control) (batch : List Interrupt) :
    m.Agrees ({ m with control }.deliver batch).machine :=
  have hcontrol : m.Agrees { m with control } := ⟨rfl, rfl, rfl, rfl⟩
  hcontrol.trans (related_deliver Agrees.refl Agrees.trans agrees_raise _ batch)

theorem agrees_advance (m : Machine) : m.Agrees m.advance := agrees_modifyContext rfl

/-- A cycle that executes an instruction writes what the instruction does. -/
theorem footprint_cycle (h : m.Sound) (hd : m.Executes d)
    (hplain : ∀ device, d.instruction = .call → m.devices.device? d.imm = some device →
      device.isPlain = true) : m.Footprint m.cycle.machine d := by
  have hfootprint := footprint_attempt (h.follows m.follows_advance) d hplain
  rw [← hd.cycle.1] at hfootprint
  exact footprint_of_agrees m.agrees_advance (.refl _) hfootprint

/-- A cycle that executes nothing writes nothing. -/
theorem agrees_cycle (h : ∀ d, ¬m.Executes d) : m.Agrees m.cycle.machine :=
  related_cycle Agrees.refl Agrees.trans m.agrees_advance fun d _ hd _ => absurd hd (h d)

theorem agrees_settle (p : Progress) : p.machine.Agrees (settle p).machine :=
  related_settle Agrees.refl agrees_raise p

theorem Arrives.agrees (h : m.Arrives m') : m.Agrees m' :=
  h.related Agrees.refl Agrees.trans (fun _ _ _ _ => ⟨rfl, rfl, rfl, rfl⟩) agrees_raise

/-- **A step writes what its instruction is there to write, and nothing else**, and it writes
nothing if it executes no instruction. No space changes its size. -/
theorem step_footprint (hreach : m.Reachable)
    (hplain : ∀ d device, m.upcoming = some d → d.instruction = .call →
      m.devices.device? d.imm = some device → device.isPlain = true) :
    (∀ d, m.upcoming = some d → m.Footprint m.step.machine d) ∧
      (m.upcoming = none → m.step.machine.spaces = m.spaces) ∧
      ∀ space, (m.step.machine.spaces space).map Memory.size =
        (m.spaces space).map Memory.size := by
  have hsome : ∀ d, m.upcoming = some d → m.Footprint m.step.machine d := by
    intro d hd
    obtain ⟨m', harrives, hexecutes⟩ := executes_of_upcoming hd
    have hsound : m'.Sound := hreach.sound.follows <|
      harrives.related Follows.refl Follows.trans
        (fun m _ _ h => m.follows_control (attention_checkpoint h)) follows_raise
    have hfootprint : m'.Footprint m'.cycle.machine d :=
      footprint_cycle hsound hexecutes fun device hcall hdevice =>
        hplain d device hd hcall (harrives.agrees.devices ▸ hdevice)
    rw [step_of_arrives harrives]
    exact footprint_of_agrees harrives.agrees (agrees_settle _) hfootprint
  have hnone : m.upcoming = none → m.step.machine.spaces = m.spaces := by
    intro hd
    rcases m.step_cases with ⟨m', harrives, hstep⟩ | hstep | ⟨control, batch, -, hstep⟩
    · have hnot : ∀ d, ¬m'.Executes d := fun d hexecutes =>
        absurd (upcoming_of_executes harrives hexecutes) (by simp [hd])
      rw [hstep]
      exact ((harrives.agrees.trans (agrees_cycle hnot)).trans (agrees_settle _)).spaces
    · rw [hstep]
    · rw [hstep]
      exact (m.agrees_delivered control batch).spaces
  refine ⟨hsome, hnone, fun space => ?_⟩
  cases hd : m.upcoming with
  | some d => exact sizes_of_footprint (hsome d hd) space
  | none => rw [hnone hd]

/-- The smallest machine with eight bytes in slot 3, about to store the half word 3 in them, at
address 3. -/
def storing : Machine :=
  (((blank ⟨512, 1, false, false, 0⟩).act (.attach 3 ⟨.zeroed 8, .plain⟩)).act
    (.loadSource "loadbytei r1, 3; storehword r1, r1, r1;")).act .step

theorem step_footprint_storing :
    storing.spaces.Rewritten storing.step.machine.spaces (.slot 3) 3 [3, 0] := by
  have hcreate : Machine.create ⟨512, 1, false, false, 0⟩ =
      .ok (blank ⟨512, 1, false, false, 0⟩, []) := rfl
  have hreach : storing.Reachable :=
    .act (.act (.act (.create hcreate) _ trivial) _ trivial) .step trivial
  have hnext : storing.upcoming.map (fun d =>
      (d.instruction, storing.context.read (d.operand 0), storing.context.read (d.operand 1),
        storing.context.read (d.operand 2))) = some (.storeHword, 3, 3, 3) := by decide +kernel
  obtain ⟨d, hd, heq⟩ := Option.map_eq_some_iff.mp hnext
  obtain ⟨hstore, hvalue, haddress, hdevice⟩ : d.instruction = .storeHword ∧
      storing.context.read (d.operand 0) = 3 ∧ storing.context.read (d.operand 1) = 3 ∧
      storing.context.read (d.operand 2) = 3 := by simpa using heq
  have hplain : ∀ d' device, storing.upcoming = some d' → d'.instruction = .call →
      storing.devices.device? d'.imm = some device → device.isPlain = true := by
    intro d' device hd' hcall
    obtain rfl := Option.some.inj (hd.symm.trans hd')
    exact absurd (hstore.symm.trans hcall) nofun
  have hsize : (storing.devices.memory? 3).map Memory.size = some 8 := by decide +kernel
  obtain ⟨memory, hmemory, hlength⟩ := Option.map_eq_some_iff.mp hsize
  have hfootprint := (step_footprint hreach hplain).1 d hd
  simp only [Footprint, hstore, hvalue, haddress, hdevice] at hfootprint
  exact hfootprint.1 ⟨by decide, memory, hmemory, by rw [hlength]; decide⟩

end Machine
end RegisterMachine
