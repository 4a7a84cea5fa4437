import RegisterMachine.Machine.Console
import RegisterMachine.Memory.Basic

/-!
Devices and the slots they are attached to. A slot keeps the record of the calls to its last plain
device, also after the device is detached.
-/

namespace RegisterMachine

inductive DeviceError where
  | unattached (slot : UInt32)
  | fault (i : Interrupt)
  | stream (e : StreamError)
  /-- Any other error, by what it says. -/
  | other (text : String)
  deriving DecidableEq, Repr

namespace DeviceError

def message : DeviceError → String
  | .unattached slot => s!"no peripheral attached to slot {slot.toNat}"
  | .fault i => i.message
  | .stream e => e.message
  | .other text => text

end DeviceError

/-- What a device does when it is called. -/
inductive Behavior where
  /-- Nothing, but the call is recorded. -/
  | plain
  | faulting (i : Interrupt)
  | failing (e : StreamError)
  /-- What its host makes of all calls so far, the last one at the end: of the memory that each of
  them found and of its argument. The answer comes with the memory that the last call leaves. -/
  | hosted (respond : List (Memory × UInt32) → Memory × Except DeviceError Unit)

structure Device where
  memory : Memory
  behavior : Behavior

namespace Device

/-- Whether this is memory that does nothing when it is called. -/
def isPlain (d : Device) : Bool :=
  match d.behavior with
  | .plain => true
  | _ => false

/-- The device after a call, and its answer. -/
def call (d : Device) (argument : UInt32) : Device × Except DeviceError Unit :=
  match d.behavior with
  | .plain => (d, .ok ())
  | .faulting i => (d, .error (.fault i))
  | .failing e => (d, .error (.stream e))
  | .hosted respond =>
    let (memory, answer) := respond [(d.memory, argument)]
    (⟨memory, .hosted fun later => respond ((d.memory, argument) :: later)⟩, answer)

end Device

structure DeviceSlot where
  device : Option Device
  /-- The arguments of all calls to the last plain device, if no other kind came after it. -/
  calls : Option (List UInt32)

structure DeviceTable where
  slots : Vector DeviceSlot 256

namespace DeviceTable

/-- The number that stands for main memory in loads, stores and copies. -/
def mainMemory : UInt32 := 0

/-- The last slot. -/
def biosSlot : UInt32 := 255

def empty : DeviceTable := ⟨Vector.replicate 256 ⟨none, none⟩⟩

def slot? (t : DeviceTable) (slot : UInt32) : Option DeviceSlot := t.slots[slot.toNat]?

def device? (t : DeviceTable) (slot : UInt32) : Option Device :=
  (t.slot? slot).bind DeviceSlot.device

def get (t : DeviceTable) (slot : UInt32) : Except DeviceError Device :=
  match t.device? slot with
  | some device => .ok device
  | none => .error (.unattached slot)

/-- The record of calls that a slot keeps. -/
def calls? (t : DeviceTable) (slot : UInt32) : Option (List UInt32) :=
  (t.slot? slot).bind DeviceSlot.calls

def setSlot (t : DeviceTable) (slot : UInt32) (s : DeviceSlot) : DeviceTable :=
  ⟨t.slots.setIfInBounds slot.toNat s⟩

/-- Puts a device into a slot. The first result is the device that was there. -/
def attach (t : DeviceTable) (slot : UInt32) (device : Device) :
    Except DeviceError (Option Device × DeviceTable) :=
  match t.slot? slot with
  | none => .error (.unattached slot)
  | some s =>
    let calls := if device.isPlain then some [] else none
    .ok (s.device, t.setSlot slot ⟨some device, calls⟩)

/-- Takes the device out of a slot, if there is one. -/
def detach (t : DeviceTable) (slot : UInt32) : Option Device × DeviceTable :=
  match t.slot? slot with
  | none => (none, t)
  | some s => (s.device, t.setSlot slot { s with device := none })

/-- Replaces the memory of the device in a slot. -/
def setMemory (t : DeviceTable) (slot : UInt32) (memory : Memory) : DeviceTable :=
  match t.slot? slot with
  | some ⟨some device, calls⟩ => t.setSlot slot ⟨some { device with memory }, calls⟩
  | _ => t

/-- Calls the device in a slot. The table is the one after the call, also where the answer is an
error. -/
def invoke (t : DeviceTable) (slot argument : UInt32) : DeviceTable × Except DeviceError Unit :=
  match t.slot? slot with
  | some ⟨some device, calls⟩ =>
    let (called, answer) := device.call argument
    let calls := if device.isPlain then calls.map (· ++ [argument]) else calls
    (t.setSlot slot ⟨some called, calls⟩, answer)
  | _ => (t, .error (.unattached slot))

/-- The table after a call that succeeds. -/
def call (t : DeviceTable) (slot argument : UInt32) : Except DeviceError DeviceTable :=
  let (t, answer) := t.invoke slot argument
  answer.map fun () => t

theorem slot?_setSlot_of_ne (t : DeviceTable) {slot other : UInt32} (s : DeviceSlot)
    (h : other ≠ slot) : (t.setSlot slot s).slot? other = t.slot? other := by
  have apart : slot.toNat ≠ other.toNat := fun same => h (UInt32.toNat_inj.mp same.symm)
  simp [setSlot, slot?, apart]

/-- A call touches no other slot. -/
theorem slot?_invoke_of_ne (t : DeviceTable) {slot other : UInt32} (argument : UInt32)
    (h : other ≠ slot) : (t.invoke slot argument).1.slot? other = t.slot? other := by
  unfold invoke
  split
  · exact t.slot?_setSlot_of_ne _ h
  · rfl

/-- Only a device that is no plain memory answers with a fault. -/
theorem device?_of_invoke_fault {t : DeviceTable} {slot argument : UInt32} {i : Interrupt}
    (h : (t.invoke slot argument).2 = .error (.fault i)) :
    ∃ device, t.device? slot = some device ∧ device.isPlain = false := by
  unfold invoke at h
  split at h
  · rename_i device calls found
    refine ⟨device, by simp [device?, found], ?_⟩
    cases plain : device.behavior <;> simp_all [Device.isPlain, Device.call]
  · exact absurd h (by simp)

end DeviceTable

end RegisterMachine
