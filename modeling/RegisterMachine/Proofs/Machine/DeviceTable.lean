import RegisterMachine.Machine.Device

/-! What changes of a device table do to its slots.

A table is its slots (`DeviceTable.ext_slot?`). Replacing the memory of a device and calling a
device each change one slot, and what they make of it is said of the slot alone
(`DeviceSlot.withMemory`, `DeviceSlot.called`). -/
namespace RegisterMachine

namespace DeviceSlot

/-- The slot with another memory in its device, if it has one. -/
def withMemory (s : DeviceSlot) (memory : Memory) : DeviceSlot :=
  { s with device := s.device.map fun device => { device with memory } }

/-- The slot after a call of its device, if it has one. -/
def called (s : DeviceSlot) (argument : UInt32) : DeviceSlot :=
  match s.device with
  | some device => ⟨some (device.call argument).1,
    if device.isPlain then s.calls.map (· ++ [argument]) else s.calls⟩
  | none => s

end DeviceSlot

namespace DeviceTable

variable {t t' : DeviceTable} {slot other argument : UInt32} {memory : Memory}

theorem ext_slot? (h : ∀ slot, t.slot? slot = t'.slot? slot) : t = t' := by
  obtain ⟨slots⟩ := t
  obtain ⟨slots'⟩ := t'
  refine congrArg mk (Vector.ext fun i hi => ?_)
  have hnumber : (UInt32.ofNat i).toNat = i := by
    rw [UInt32.toNat_ofNat']
    omega
  have hslot := h (UInt32.ofNat i)
  simp only [slot?, hnumber] at hslot
  simpa [hi] using hslot

theorem slot?_of_device? {device : Device} (h : t.device? slot = some device) :
    t.slot? slot = some ⟨some device, t.calls? slot⟩ := by
  obtain ⟨⟨attached, calls⟩, hslot, hattached⟩ := Option.bind_eq_some_iff.mp h
  obtain rfl : attached = some device := hattached
  rw [calls?, hslot]
  rfl

theorem slot?_setSlot (t : DeviceTable) (slot other : UInt32) (s : DeviceSlot) :
    (t.setSlot slot s).slot? other =
      if other = slot then (t.slot? slot).map fun _ => s else t.slot? other := by
  by_cases hother : other = slot
  · subst hother
    rw [if_pos rfl]
    by_cases hlt : other.toNat < 256
    · simp [setSlot, slot?, hlt]
    · simp [setSlot, slot?, hlt]
  · rw [if_neg hother, t.slot?_setSlot_of_ne s hother]

theorem slot?_setSlot_self {s s' : DeviceSlot} (h : t.slot? slot = some s) :
    (t.setSlot slot s').slot? slot = some s' := by
  rw [slot?_setSlot, if_pos rfl, h, Option.map_some]

theorem device?_setSlot_of_ne (t : DeviceTable) (s : DeviceSlot) (hne : other ≠ slot) :
    (t.setSlot slot s).device? other = t.device? other := by
  rw [device?, device?, t.slot?_setSlot_of_ne s hne]

theorem slot?_setMemory (t : DeviceTable) (slot other : UInt32) (memory : Memory) :
    (t.setMemory slot memory).slot? other =
      if other = slot then (t.slot? slot).map (·.withMemory memory) else t.slot? other := by
  by_cases hother : other = slot
  · subst hother
    rw [if_pos rfl, setMemory]
    split
    · rename_i device calls hslot
      rw [slot?_setSlot_self hslot, hslot]
      rfl
    · rename_i hempty
      cases hslot : t.slot? other with
      | none => rfl
      | some s =>
        obtain ⟨device, calls⟩ := s
        cases device with
        | none => rfl
        | some device => exact absurd hslot (hempty device calls)
  · rw [if_neg hother, setMemory]
    split
    · exact t.slot?_setSlot_of_ne _ hother
    · rfl

theorem slot?_invoke (t : DeviceTable) (slot argument other : UInt32) :
    (t.invoke slot argument).1.slot? other =
      if other = slot then (t.slot? slot).map (·.called argument) else t.slot? other := by
  by_cases hother : other = slot
  · subst hother
    rw [if_pos rfl, invoke]
    split
    · rename_i device calls hslot
      dsimp only
      rw [slot?_setSlot_self hslot, hslot]
      rfl
    · rename_i hempty
      cases hslot : t.slot? other with
      | none => rfl
      | some s =>
        obtain ⟨device, calls⟩ := s
        cases device with
        | none => rfl
        | some device => exact absurd hslot (hempty device calls)
  · rw [if_neg hother, t.slot?_invoke_of_ne argument hother]

theorem device?_setMemory (t : DeviceTable) (slot other : UInt32) (memory : Memory) :
    (t.setMemory slot memory).device? other =
      if other = slot then (t.device? slot).map fun device => { device with memory }
      else t.device? other := by
  rw [device?, slot?_setMemory]
  split
  · rw [device?]
    cases t.slot? slot <;> rfl
  · rfl

theorem calls?_setMemory (t : DeviceTable) (slot other : UInt32) (memory : Memory) :
    (t.setMemory slot memory).calls? other = t.calls? other := by
  rw [calls?, calls?, slot?_setMemory]
  split
  · rename_i hother
    rw [hother]
    cases t.slot? slot <;> rfl
  · rfl

/-- The memory of the device in a slot. -/
def memory? (t : DeviceTable) (slot : UInt32) : Option Memory := (t.device? slot).map Device.memory

theorem memory?_setMemory (t : DeviceTable) (slot other : UInt32) (memory : Memory) :
    (t.setMemory slot memory).memory? other =
      if other = slot then (t.memory? slot).map fun _ => memory else t.memory? other := by
  rw [memory?, device?_setMemory]
  split
  · rw [memory?]
    cases t.device? slot <;> rfl
  · rfl

/-- A call of plain memory leaves every memory as it is. -/
theorem memory?_invoke (hplain : ∀ device, t.device? slot = some device → device.isPlain = true)
    (argument other : UInt32) :
    (t.invoke slot argument).1.memory? other = t.memory? other := by
  rw [memory?, memory?, device?, device?, slot?_invoke]
  split
  · rename_i hother
    subst hother
    cases hslot : t.slot? other with
    | none => rfl
    | some s =>
      obtain ⟨device, calls⟩ := s
      cases device with
      | none => rfl
      | some device =>
        have hdevice : device.isPlain = true := hplain device (by simp [device?, hslot])
        have hbehavior : device.behavior = .plain := by
          unfold Device.isPlain at hdevice
          split at hdevice
          · assumption
          · exact absurd hdevice (by simp)
        simp [DeviceSlot.called, Device.call, hbehavior]
  · rfl

/-! ### The memory of one device and the rest of the table -/

theorem setMemory_setMemory_of_ne (hne : slot ≠ other) (t : DeviceTable)
    (memory memory' : Memory) : (t.setMemory other memory').setMemory slot memory =
      (t.setMemory slot memory).setMemory other memory' := by
  refine ext_slot? fun number => ?_
  simp only [slot?_setMemory]
  by_cases hslot : number = slot
  · subst hslot
    simp [hne]
  · by_cases hother : number = other
    · subst hother
      simp [Ne.symm hne]
    · simp [hslot, hother]

theorem setSlot_setMemory_of_ne (hne : slot ≠ other) (t : DeviceTable) (s : DeviceSlot)
    (memory : Memory) : (t.setMemory other memory).setSlot slot s =
      (t.setSlot slot s).setMemory other memory := by
  refine ext_slot? fun number => ?_
  simp only [slot?_setMemory, slot?_setSlot]
  by_cases hslot : number = slot
  · subst hslot
    simp [hne]
  · by_cases hother : number = other
    · subst hother
      simp [Ne.symm hne]
    · simp [hslot, hother]

theorem attach_setMemory_of_ne (hne : slot ≠ other) (t : DeviceTable) (memory : Memory)
    (device : Device) : (t.setMemory other memory).attach slot device =
      (t.attach slot device).map fun answer => (answer.1, answer.2.setMemory other memory) := by
  have hslot : (t.setMemory other memory).slot? slot = t.slot? slot := by
    rw [slot?_setMemory, if_neg hne]
  rw [attach, attach, hslot]
  cases t.slot? slot with
  | none => rfl
  | some s =>
    dsimp only
    rw [setSlot_setMemory_of_ne hne]
    rfl

theorem detach_setMemory_of_ne (hne : slot ≠ other) (t : DeviceTable) (memory : Memory) :
    ((t.setMemory other memory).detach slot).2 = (t.detach slot).2.setMemory other memory := by
  have hslot : (t.setMemory other memory).slot? slot = t.slot? slot := by
    rw [slot?_setMemory, if_neg hne]
  rw [detach, detach, hslot]
  cases t.slot? slot with
  | none => rfl
  | some s => exact setSlot_setMemory_of_ne hne t _ memory

theorem invoke_snd_congr (h : t'.slot? slot = t.slot? slot) (argument : UInt32) :
    (t'.invoke slot argument).2 = (t.invoke slot argument).2 := by
  rw [invoke, invoke, h]
  split <;> rfl

/-- The answer to a call is that of the device. -/
theorem invoke_snd {attached : Device} (h : t.device? slot = some attached) :
    (t.invoke slot argument).2 = (attached.call argument).2 := by
  rw [invoke, slot?_of_device? h]

/-- The answer of a plain device to a call. -/
theorem invoke_plain_snd {attached : Device} (hdevice : t.device? slot = some attached)
    (hplain : attached.behavior = .plain) (argument : UInt32) :
    (t.invoke slot argument).2 = .ok () := by
  rw [invoke_snd hdevice, Device.call, hplain]

/-- A plain device stays as it is when it is called. -/
theorem device?_invoke_plain {attached : Device} (hdevice : t.device? other = some attached)
    (hplain : attached.behavior = .plain) (slot argument : UInt32) :
    (t.invoke slot argument).1.device? other = some attached := by
  rw [device?, slot?_invoke]
  split
  · rename_i hother
    subst hother
    simp [slot?_of_device? hdevice, DeviceSlot.called, Device.call, hplain]
  · exact hdevice

/-- The call of a plain device is recorded. -/
theorem calls?_invoke_plain {attached : Device} (hdevice : t.device? slot = some attached)
    (hplain : attached.behavior = .plain) (argument : UInt32) :
    (t.invoke slot argument).1.calls? slot = (t.calls? slot).map (· ++ [argument]) := by
  rw [calls?, slot?_invoke, if_pos rfl]
  simp [slot?_of_device? hdevice, DeviceSlot.called, Device.isPlain, hplain]

/-- A call does not look into the memory of plain devices. -/
theorem invoke_setMemory {attached : Device} (hdevice : t.device? other = some attached)
    (hplain : attached.behavior = .plain) (memory : Memory) (slot argument : UInt32) :
    (t.setMemory other memory).invoke slot argument =
      ((t.invoke slot argument).1.setMemory other memory, (t.invoke slot argument).2) := by
  by_cases hslot : slot = other
  · subst hslot
    have hdevice' : (t.setMemory slot memory).device? slot = some { attached with memory } := by
      rw [device?_setMemory, if_pos rfl, hdevice, Option.map_some]
    refine Prod.ext (ext_slot? fun number => ?_) ?_
    · simp only [slot?_invoke, slot?_setMemory]
      by_cases hnumber : number = slot
      · simp [hnumber, slot?_of_device? hdevice, DeviceSlot.called, DeviceSlot.withMemory,
          Device.call, Device.isPlain, hplain]
      · simp [hnumber]
    · rw [invoke_plain_snd hdevice hplain, invoke_plain_snd hdevice' hplain]
  · have hfound : (t.setMemory other memory).slot? slot = t.slot? slot := by
      rw [slot?_setMemory, if_neg hslot]
    refine Prod.ext (ext_slot? fun number => ?_) (invoke_snd_congr hfound argument)
    simp only [slot?_invoke, slot?_setMemory]
    by_cases hnumber : number = slot
    · subst hnumber
      simp [hslot]
    · by_cases hother : number = other
      · subst hother
        simp [Ne.symm hslot]
      · simp [hnumber, hother]

end DeviceTable
end RegisterMachine
