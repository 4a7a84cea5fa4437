import RegisterMachine.Proofs.Machine.Alteration
import RegisterMachine.Proofs.Machine.Footprint

/-! The memory of a device in slot 0.

As a device number 0 means main memory, so no program gets at the memory of a plain device in
slot 0. Two machines that differ in that memory only (`Twins`) stay twins whatever their host does
with both, as long as it leaves the slot alone: they answer every step alike, and neither ever
changes the memory by which they differ (`twins_run`). What an instruction does that is given
device 0 is said in `MeansMain`; only a `CALL` of slot 0 reaches the device. -/
namespace RegisterMachine

open DeviceTable (mainMemory)

/-- Another memory in the device of slot 0. -/
def Alteration.hidden (memory : Memory) : Alteration := ⟨id, (·.setMemory mainMemory memory)⟩

namespace Machine

/-- There is plain memory in slot 0, with these contents. -/
def Hides (m : Machine) (memory : Memory) : Prop :=
  m.devices.device? mainMemory = some ⟨memory, .plain⟩

/-- The machines are equal, the calls recorded included, but for the memory of the plain device
that each has in slot 0. -/
structure Twins (m₁ m₂ : Machine) (memory₁ memory₂ : Memory) : Prop where
  first : m₁.Hides memory₁
  second : m₂.Hides memory₂
  calls : m₂.devices.calls? mainMemory = m₁.devices.calls? mainMemory
  slots : ∀ slot, slot ≠ mainMemory → m₂.devices.slot? slot = m₁.devices.slot? slot
  rest : { m₂ with devices := m₁.devices } = m₁

variable {m m' m₁ m₂ : Machine} {d : Decoded} {e : Effect} {memory memory' memory₁ memory₂ : Memory}

theorem respects_hidden (h : m.Hides memory) (memory' : Memory) :
    (Alteration.hidden memory').Respects m.devices where
  device? slot hslot := by
    show (m.devices.setMemory mainMemory memory').device? slot = _
    rw [DeviceTable.device?_setMemory, if_neg hslot]
  attached slot := by
    show ((m.devices.setMemory mainMemory memory').device? slot).isSome = _
    rw [DeviceTable.device?_setMemory]
    split
    · rename_i hslot
      rw [hslot, Option.isSome_map]
    · rfl
  setMemory slot memory hslot := m.devices.setMemory_setMemory_of_ne hslot memory memory'
  invoke slot argument := DeviceTable.invoke_setMemory h rfl memory' slot argument

/-- A twin is the machine with another hidden memory. -/
theorem twins_iff : m₁.Twins m₂ memory₁ memory₂ ↔
    m₁.Hides memory₁ ∧ m₂ = m₁.altered (.hidden memory₂) := by
  constructor
  · intro h
    have hdevices : m₂.devices = m₁.devices.setMemory mainMemory memory₂ := by
      refine DeviceTable.ext_slot? fun slot => ?_
      rw [DeviceTable.slot?_setMemory]
      split
      · rename_i hslot
        rw [hslot, DeviceTable.slot?_of_device? h.second, DeviceTable.slot?_of_device? h.first,
          h.calls]
        rfl
      · rename_i hslot
        exact h.slots slot hslot
    refine ⟨h.first, ?_⟩
    calc m₂ = { m₂ with devices := m₁.devices.setMemory mainMemory memory₂ } := by rw [← hdevices]
      _ = ({ m₂ with devices := m₁.devices } : Machine).altered (.hidden memory₂) := rfl
      _ = m₁.altered (.hidden memory₂) := by rw [h.rest]
  · rintro ⟨h, rfl⟩
    refine ⟨h, ?_, m₁.devices.calls?_setMemory _ _ memory₂, fun slot hslot => ?_, rfl⟩
    · show (m₁.devices.setMemory mainMemory memory₂).device? mainMemory = _
      rw [DeviceTable.device?_setMemory, if_pos rfl, h]
      rfl
    · show (m₁.devices.setMemory mainMemory memory₂).slot? slot = _
      rw [DeviceTable.slot?_setMemory, if_neg hslot]

/-- Plain memory that is attached to slot 0 makes twins. -/
theorem twins_attach (m : Machine) (memory₁ memory₂ : Memory) :
    (m.act (.attach mainMemory ⟨memory₁, .plain⟩)).Twins
      (m.act (.attach mainMemory ⟨memory₂, .plain⟩)) memory₁ memory₂ := by
  obtain ⟨s, hs⟩ : ∃ s, m.devices.slot? mainMemory = some s :=
    ⟨m.devices.slots[0], Vector.getElem?_eq_getElem (by decide)⟩
  have hact (memory : Memory) : m.act (.attach mainMemory ⟨memory, .plain⟩) =
      { m with devices := m.devices.setSlot mainMemory ⟨some ⟨memory, .plain⟩, some []⟩ } := by
    simp only [act, DeviceTable.attach, hs]
    rfl
  rw [hact, hact]
  refine ⟨?_, ?_, ?_, fun slot hslot => ?_, rfl⟩
  · simp [Hides, DeviceTable.device?, DeviceTable.slot?_setSlot_self hs]
  · simp [Hides, DeviceTable.device?, DeviceTable.slot?_setSlot_self hs]
  · simp [DeviceTable.calls?, DeviceTable.slot?_setSlot_self hs]
  · simp only [m.devices.slot?_setSlot_of_ne _ hslot]

/-! ### The hidden memory stays -/

theorem hides_of_same (h : m.Hides memory) (hdevices : m'.devices = m.devices) :
    m'.Hides memory := by
  rw [Hides, hdevices]
  exact h

theorem hides_perform (h : m.Hides memory) (e : Effect) : (m.perform e).machine.Hides memory := by
  have hdevices := (Prod.mk.inj (m.memories_perform e)).2
  cases e with
  | write device start bytes =>
    rw [Hides, hdevices]
    show (m.overwrite device start bytes).devices.device? mainMemory = _
    rw [overwrite]
    split
    · exact h
    · rename_i hother
      split
      · rw [DeviceTable.device?_setMemory, if_neg (Ne.symm hother)]
        exact h
      · exact h
  | callDevice slot argument =>
    rw [Hides, hdevices]
    exact DeviceTable.device?_invoke_plain h rfl slot argument
  | allocate rd size cleared => cases cleared <;> exact hides_of_same h hdevices
  | _ => exact hides_of_same h hdevices

theorem hides_cycle (h : m.Hides memory) : m.cycle.machine.Hides memory :=
  related_cycle (R := fun m m' => m.Hides memory → m'.Hides memory) (fun _ => id)
    (fun h h' => h' ∘ h) id (fun _ e _ _ hadvance => hides_perform hadvance e) h

theorem hides_step (h : m.Hides memory) : m.step.machine.Hides memory := by
  have hraise (m : Machine) (i : Interrupt) :
      m.Hides memory → (m.raise i).machine.Hides memory := by
    obtain ⟨stack, pc, heq⟩ := m.raise_changes i
    rw [heq]
    exact id
  exact related_step (R := fun m m' => m.Hides memory → m'.Hides memory) (fun _ => id)
    (fun h h' => h' ∘ h) hraise (fun _ _ _ _ => id) (fun _ => hides_cycle) m h

theorem devices_place (m : Machine) (p : Program) : (m.place p).1.devices = m.devices := by
  obtain ⟨allocator, memory, heq⟩ := m.place_changes p
  rw [heq]

theorem devices_loadInto (m : Machine) (id : Nat) (p : Program) :
    (m.loadInto id p).1.devices = m.devices := by
  rcases m.loadInto_cases id p with heq | ⟨contexts, placed, -, hplaced, hloaded⟩
  · rw [heq]
  · have hdevices : placed.devices = m.devices := by rw [hplaced, devices_place]
    rcases hloaded with heq | heq <;> rw [heq] <;> exact hdevices

/-- The action leaves the device in slot 0 where it is. -/
def HostAction.SparesDevice : HostAction → Prop
  | .attach slot _ | .detach slot => slot ≠ mainMemory
  | _ => True

theorem hides_act (h : m.Hides memory) {action : HostAction} (haction : action.SparesDevice) :
    (m.act action).Hides memory := by
  cases action with
  | loadSource source =>
    refine hides_of_same h ?_
    rw [act, loadSource, loadSourceInto]
    cases m.assemble source with
    | error e => rfl
    | ok p => exact m.devices_loadInto _ p
  | load p => exact hides_of_same h (m.devices_loadInto _ p)
  | loadInto id p => exact hides_of_same h (m.devices_loadInto id p)
  | switchContext id =>
    obtain ⟨contexts, heq⟩ := m.act_switchContext id
    rw [heq]
    exact h
  | setVector i handler =>
    obtain ⟨memory', heq⟩ := m.act_setVector i handler
    rw [heq]
    exact h
  | attach slot device =>
    simp only [act, DeviceTable.attach]
    cases m.devices.slot? slot with
    | none => exact h
    | some s => exact (m.devices.device?_setSlot_of_ne _ (Ne.symm haction)).trans h
  | detach slot =>
    simp only [act, DeviceTable.detach]
    cases m.devices.slot? slot with
    | none => exact h
    | some s => exact (m.devices.device?_setSlot_of_ne _ (Ne.symm haction)).trans h
  | writeMemory address bytes =>
    simp only [act]
    split <;> exact h
  | step => exact hides_step h
  | setConsole _ | pause | resume | terminate | setYieldSuspends _ | raise _ | editContext _
    | setClock _ => exact h

/-! ### Actions on both twins -/

theorem act_hidden (h : m.Hides memory) {action : HostAction} (haction : action.SparesDevice)
    (memory' : Memory) : (m.altered (.hidden memory')).act action =
      (m.act action).altered (.hidden memory') := by
  cases action with
  | loadSource source => exact congrArg Prod.fst (m.loadSource_altered _ source)
  | load p => exact congrArg Prod.fst (m.loadInto_altered _ _ p)
  | loadInto id p => exact congrArg Prod.fst (m.loadInto_altered _ id p)
  | switchContext id =>
    simp only [act, switchContext_altered]
    cases m.switchContext id <;> rfl
  | setVector i handler =>
    simp only [act, setVector, memory_altered]
    cases m.memory.storeWord i.vector handler <;> rfl
  | attach slot device =>
    simp only [act, devices_altered, Alteration.hidden,
      DeviceTable.attach_setMemory_of_ne haction]
    cases m.devices.attach slot device <;> rfl
  | detach slot =>
    exact congrArg (fun devices => { m with devices })
      (DeviceTable.detach_setMemory_of_ne haction m.devices memory')
  | writeMemory address bytes =>
    simp only [act, memory_altered]
    cases m.memory.write address bytes <;> rfl
  | step => exact congrArg Report.machine (step_altered (respects_hidden h memory') fun _ => rfl)
  | setConsole _ | pause | resume | terminate | setYieldSuspends _ | raise _ | editContext _
    | setClock _ => rfl

/-- Twins stay twins, and the memories by which they differ stay as they are. -/
theorem twins_act (h : m₁.Twins m₂ memory₁ memory₂) {action : HostAction}
    (haction : action.SparesDevice) : (m₁.act action).Twins (m₂.act action) memory₁ memory₂ := by
  obtain ⟨hhides, rfl⟩ := twins_iff.mp h
  exact twins_iff.mpr ⟨hides_act hhides haction, act_hidden hhides haction memory₂⟩

theorem twins_foldl (h : m₁.Twins m₂ memory₁ memory₂) {actions : List HostAction}
    (hactions : ∀ action ∈ actions, action.SparesDevice) :
    (actions.foldl act m₁).Twins (actions.foldl act m₂) memory₁ memory₂ := by
  induction actions generalizing m₁ m₂ with
  | nil => exact h
  | cons action rest ih =>
    obtain ⟨haction, hrest⟩ := List.forall_mem_cons.mp hactions
    exact ih (twins_act h haction) hrest

/-! ### What device 0 means -/

/-- The machine after an access that is about to give another one: an access that fails raises its
interrupt. -/
def afterAccess (m : Machine) (x : Except Interrupt Machine) : Machine :=
  match x with
  | .ok m' => m'
  | .error i => (m.raise i).machine

/-- What an instruction does that is given device 0. Loads, stores and `MEMSIZE` mean main memory by
it, and copies too, for the source and for the destination (`Space.named`), but a `CALL` means the
device in slot 0. The program counter of `m` is already behind the instruction. -/
structure MeansMain (m m' : Machine) (d : Decoded) : Prop where
  load : ∀ width, (d.instruction, width) ∈ [(.loadByte, 1), (.loadHword, 2), (.loadWord, 4)] →
    m.context.read (d.operand 2) = mainMemory →
    m' = m.afterAccess ((m.memory.load (m.context.read (d.operand 1)) width).map
      (m.assign (d.reg 0)))
  store : ∀ width, (d.instruction, width) ∈ [(.storeByte, 1), (.storeHword, 2), (.storeWord, 4)] →
    m.context.read (d.operand 2) = mainMemory →
    m' = m.afterAccess ((m.memory.store (m.context.read (d.operand 1)) width
      (m.context.read (d.operand 0))).map fun memory => { m with memory })
  copy : d.instruction = .memcpy → m.spaces.Copied m'.spaces (m.context.read (d.operand 0))
    (m.context.read (d.operand 1)) (m.context.read (d.operand 2))
    (m.context.registers.get (d.reg 3)) (m.context.registers.get (d.reg 4))
  size : d.instruction = .memSize → d.imm = mainMemory →
    m' = m.assign (d.reg 0) (UInt32.ofNat m.memory.size)
  call : d.instruction = .call → d.imm = mainMemory →
    ∃ devices, m' = { m with devices } ∧ devices.calls? mainMemory =
      (m.devices.calls? mainMemory).map (· ++ [m.context.registers.get (d.reg 0)])

theorem settle_planLoad (m : Machine) (rd : Reg) (address : UInt32) (width : Nat) :
    (settle (m.attempt (m.planLoad rd mainMemory address width))).machine =
      m.afterAccess ((m.memory.load address width).map (m.assign rd)) := by
  rw [planLoad_mainMemory]
  cases m.memory.load address width with
  | error i => rfl
  | ok value => exact modifyContext_congr rfl

theorem settle_planStore (m : Machine) (address : UInt32) (width : Nat) (value : UInt32) :
    (settle (m.attempt (m.planStore mainMemory address width value))).machine =
      m.afterAccess ((m.memory.store address width value).map fun memory => { m with memory }) := by
  have hplan := m.planStore_mainMemory address width value
  cases hstore : m.memory.store address width value with
  | error i =>
    rw [hstore] at hplan
    rw [hplan]
    rfl
  | ok memory =>
    rw [hstore] at hplan
    obtain ⟨e, hplan, hperform⟩ := hplan
    rw [hplan]
    show (settle (m.perform e)).machine = _
    rw [hperform]
    rfl

theorem meansMain_settle (h : m.Hides memory) (d : Decoded) :
    m.MeansMain (settle (m.attempt (m.plan d))).machine d where
  load width hload hdevice := by
    have hplan : m.plan d =
        m.planLoad (d.reg 0) mainMemory (m.context.read (d.operand 1)) width := by
      simp only [List.mem_cons, Prod.mk.injEq, List.not_mem_nil, or_false] at hload
      rw [← hdevice]
      rcases hload with ⟨hi, rfl⟩ | ⟨hi, rfl⟩ | ⟨hi, rfl⟩ <;> simp only [plan, hi]
    rw [hplan]
    exact m.settle_planLoad _ _ _
  store width hstore hdevice := by
    have hplan : m.plan d = m.planStore mainMemory (m.context.read (d.operand 1)) width
        (m.context.read (d.operand 0)) := by
      simp only [List.mem_cons, Prod.mk.injEq, List.not_mem_nil, or_false] at hstore
      rw [← hdevice]
      rcases hstore with ⟨hi, rfl⟩ | ⟨hi, rfl⟩ | ⟨hi, rfl⟩ <;> simp only [plan, hi]
    rw [hplan]
    exact m.settle_planStore _ _ _
  copy hcopy := by
    rw [(agrees_settle (m.attempt (m.plan d))).spaces]
    simp only [plan, hcopy]
    exact m.copied_attempt _ _ _ _ _
  size hsize hdevice := by
    have hplan : m.plan d = .ok (.context (m.context.assign (d.reg 0)
        (UInt32.ofNat m.memory.size))) := by
      simp only [plan, hsize, hdevice]
      rfl
    rw [hplan]
    exact modifyContext_congr rfl
  call hcall hdevice := by
    have hdevice' : m.devices.device? d.imm = some ⟨memory, .plain⟩ := hdevice ▸ h
    have hplan : m.plan d =
        .ok (.callDevice mainMemory (m.context.registers.get (d.reg 0))) := by
      simp only [plan, hcall, hdevice']
      rw [hdevice]
    refine ⟨_, ?_, DeviceTable.calls?_invoke_plain h rfl _⟩
    have hanswer := DeviceTable.invoke_plain_snd h rfl (m.context.registers.get (d.reg 0))
    rw [hplan]
    show (settle (m.callDevice mainMemory _)).machine = _
    rw [callDevice]
    dsimp only
    rw [hanswer]
    rfl

/-- **The memory of a plain device in slot 0 does not show.** Twins stay twins under the same
actions of a host that leaves the device in its slot, with the memories that they began with, and
answer every step alike, because device 0 means main memory unless it is called. -/
theorem twins_run (h : m₁.Twins m₂ memory₁ memory₂) {actions : List HostAction}
    (hactions : ∀ action ∈ actions, action.SparesDevice) :
    let n₁ := actions.foldl act m₁
    let n₂ := actions.foldl act m₂
    n₁.Twins n₂ memory₁ memory₂ ∧
      (n₂.step.answer = n₁.step.answer ∧ n₂.step.events = n₁.step.events) ∧
      ∀ m d, n₁.Arrives m → m.Executes d → m.advance.MeansMain n₁.step.machine d := by
  intro n₁ n₂
  have htwins : n₁.Twins n₂ memory₁ memory₂ := twins_foldl h hactions
  obtain ⟨hhides, htwin⟩ := twins_iff.mp htwins
  have hstep : n₂.step = n₁.step.altered (.hidden memory₂) := by
    rw [htwin]
    exact step_altered (respects_hidden hhides memory₂) fun _ => rfl
  refine ⟨htwins, ⟨by rw [hstep]; rfl, by rw [hstep]; rfl⟩, fun m d harrives hd => ?_⟩
  have hthere : m.advance.Hides memory₁ := hides_of_same hhides harrives.same_devices.1
  rw [step_of_arrives harrives, hd.settle_cycle]
  exact meansMain_settle hthere d

/-- The smallest machine with this many bytes in slot 0, and a program that calls the device and
asks for the size of device 0. -/
def sized (bytes : Nat) : Machine :=
  ((blank ⟨512, 1, false, false, 0⟩).act (.attach 0 ⟨.zeroed bytes, .plain⟩)).act
    (.loadSource "call r1, 0; memsize r1, 0;")

/-- With 8 bytes in slot 0 the device is called and the size is that of main memory, as it is with
16 bytes. -/
theorem twins_run_sized :
    let n₁ := [.step, .raise .keyPress, .step].foldl act (sized 8)
    let n₂ := [.step, .raise .keyPress, .step].foldl act (sized 16)
    n₁.Twins n₂ (.zeroed 8) (.zeroed 16) ∧ n₂.step.answer = n₁.step.answer ∧
      n₁.context.registers.get 0 = 512 ∧ n₁.devices.calls? 0 = some [0] := by
  have htwins : (sized 8).Twins (sized 16) (.zeroed 8) (.zeroed 16) :=
    twins_act (twins_attach _ _ _) trivial
  have hspares : ∀ action ∈ [.step, .raise .keyPress, .step], HostAction.SparesDevice action := by
    simp [HostAction.SparesDevice]
  obtain ⟨hafter, hanswers, -⟩ := twins_run htwins hspares
  exact ⟨hafter, hanswers.1, by decide +kernel, by decide +kernel⟩

end Machine
end RegisterMachine
