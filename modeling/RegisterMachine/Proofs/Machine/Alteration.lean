import RegisterMachine.Proofs.Machine.Step

/-! Alterations that steps do not see.

Few instructions look at the clock of a machine, and the devices are reached in a few ways only:
by number in loads, stores, copies and sizes, and by slot in calls. An `Alteration` is a change of
these two parts. Where it leaves what the numbers and the calls reach (`Respects`), and the next
instruction does not read the clock, the step does the same as without it and leaves it in place
(`step_altered`). Loading a program never sees it. -/
namespace RegisterMachine

/-- A change of what the clock shows and of the devices. -/
structure Alteration where
  clock : UInt32 → UInt32
  devices : DeviceTable → DeviceTable

/-- Device numbers other than that of main memory mean the same devices in the altered table, and
calls, of any slot, are answered alike. -/
structure Alteration.Respects (a : Alteration) (t : DeviceTable) : Prop where
  device? : ∀ slot, slot ≠ DeviceTable.mainMemory → (a.devices t).device? slot = t.device? slot
  attached : ∀ slot, ((a.devices t).device? slot).isSome = (t.device? slot).isSome
  setMemory : ∀ slot memory, slot ≠ DeviceTable.mainMemory →
    (a.devices t).setMemory slot memory = a.devices (t.setMemory slot memory)
  invoke : ∀ slot argument, (a.devices t).invoke slot argument =
    (a.devices (t.invoke slot argument).1, (t.invoke slot argument).2)

/-- The instruction reads the clock. -/
def Decoded.ReadsClock (d : Decoded) : Prop :=
  d.instruction = .uptime ∨ d.instruction = .memSize ∧ d.imm = DeviceTable.biosSlot

instance (d : Decoded) : Decidable d.ReadsClock := inferInstanceAs (Decidable (_ ∨ _ ∧ _))

namespace Machine

/-- The machine with an alteration. -/
def altered (m : Machine) (a : Alteration) : Machine :=
  { m with clock := a.clock m.clock, devices := a.devices m.devices }

variable (m : Machine) (a : Alteration)

@[simp] theorem clock_altered : (m.altered a).clock = a.clock m.clock := rfl

@[simp] theorem halted_altered : (m.altered a).halted = m.halted := rfl

@[simp] theorem config_altered : (m.altered a).config = m.config := rfl

@[simp] theorem control_altered : (m.altered a).control = m.control := rfl

@[simp] theorem contexts_altered : (m.altered a).contexts = m.contexts := rfl

@[simp] theorem context_altered : (m.altered a).context = m.context := rfl

@[simp] theorem devices_altered : (m.altered a).devices = a.devices m.devices := rfl

@[simp] theorem console_altered : (m.altered a).console = m.console := rfl

@[simp] theorem allocator_altered : (m.altered a).allocator = m.allocator := rfl

@[simp] theorem memory_altered : (m.altered a).memory = m.memory := rfl

end Machine

def Progress.altered (p : Progress) (a : Alteration) : Progress :=
  { p with machine := p.machine.altered a }

def Report.altered {α : Type} (r : Report α) (a : Alteration) : Report α :=
  { r with machine := r.machine.altered a }

@[simp] theorem Report.answer_altered {α : Type} (r : Report α) (a : Alteration) :
    (r.altered a).answer = r.answer := rfl

@[simp] theorem Report.machine_altered {α : Type} (r : Report α) (a : Alteration) :
    (r.altered a).machine = r.machine.altered a := rfl

namespace Machine

variable {m : Machine} {d : Decoded} {a : Alteration}

/-! ### Planning -/

theorem space_altered (h : a.Respects m.devices) (device : UInt32) :
    (m.altered a).space device = m.space device := by
  rw [space, space]
  split
  · rfl
  · rename_i hother
    rw [devices_altered, h.device? device hother]

theorem planSize_altered (h : a.Respects m.devices) (rd : Reg) (device : UInt32)
    (hclock : device = DeviceTable.biosSlot → a.clock m.clock = m.clock) :
    (m.altered a).planSize rd device = m.planSize rd device := by
  rw [planSize, planSize, space_altered h]
  split
  · rename_i hbios
    rw [clock_altered, hclock hbios, context_altered]
  · rfl

theorem plan_altered (h : a.Respects m.devices)
    (hclock : d.ReadsClock → a.clock m.clock = m.clock) :
    (m.altered a).plan d = m.plan d := by
  obtain ⟨i, c, word⟩ := d
  have hload : ∀ rd device address width,
      (m.altered a).planLoad rd device address width = m.planLoad rd device address width := by
    intro rd device address width
    rw [planLoad, planLoad, space_altered h]
    rfl
  have hstore : ∀ device address width value,
      (m.altered a).planStore device address width value =
        m.planStore device address width value := by
    intro device address width value
    rw [planStore, planStore, space_altered h]
  cases i with
  | uptime =>
    show Except.ok (Effect.context (m.context.assign _ (a.clock m.clock))) = _
    rw [hclock (.inl rfl)]
    rfl
  | memSize => exact planSize_altered h _ _ fun hbios => hclock (.inr ⟨rfl, hbios⟩)
  | loadByte | loadHword | loadWord | loadWordIMem => exact hload _ _ _ _
  | storeByte | storeHword | storeWord | storeByteI | storeHwordI | storeWordIMem =>
    exact hstore _ _ _ _
  | memcpy =>
    show (m.altered a).planCopy _ _ _ _ _ = m.planCopy _ _ _ _ _
    rw [planCopy, planCopy, space_altered h, space_altered h]
    rfl
  | call =>
    have hattached := h.attached (Decoded.imm ⟨.call, c, word⟩)
    simp only [plan, devices_altered]
    cases hdevice : m.devices.device? (Decoded.imm ⟨.call, c, word⟩) with
    | none =>
      rw [hdevice, Option.isSome_none, Option.isSome_eq_false_iff, Option.isNone_iff_eq_none]
        at hattached
      rw [hattached]
    | some device =>
      rw [hdevice, Option.isSome_some, Option.isSome_iff_exists] at hattached
      obtain ⟨device', hdevice'⟩ := hattached
      rw [hdevice']
      rfl
  | _ => rfl

/-! ### Performing -/

theorem overwrite_altered (h : a.Respects m.devices) (device : UInt32) (start : Nat)
    (bytes : List UInt8) :
    (m.altered a).overwrite device start bytes =
      (m.overwrite device start bytes).altered a := by
  by_cases hmain : device = DeviceTable.mainMemory
  · rw [overwrite, overwrite, if_pos hmain, if_pos hmain]
    rfl
  · rw [overwrite, overwrite, if_neg hmain, if_neg hmain, devices_altered,
      h.device? device hmain]
    cases m.devices.device? device with
    | none => rfl
    | some attached =>
      dsimp only
      rw [h.setMemory device _ hmain]
      rfl

theorem allocate_altered (m : Machine) (a : Alteration) (rd : Reg) (size : UInt32) :
    (m.altered a).allocate rd size = (m.allocate rd size).altered a := by
  rw [allocate, allocate, allocator_altered]
  cases m.allocator.malloc size.toNat <;> rfl

theorem allocateCleared_altered (m : Machine) (a : Alteration) (rd : Reg) (size : UInt32) :
    (m.altered a).allocateCleared rd size = (m.allocateCleared rd size).altered a := by
  rw [allocateCleared, allocateCleared, allocator_altered, memory_altered]
  obtain ⟨answer, allocator, memory⟩ := m.allocator.calloc m.memory size.toNat
  cases answer <;> rfl

theorem switchContext_altered (m : Machine) (a : Alteration) (id : Nat) :
    (m.altered a).switchContext id =
      (m.switchContext id).map fun r => (r.1.altered a, r.2) := by
  rw [switchContext, switchContext, contexts_altered]
  cases m.contexts.switch id <;> rfl

theorem perform_altered (h : a.Respects m.devices) (e : Effect) :
    (m.altered a).perform e = (m.perform e).altered a := by
  cases e with
  | context _ | halt | yield | ignore _ => rfl
  | write device start bytes =>
    show ((m.altered a).overwrite device start bytes).done = _
    rw [overwrite_altered h]
    rfl
  | allocate rd size cleared =>
    cases cleared with
    | true => exact m.allocateCleared_altered a rd size
    | false => exact m.allocate_altered a rd size
  | release b =>
    simp only [perform, allocator_altered]
    cases m.allocator.free b <;> rfl
  | switch id =>
    simp only [perform, switchContext_altered]
    cases m.switchContext id <;> rfl
  | draw rd kind => cases kind <;> rfl
  | readByte rd =>
    simp only [perform, readByte, console_altered]
    obtain ⟨answer, console⟩ := m.console.read
    cases answer <;> rfl
  | writeByte b =>
    simp only [perform, writeByte, console_altered]
    obtain ⟨answer, console⟩ := m.console.write b
    cases answer <;> rfl
  | callDevice slot argument =>
    simp only [perform, callDevice, devices_altered, h.invoke]
    obtain ⟨devices, answer⟩ := m.devices.invoke slot argument
    cases answer with
    | ok _ => rfl
    | error e => cases e <;> rfl

/-! ### Steps -/

theorem execute_altered (h : a.Respects m.devices)
    (hclock : d.condition.holds m.context.flag = true → d.ReadsClock → a.clock m.clock = m.clock) :
    (m.altered a).execute d = (m.execute d).altered a := by
  rw [execute, execute, context_altered]
  by_cases hholds : d.condition.holds m.context.flag = true
  · rw [if_pos hholds, if_pos hholds, plan_altered h (hclock hholds)]
    cases m.plan d with
    | error stop => rfl
    | ok e => exact perform_altered h e
  · rw [if_neg hholds, if_neg hholds]
    rfl

theorem cycle_altered (h : a.Respects m.devices)
    (hclock : ∀ d, m.Executes d → d.ReadsClock → a.clock m.clock = m.clock) :
    (m.altered a).cycle = m.cycle.altered a := by
  have hfetch : (m.altered a).fetch = m.fetch := rfl
  rw [cycle, cycle, hfetch]
  cases hword : m.fetch with
  | error i => rfl
  | ok word =>
    dsimp only
    cases hdecode : decode word with
    | none => rfl
    | some d =>
      have hadvance : (m.altered a).advance = m.advance.altered a := rfl
      have hexecute : (m.advance.altered a).execute d = (m.advance.execute d).altered a := by
        refine execute_altered h fun hholds => hclock d ⟨⟨word, hword, hdecode⟩, ?_⟩
        rwa [flag_advance] at hholds
      dsimp only
      rw [hadvance, hexecute]
      rfl

theorem raise_altered (m : Machine) (a : Alteration) (i : Interrupt) :
    (m.altered a).raise i = (m.raise i).altered a := by
  have hvector : (m.altered a).vector i = m.vector i := rfl
  rw [raise, raise, hvector, context_altered]
  cases m.vector i with
  | error j => rfl
  | ok v =>
    dsimp only
    by_cases hv : v = 0
    · rw [if_pos hv, if_pos hv]
      split <;> rfl
    · rw [if_neg hv, if_neg hv]
      cases m.context.stack.pushReserved? m.context.pc <;> rfl

theorem settle_altered (p : Progress) (a : Alteration) :
    settle (p.altered a) = (settle p).altered a := by
  obtain ⟨m, stop, events⟩ := p
  cases stop with
  | none => rfl
  | some stop =>
    cases stop with
    | failure f => rfl
    | interrupt i =>
      show (let r := (m.altered a).raise i; { r with events := events ++ r.events }) = _
      rw [raise_altered]
      rfl

theorem deliver_altered (m : Machine) (a : Alteration) (batch : List Interrupt) :
    (m.altered a).deliver batch = (m.deliver batch).altered a := by
  induction batch generalizing m with
  | nil => rfl
  | cons i rest ih =>
    rw [deliver, deliver, raise_altered, Report.answer_altered]
    dsimp only
    cases (m.raise i).answer with
    | error f => rfl
    | ok _ =>
      show (let others := ((m.raise i).machine.altered a).deliver rest
        { others with events := (m.raise i).events ++ others.events }) = _
      rw [ih]
      rfl

theorem conclude_altered (r : Report Unit) (a : Alteration) :
    conclude (r.altered a) = (conclude r).altered a := by
  obtain ⟨m, answer, events⟩ := r
  cases answer <;> rfl

/-- The next step executes an instruction that reads the clock. -/
def ReadsClock (m : Machine) : Prop := ∃ d ∈ m.upcoming, d.ReadsClock

instance (m : Machine) : Decidable m.ReadsClock :=
  inferInstanceAs (Decidable (∃ d ∈ m.upcoming, d.ReadsClock))

theorem Arrives.same_devices {m' : Machine} (h : m.Arrives m') :
    m'.devices = m.devices ∧ m'.clock = m.clock := by
  refine h.related (R := fun m m' => m'.devices = m.devices ∧ m'.clock = m.clock)
    (fun _ => ⟨rfl, rfl⟩) (fun h h' => ⟨h'.1.trans h.1, h'.2.trans h.2⟩) (fun _ _ _ _ => ⟨rfl, rfl⟩)
    fun m i => ?_
  obtain ⟨stack, pc, heq⟩ := m.raise_changes i
  rw [heq]
  exact ⟨rfl, rfl⟩

/-- **A step does not see an alteration** that leaves what numbers and calls reach, unless it reads
an altered clock. -/
theorem step_altered (h : a.Respects m.devices)
    (hclock : m.ReadsClock → a.clock m.clock = m.clock) :
    (m.altered a).step = m.step.altered a := by
  by_cases hdone : m.halted = true
  · rw [step, step, halted_altered, if_pos hdone, if_pos hdone]
    rfl
  have hrunning : m.halted = false := by simpa using hdone
  cases hcheckpoint : m.control.checkpoint with
  | suspended | terminate =>
    rw [step, step, halted_altered, control_altered, if_neg hdone, if_neg hdone, hcheckpoint]
    rfl
  | proceed control batch =>
    -- what the host raised is delivered first, and that sees no alteration at all
    obtain ⟨delivered, hdelivered⟩ :
        ∃ delivered, ({ m with control } : Machine).deliver batch = delivered := ⟨_, rfl⟩
    have haltered := deliver_altered { m with control } a batch
    rw [hdelivered] at haltered
    rw [step_of_proceed hrunning hcheckpoint hdelivered,
      step_of_proceed (m := m.altered a) hrunning hcheckpoint haltered, Report.answer_altered]
    cases hok : delivered.answer with
    | error f => exact conclude_altered delivered a
    | ok _ =>
      have harrives : m.Arrives delivered.machine :=
        ⟨hrunning, control, batch, hcheckpoint, by rw [hdelivered, hok], by rw [hdelivered]⟩
      obtain ⟨hdevices, htime⟩ := harrives.same_devices
      have hcycle : (delivered.machine.altered a).cycle = delivered.machine.cycle.altered a := by
        refine cycle_altered (by rwa [hdevices]) fun d hd hreads => ?_
        rw [htime]
        exact hclock ⟨d, upcoming_of_executes harrives hd, hreads⟩
      dsimp only
      rw [Report.machine_altered, hcycle, settle_altered]
      exact conclude_altered
        { settle delivered.machine.cycle with
          events := delivered.events ++ (settle delivered.machine.cycle).events } a

/-! ### Loading -/

theorem place_altered (m : Machine) (a : Alteration) (p : Program) :
    (m.altered a).place p = ((m.place p).1.altered a, (m.place p).2) := by
  rw [place, place, allocator_altered]
  cases footprint? p with
  | none => rfl
  | some block =>
    dsimp only
    cases m.allocator.claim block with
    | error e => rfl
    | ok allocator =>
      dsimp only
      rw [memory_altered]
      cases m.memory.write p.origin p.bytes with
      | error i => rfl
      | ok memory =>
        dsimp only
        cases memory.storeWord (UInt32.ofNat p.stop) 0 <;> rfl

theorem loadInto_altered (m : Machine) (a : Alteration) (id : Nat) (p : Program) :
    (m.altered a).loadInto id p = ((m.loadInto id p).1.altered a, (m.loadInto id p).2) := by
  rw [loadInto, loadInto, contexts_altered]
  cases m.contexts.ensure id with
  | error e => rfl
  | ok contexts =>
    have hplace : ({ m.altered a with contexts } : Machine).place p =
        (({ m with contexts }.place p).1.altered a, ({ m with contexts }.place p).2) :=
      place_altered { m with contexts } a p
    dsimp only
    rw [hplace]
    obtain ⟨placed, answer⟩ := ({ m with contexts } : Machine).place p
    cases answer <;> rfl

theorem loadSource_altered (m : Machine) (a : Alteration) (source : String) :
    (m.altered a).loadSource source =
      ((m.loadSource source).1.altered a, (m.loadSource source).2) := by
  have hassemble : (m.altered a).assemble source = m.assemble source := rfl
  rw [loadSource, loadSource, loadSourceInto, loadSourceInto, hassemble]
  cases m.assemble source with
  | error e => rfl
  | ok p =>
    dsimp only
    rw [contexts_altered, loadInto_altered]

end Machine
end RegisterMachine
