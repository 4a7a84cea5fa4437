import RegisterMachine.Proofs.Machine.Planning

/-! Faults are precise.

Whatever stops an instruction with an interrupt, in its fetch, its decoding or its
execution, stops it before it has changed anything: the machine is the one before
the step, but for its program counter and for the device that a `CALL` has called
(`cycle_of_interrupt`). What the step makes of it then depends on the vector and
on the room on the call stack alone, which `step_of_fault` puts together. -/
namespace RegisterMachine.Machine

variable {m : Machine} {i : Interrupt}

/-- Where a handler of a fault returns to: the next word, or the program counter itself if nothing
could be fetched from there. -/
def returnAddress (m : Machine) : UInt32 :=
  if m.RejectsPc then m.context.pc else m.context.pc + 4

/-- The devices after an instruction: only a `CALL` changes one, the one that it calls, and not if
that is plain memory. -/
def CallChanges (t : DeviceTable) (d : Decoded) (t' : DeviceTable) : Prop :=
  t' = t ∨ d.instruction = .call ∧
    (∃ device, t.device? d.imm = some device ∧ device.isPlain = false) ∧
    ∀ slot, slot ≠ d.imm → t'.slot? slot = t.slot? slot

/-- The devices after the instruction at the program counter, if there is one. -/
def OnlyCalled (m : Machine) (devices : DeviceTable) : Prop :=
  devices = m.devices ∨
    ∃ word d, m.fetch = .ok word ∧ decode word = some d ∧ CallChanges m.devices d devices

/-! ### Performing -/

theorem calloc_of_error (h : m.Sound) {size : Nat} {e : AllocatorError}
    (herror : (m.allocator.calloc m.memory size).1 = .error e) :
    m.allocator.calloc m.memory size = (.error e, m.allocator, m.memory) := by
  cases hrequest : m.allocator.request size with
  | error e' =>
    rw [Allocator.calloc, hrequest] at herror ⊢
    rw [Except.error.inj herror]
  | ok b =>
    obtain ⟨-, -, hok⟩ := h.calloc_of_request hrequest
    exact absurd (herror.symm.trans (congrArg Prod.fst hok)) (by simp)

/-- An allocation that fails leaves the machine as it was. -/
theorem allocateCleared_of_stop (h : m.Sound) {rd : Reg} {size : UInt32} {stop : Stop}
    (hstop : (m.allocateCleared rd size).stop = some stop) :
    (m.allocateCleared rd size).machine = m := by
  cases hanswer : (m.allocator.calloc m.memory size.toNat).1 with
  | ok p => simp [allocateCleared, hanswer, done] at hstop
  | error e =>
    rw [allocateCleared, calloc_of_error h hanswer]

theorem allocate_of_stop {rd : Reg} {size : UInt32} {stop : Stop}
    (hstop : (m.allocate rd size).stop = some stop) : (m.allocate rd size).machine = m := by
  cases hanswer : m.allocator.malloc size.toNat with
  | ok answer => simp [allocate, hanswer, done] at hstop
  | error e => rw [allocate, hanswer]

/-- An effect that ends in an interrupt has changed nothing, unless it is the call of a device. -/
theorem perform_of_interrupt (h : m.Sound) {e : Effect}
    (hstop : (m.perform e).stop = some (.interrupt i)) :
    (m.perform e).machine = m ∨ ∃ slot argument, e = .callDevice slot argument ∧
      (m.devices.invoke slot argument).2 = .error (.fault i) ∧
      (m.perform e).machine = { m with devices := (m.devices.invoke slot argument).1 } := by
  cases e with
  | allocate rd size cleared =>
    refine .inl ?_
    cases cleared with
    | true => exact allocateCleared_of_stop h hstop
    | false => exact allocate_of_stop hstop
  | release b =>
    simp only [perform] at hstop ⊢
    split at hstop
    · exact absurd hstop (by simp [done])
    · exact .inl rfl
  | switch id =>
    simp only [perform] at hstop ⊢
    split at hstop
    · exact absurd hstop (by simp)
    · exact .inl rfl
  | callDevice slot argument =>
    refine .inr ⟨slot, argument, rfl, ?_⟩
    simp only [perform, callDevice] at hstop ⊢
    split at hstop
    · exact absurd hstop (by simp [done])
    · rename_i j hfault
      obtain rfl : j = i := by simpa using hstop
      rw [hfault]
      exact ⟨rfl, rfl⟩
    · exact absurd hstop (by simp)
  | draw rd kind => cases kind <;> exact absurd hstop (by simp [perform, done])
  | readByte rd =>
    simp only [perform, readByte] at hstop
    split at hstop <;> exact absurd hstop (by simp [done])
  | writeByte b =>
    simp only [perform, writeByte] at hstop
    split at hstop <;> exact absurd hstop (by simp [done])
  | context _ | halt | write _ _ _ | yield | ignore _ =>
    exact absurd hstop (by simp [perform, done])

/-! ### The instruction that stops -/

theorem returnAddress_of_error (h : m.Sound) {j : Interrupt} (hfetch : m.fetch = .error j) :
    m.returnAddress = m.context.pc := by
  by_cases hpc : m.RejectsPc
  · exact if_pos hpc
  · exact absurd (hfetch.symm.trans (fetch_eq h hpc)) (by simp)

theorem returnAddress_of_ok {word : UInt32} (hfetch : m.fetch = .ok word) :
    m.returnAddress = m.context.pc + 4 := by
  apply if_neg
  intro hpc
  obtain ⟨j, hj⟩ := fetch_error hpc
  exact absurd (hfetch.symm.trans hj) (by simp)

/-- An instruction that is stopped after its fetch has moved the program counter. -/
theorem advance_eq_faulted {word : UInt32} (hfetch : m.fetch = .ok word) :
    m.advance = m.faulted m.devices m.returnAddress m.context.stack.words := by
  rw [returnAddress_of_ok hfetch]
  exact modifyContext_congr rfl

/-- An instruction that ends in an interrupt has changed nothing but the device that it calls. -/
theorem execute_of_interrupt (h : m.Sound) {d : Decoded}
    (hstop : (m.execute d).stop = some (.interrupt i)) :
    ∃ devices, CallChanges m.devices d devices ∧ (m.execute d).machine = { m with devices } := by
  rw [execute] at hstop ⊢
  by_cases hholds : d.condition.holds m.context.flag
  · rw [if_pos hholds] at hstop ⊢
    cases hplan : m.plan d with
    | error stop => exact ⟨m.devices, .inl rfl, rfl⟩
    | ok e =>
      simp only [hplan] at hstop
      rcases perform_of_interrupt h hstop with hsame | ⟨slot, argument, rfl, hfault, hcalled⟩
      · exact ⟨m.devices, .inl rfl, hsame⟩
      · obtain ⟨hcall, rfl⟩ := plan_callDevice hplan
        have hdevice := DeviceTable.device?_of_invoke_fault hfault
        exact ⟨_, .inr ⟨hcall, hdevice, fun _ => m.devices.slot?_invoke_of_ne argument⟩, hcalled⟩
  · rw [if_neg hholds] at hstop
    exact absurd hstop (by simp [done])

/-- A cycle that ends in an interrupt leaves all but the program counter and the device that was
called. -/
theorem cycle_of_interrupt (h : m.Sound) (hstop : m.cycle.stop = some (.interrupt i)) :
    ∃ devices, m.OnlyCalled devices ∧
      m.cycle.machine = m.faulted devices m.returnAddress m.context.stack.words := by
  rw [cycle] at hstop ⊢
  cases hfetch : m.fetch with
  | error j =>
    refine ⟨m.devices, .inl rfl, ?_⟩
    rw [returnAddress_of_error h hfetch]
    exact m.faulted_self.symm
  | ok word =>
    have hadvance := advance_eq_faulted hfetch
    simp only [hfetch] at hstop ⊢
    cases hdecode : decode word with
    | none => exact ⟨m.devices, .inl rfl, hadvance⟩
    | some d =>
      simp only [hdecode] at hstop
      obtain ⟨devices, hchanges, hmachine⟩ :=
        execute_of_interrupt (h.follows m.follows_advance) hstop
      refine ⟨devices, .inr ⟨word, d, hfetch, hdecode, hchanges⟩, hmachine.trans ?_⟩
      rw [hadvance]
      rfl

/-! ### The step -/

theorem step_of_interrupt (h : m.Ready) (hstop : m.cycle.stop = some (.interrupt i)) :
    m.step.machine = (m.cycle.machine.raise i).machine ∧
      m.step.answer = (m.cycle.machine.raise i).answer.map fun () =>
        if (m.cycle.machine.raise i).machine.halted then .halted else .running := by
  rw [step_of_ready h]
  rw [settle, hstop]
  unfold conclude
  dsimp only
  cases (m.cycle.machine.raise i).answer with
  | error f => exact ⟨rfl, rfl⟩
  | ok _ => exact ⟨rfl, rfl⟩

/-- What a step makes of a fault. Nothing but the program counter, the call stack and a called
device has changed, and the vector `v` decides how the machine goes on. -/
structure FaultOutcome (m : Machine) (i : Interrupt) (v : UInt32) (devices : DeviceTable) :
    Prop where
  vector : m.vector i = .ok v
  called : m.OnlyCalled devices
  handled : v ≠ 0 → m.context.stack.size < m.context.stack.capacity + 2 →
    m.step.machine = m.faulted devices (v * 4) (m.returnAddress :: m.context.stack.words) ∧
      m.step.answer = .ok .running
  full : v ≠ 0 → m.context.stack.capacity + 2 ≤ m.context.stack.size →
    m.step.machine = m.faulted devices m.returnAddress m.context.stack.words ∧
      m.step.answer = .error (.doubleFault i m.returnAddress)
  unhandled : v = 0 → i.isFault →
    m.step.machine = m.faulted devices m.returnAddress m.context.stack.words ∧
      m.step.answer = .error (.unhandled i m.returnAddress)
  dropped : v = 0 → ¬i.isFault →
    m.step.machine = m.faulted devices m.returnAddress m.context.stack.words ∧
      m.step.answer = .ok .running

/-- **Faults are precise.** Where an undisturbed step of a reachable machine stops its instruction
with an interrupt, it has changed nothing but the program counter, the call stack and the device
that a `CALL` has called. -/
theorem step_of_fault (hreach : m.Reachable) (hrunning : m.halted = false)
    (hquiet : m.control.needsAttention = false) (hstop : m.cycle.stop = some (.interrupt i)) :
    ∃ v devices, m.FaultOutcome i v devices := by
  have h := hreach.sound
  obtain ⟨v, hvector⟩ := vector_ok h i
  obtain ⟨devices, hdevices, hcycle⟩ := cycle_of_interrupt h hstop
  obtain ⟨hmachine, hanswer⟩ := step_of_interrupt ⟨h, hrunning, hquiet⟩ hstop
  rw [hcycle] at hmachine hanswer
  have hvector' : (m.faulted devices m.returnAddress m.context.stack.words).vector i = .ok v :=
    hvector
  have hstill : ∀ pc words, ¬(m.faulted devices pc words).halted = true := by
    intro pc words
    simp [faulted, modifyContext, hrunning]
  refine ⟨v, devices, hvector, hdevices, ?_, ?_, ?_, ?_⟩
  · intro hv hroom
    rw [raise_handled hvector' hv (by rw [context_faulted]; exact hroom)] at hmachine hanswer
    rw [context_faulted, faulted_faulted] at hmachine hanswer
    exact ⟨hmachine, hanswer.trans (congrArg Except.ok (if_neg (hstill _ _)))⟩
  · intro hv hfull
    rw [raise_full hvector' hv (by rw [context_faulted]; exact hfull)] at hmachine hanswer
    rw [context_faulted] at hanswer
    exact ⟨hmachine, hanswer⟩
  · intro hv hfault
    rw [hv] at hvector'
    rw [raise_without_handler hvector', if_pos hfault] at hmachine hanswer
    rw [context_faulted] at hanswer
    exact ⟨hmachine, hanswer⟩
  · intro hv hsignal
    rw [hv] at hvector'
    rw [raise_without_handler hvector', if_neg hsignal] at hmachine hanswer
    exact ⟨hmachine, hanswer.trans (congrArg Except.ok (if_neg (hstill _ _)))⟩

/-- The smallest machine, with a handler for segmentation faults and no program. -/
def unprogrammed : Machine :=
  (blank ⟨512, 1, false, false, 0⟩).act (.setVector .segmentationFault 40)

/-- The smallest machine, with a handler for divisions by zero and about to divide by zero. -/
def dividingByZero : Machine :=
  ((blank ⟨512, 1, false, false, 0⟩).act (.setVector .divideByZero 40)).act
    (.loadSource "divint r1, r1, r2;")

/-- Nothing is fetched from the program counter zero, and a division by zero is fetched but does not
divide: both handlers are called, the one to return to the same place, the other behind the
division. -/
theorem step_of_fault_unprogrammed :
    (unprogrammed.cycle.stop = some (.interrupt .segmentationFault) ∧
      unprogrammed.step.answer = .ok .running ∧
      unprogrammed.step.machine = unprogrammed.faulted unprogrammed.devices 160 [0]) ∧
    dividingByZero.cycle.stop = some (.interrupt .divideByZero) ∧
      dividingByZero.step.answer = .ok .running ∧
      dividingByZero.step.machine = dividingByZero.faulted dividingByZero.devices 160 [100] := by
  have hcreate : Machine.create ⟨512, 1, false, false, 0⟩ =
      .ok (blank ⟨512, 1, false, false, 0⟩, []) := rfl
  constructor
  · have hreach : unprogrammed.Reachable :=
      .act (.create hcreate) (.setVector .segmentationFault 40) trivial
    have hstop : unprogrammed.cycle.stop = some (.interrupt .segmentationFault) := by
      decide +kernel
    obtain ⟨v, devices, h⟩ := step_of_fault hreach (by decide +kernel) (by decide +kernel) hstop
    have hvector : (unprogrammed.vector .segmentationFault).toOption = some 40 := by
      decide +kernel
    rw [h.vector] at hvector
    obtain rfl := Option.some.inj hvector
    obtain ⟨hmachine, hanswer⟩ := h.handled (by decide) (by decide +kernel)
    have hrejects : unprogrammed.RejectsPc := by decide +kernel
    obtain ⟨j, hfetch⟩ := fetch_error hrejects
    have hdevices : devices = unprogrammed.devices := by
      rcases h.called with hsame | ⟨word, d, hword, -⟩
      · exact hsame
      · exact absurd (hfetch.symm.trans hword) (by simp)
    have hreturn : unprogrammed.returnAddress = 0 := by decide +kernel
    have hwords : unprogrammed.context.stack.words = [] := by decide +kernel
    rw [hdevices, hreturn, hwords] at hmachine
    exact ⟨hstop, hanswer, hmachine⟩
  · have hreach : dividingByZero.Reachable :=
      .act (.act (.create hcreate) _ trivial) _ trivial
    have hstop : dividingByZero.cycle.stop = some (.interrupt .divideByZero) := by decide +kernel
    obtain ⟨v, devices, h⟩ := step_of_fault hreach (by decide +kernel) (by decide +kernel) hstop
    have hvector : (dividingByZero.vector .divideByZero).toOption = some 40 := by decide +kernel
    rw [h.vector] at hvector
    obtain rfl := Option.some.inj hvector
    obtain ⟨hmachine, hanswer⟩ := h.handled (by decide) (by decide +kernel)
    have hnext : (dividingByZero.fetch.toOption.bind decode).map Decoded.instruction =
        some .divInt := by decide +kernel
    have hdevices : devices = dividingByZero.devices := by
      rcases h.called with hsame | ⟨word, d, hword, hd, hsame | ⟨hcall, -⟩⟩
      · exact hsame
      · exact hsame
      · rw [hword, toOption_ok, Option.bind_some, hd, Option.map_some, hcall] at hnext
        exact absurd hnext (by decide)
    have hreturn : dividingByZero.returnAddress = 100 := by decide +kernel
    have hwords : dividingByZero.context.stack.words = [] := by decide +kernel
    rw [hdevices, hreturn, hwords] at hmachine
    exact ⟨hstop, hanswer, hmachine⟩

end RegisterMachine.Machine
