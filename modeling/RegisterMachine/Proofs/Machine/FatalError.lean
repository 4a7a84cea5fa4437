import RegisterMachine.Proofs.Machine.DeviceTable
import RegisterMachine.Proofs.Machine.Invariant
import RegisterMachine.Proofs.Machine.Planning

/-! Why a step fails.

What goes wrong in an instruction is in most cases an interrupt, which the program can
handle. What is left has few causes: an instruction addresses a device that is not
there (`plan_failure`), a device or the console fails (`perform_failure`), or an
interrupt cannot be delivered (`raise_failure`). `Grounds` puts them together for a
whole step, with what the host raised in front of the instruction, and `step_failure`
proves that there are no others. -/
namespace RegisterMachine

/-- The instruction addresses the device with this number. A `CALL` reaches the device in any slot;
to every other instruction device 0 is main memory. -/
def Decoded.Addresses (d : Decoded) (c : Context) (slot : UInt32) : Prop :=
  match d.instruction with
  | .call => slot = d.imm
  | .memSize => slot = d.imm ∧ slot ≠ DeviceTable.mainMemory
  | .memcpy =>
    (slot = c.read (d.operand 0) ∨ slot = c.read (d.operand 1)) ∧ slot ≠ DeviceTable.mainMemory
  | .loadByte | .loadHword | .loadWord | .storeByte | .storeHword | .storeWord =>
    slot = c.read (d.operand 2) ∧ slot ≠ DeviceTable.mainMemory
  | _ => False

namespace Machine

variable {P : Failure → Prop} {m m' : Machine} {d : Decoded} {e : Effect} {f : Failure}
  {i : Interrupt} {device : UInt32}

/-! ### Planning -/

/-- If this plan ends in a failure, it is one of this kind. -/
def Fails (P : Failure → Prop) (plan : Except Stop Effect) : Prop :=
  ∀ f, plan = .error (.failure f) → P f

theorem fails_ok (e : Effect) : Fails P (.ok e) := nofun

theorem fails_interrupt (i : Interrupt) : Fails P (.error (.interrupt i)) := nofun

theorem fails_onContext (x : Except Interrupt Context) : Fails P (onContext x) := by
  cases x <;> exact nofun

/-- A check that ends in an interrupt adds no failure. -/
theorem fails_check {α : Type} {x : Except Interrupt α} {k : α → Except Stop Effect}
    (h : ∀ a, Fails P (k a)) : Fails P (x.mapError Stop.interrupt >>= k) := by
  cases x with
  | ok a => exact h a
  | error i => exact fails_interrupt i

theorem space_failure (h : m.space device = .error f) : f = .unattached device ∧
    device ≠ DeviceTable.mainMemory ∧ m.devices.device? device = none := by
  by_cases hmain : device = DeviceTable.mainMemory
  · rw [space, if_pos hmain] at h
    cases h
  · rw [space, if_neg hmain] at h
    split at h
    · cases h
    · rename_i hnone
      exact ⟨(Except.error.inj h).symm, hmain, hnone⟩

/-- The device is there, or the failure says that it is not. -/
theorem fails_space {k : Memory → Except Stop Effect}
    (hnone : device ≠ DeviceTable.mainMemory → m.devices.device? device = none →
      P (.unattached device)) (h : ∀ space, Fails P (k space)) :
    Fails P ((m.space device).mapError Stop.failure >>= k) := by
  cases hspace : m.space device with
  | ok space => exact h space
  | error f =>
    obtain ⟨rfl, hmain, hempty⟩ := space_failure hspace
    rintro _ ⟨⟩
    exact hnone hmain hempty

section Device

variable (h : device ≠ DeviceTable.mainMemory → m.devices.device? device = none →
  P (.unattached device))
include h

theorem fails_planLoad (rd : Reg) (address : UInt32) (width : Nat) :
    Fails P (m.planLoad rd device address width) :=
  fails_space h fun _ => fails_check fun _ => fails_ok _

theorem fails_planStore (address : UInt32) (width : Nat) (value : UInt32) :
    Fails P (m.planStore device address width value) :=
  fails_space h fun _ => fails_check fun _ => fails_ok _

theorem fails_planSize (rd : Reg) : Fails P (m.planSize rd device) := by
  rw [planSize]
  split
  · exact fails_ok _
  · exact fails_space h fun _ => fails_ok _

theorem fails_planCopy {source : UInt32} (hsource : source ≠ DeviceTable.mainMemory →
      m.devices.device? source = none → P (.unattached source)) (count start target : UInt32) :
    Fails P (m.planCopy device source count start target) :=
  fails_space hsource fun _ => fails_check fun _ =>
    fails_space h fun _ => fails_check fun _ => fails_ok _

end Device

theorem fails_planAllocation (m : Machine) (rd : Reg) (size : UInt32) (cleared : Bool) :
    Fails P (m.planAllocation rd size cleared) := by
  rw [planAllocation]
  cases m.allocator.request size.toNat with
  | ok b => exact fails_ok _
  | error e => exact fails_interrupt _

theorem fails_planRelease (m : Machine) (address size : UInt32) :
    Fails P (m.planRelease address size) := by
  rw [planRelease]
  cases wordAlign size.toNat with
  | none => exact fails_interrupt _
  | some aligned =>
    dsimp only
    split
    · exact fails_ok _
    · exact fails_interrupt _

theorem fails_planInterrupt (vector : UInt32) : Fails P (planInterrupt vector) := by
  rw [planInterrupt]
  split
  · exact fails_interrupt _
  · cases Interrupt.ofIndex? vector.toNat with
    | none => exact fails_ok _
    | some i => exact fails_interrupt i

/-- The failure says that a device which the instruction addresses is not there. -/
def Misses (m : Machine) (d : Decoded) (f : Failure) : Prop :=
  ∃ slot, f = .unattached slot ∧ d.Addresses m.context slot ∧ m.devices.device? slot = none

/-- No check of an instruction fails but that for the devices which it addresses. -/
theorem plan_failure (m : Machine) (d : Decoded) : Fails (m.Misses d) (m.plan d) := by
  have hmain : DeviceTable.mainMemory ≠ DeviceTable.mainMemory →
      m.devices.device? DeviceTable.mainMemory = none →
        m.Misses d (.unattached DeviceTable.mainMemory) :=
    fun h => absurd rfl h
  cases hi : d.instruction <;> simp only [plan, hi, Arithmetic.result]
  case call =>
    split
    · exact fails_ok _
    · rename_i hnone
      rintro _ ⟨⟩
      exact ⟨d.imm, rfl, by rw [Decoded.Addresses, hi], hnone⟩
  case ctxsw =>
    split
    · exact fails_ok _
    · exact fails_interrupt _
  case cmp | cmpIf | cmpFi | cmpFf | push | pushWordI | pop | popWordI | ret | jsr | jsrI =>
    exact fails_onContext _
  case loadByte | loadHword | loadWord =>
    refine fails_planLoad (fun hne hnone => ⟨_, rfl, ?_, hnone⟩) _ _ _
    rw [Decoded.Addresses, hi]
    exact ⟨rfl, hne⟩
  case storeByte | storeHword | storeWord =>
    refine fails_planStore (fun hne hnone => ⟨_, rfl, ?_, hnone⟩) _ _ _
    rw [Decoded.Addresses, hi]
    exact ⟨rfl, hne⟩
  case memcpy =>
    refine fails_planCopy (fun hne hnone => ⟨_, rfl, ?_, hnone⟩)
      (fun hne hnone => ⟨_, rfl, ?_, hnone⟩) _ _ _
    · rw [Decoded.Addresses, hi]
      exact ⟨.inl rfl, hne⟩
    · rw [Decoded.Addresses, hi]
      exact ⟨.inr rfl, hne⟩
  case memSize =>
    refine fails_planSize (fun hne hnone => ⟨_, rfl, ?_, hnone⟩) _
    rw [Decoded.Addresses, hi]
    exact ⟨rfl, hne⟩
  case loadWordIMem => exact fails_planLoad hmain _ _ _
  case storeByteI | storeHwordI | storeWordIMem => exact fails_planStore hmain _ _ _
  case malloc | calloc => exact fails_planAllocation m _ _ _
  case free => exact fails_planRelease m _ _
  case int => exact fails_planInterrupt _
  -- what is left checks nothing that could fail, or only what its operands are
  all_goals
    first
      | exact fails_ok _
      | exact fails_onContext _

/-! ### Performing -/

theorem allocate_stop_ne (m : Machine) (rd : Reg) (size : UInt32) (f : Failure) :
    (m.allocate rd size).stop ≠ some (.failure f) := by
  rw [allocate]
  split <;> simp [done]

theorem allocateCleared_stop_ne (m : Machine) (rd : Reg) (size : UInt32) (f : Failure) :
    (m.allocateCleared rd size).stop ≠ some (.failure f) := by
  unfold allocateCleared
  dsimp only
  split <;> simp [done]

/-- No effect fails but where the console or the device that it calls does. -/
theorem perform_failure (h : (m.perform e).stop = some (.failure f)) :
    (∃ rd error, e = .readByte rd ∧ f = .stream error ∧ m.console.read.1 = .error error) ∨
      (∃ b error, e = .writeByte b ∧ f = .stream error ∧
        (m.console.write b).1 = .error error) ∨
      ∃ slot argument error, e = .callDevice slot argument ∧ f = .device slot error ∧
        (m.devices.invoke slot argument).2 = .error error ∧ ∀ i, error ≠ .fault i := by
  cases e with
  | readByte rd =>
    simp only [perform, readByte] at h
    split at h
    · exact absurd h (by simp [done])
    · rename_i error console hread
      obtain rfl : Failure.stream error = f := by simpa using h
      exact .inl ⟨rd, error, rfl, rfl, by rw [hread]⟩
  | writeByte b =>
    simp only [perform, writeByte] at h
    split at h
    · exact absurd h (by simp [done])
    · rename_i error console hwrite
      obtain rfl : Failure.stream error = f := by simpa using h
      exact .inr (.inl ⟨b, error, rfl, rfl, by rw [hwrite]⟩)
  | callDevice slot argument =>
    simp only [perform, callDevice] at h
    split at h
    · exact absurd h (by simp [done])
    · exact absurd h (by simp)
    · rename_i error hfault hanswer
      obtain rfl : Failure.device slot error = f := by simpa using h
      exact .inr (.inr ⟨slot, argument, error, rfl, rfl, hanswer, fun i heq => hfault i heq⟩)
  | allocate rd size cleared =>
    cases cleared with
    | true => exact absurd h (m.allocateCleared_stop_ne rd size f)
    | false => exact absurd h (m.allocate_stop_ne rd size f)
  | release b =>
    simp only [perform] at h
    split at h <;> exact absurd h (by simp [done])
  | switch id =>
    simp only [perform] at h
    split at h <;> exact absurd h (by simp)
  | draw rd kind => cases kind <;> exact absurd h (by simp [perform, done])
  | context _ | halt | write _ _ _ | yield | ignore _ =>
    exact absurd h (by simp [perform, done])

/-! ### One instruction -/

/-- What goes wrong in the execution of an instruction that no handler is called for. -/
inductive Breaks (m : Machine) (d : Decoded) : Failure → Prop where
  /-- The instruction addresses a device that is not there. -/
  | unattached {slot : UInt32} (haddresses : d.Addresses m.context slot)
    (hempty : m.devices.device? slot = none) : Breaks m d (.unattached slot)
  /-- The device that the instruction calls answers with an error that is no fault. -/
  | device {device : Device} {error : DeviceError} (hcall : d.instruction = .call)
    (hdevice : m.devices.device? d.imm = some device)
    (hanswer : (device.call (m.context.registers.get (d.reg 0))).2 = .error error)
    (hfault : ∀ i, error ≠ .fault i) : Breaks m d (.device d.imm error)
  | input {error : StreamError} (hread : d.instruction = .getchar)
    (hanswer : m.console.read.1 = .error error) : Breaks m d (.stream error)
  | output {error : StreamError} (hwrite : d.instruction = .putchar)
    (hanswer : (m.console.write (m.context.read (d.operand 0)).toUInt8).1 = .error error) :
    Breaks m d (.stream error)

theorem plan_call (m : Machine) (h : d.instruction = .call) : m.plan d =
    match m.devices.device? d.imm with
    | some _ => .ok (.callDevice d.imm (m.context.registers.get (d.reg 0)))
    | none => .error (.failure (.unattached d.imm)) := by
  cases hdevice : m.devices.device? d.imm <;> simp only [plan, h, hdevice]

theorem breaks_of_plan (hplan : m.plan d = .error (.failure f)) : m.Breaks d f := by
  obtain ⟨slot, rfl, haddresses, hempty⟩ := m.plan_failure d f hplan
  exact .unattached haddresses hempty

theorem breaks_of_perform (hplan : m.plan d = .ok e)
    (hstop : (m.perform e).stop = some (.failure f)) : m.Breaks d f := by
  have hfrom := m.plan_from d e hplan
  rcases perform_failure hstop with ⟨rd, error, rfl, rfl, hread⟩ | ⟨b, error, rfl, rfl, hwrite⟩ |
    ⟨slot, argument, error, rfl, rfl, hinvoke, hfault⟩
  · exact .input hfrom hread
  · have hputchar : d.instruction = .putchar := hfrom
    simp only [plan, hputchar] at hplan
    obtain rfl := Effect.writeByte.inj (Except.ok.inj hplan)
    exact .output hputchar hwrite
  · obtain ⟨hcall, rfl⟩ := hfrom
    rw [m.plan_call hcall] at hplan
    split at hplan
    · rename_i device hdevice
      obtain ⟨-, rfl⟩ := Effect.callDevice.inj (Except.ok.inj hplan)
      rw [DeviceTable.invoke_snd hdevice] at hinvoke
      exact .device hcall hdevice hinvoke hfault
    · cases hplan

/-- Where the execution of an instruction ends in a failure, its grounds are those of the machine
at that instruction. -/
theorem Executes.breaks (h : m.Executes d) (hstop : m.cycle.stop = some (.failure f)) :
    m.Breaks d f := by
  rw [h.cycle.2] at hstop
  have hbreaks : m.advance.Breaks d f := by
    cases hplan : m.advance.plan d with
    | error stop =>
      rw [hplan] at hstop
      obtain rfl := Option.some.inj hstop
      exact breaks_of_plan hplan
    | ok e =>
      rw [hplan] at hstop
      exact breaks_of_perform hplan hstop
  -- only the program counter has moved, which nothing of this looks at
  cases hbreaks with
  | unattached haddresses hempty =>
    refine .unattached ?_ hempty
    unfold Decoded.Addresses at haddresses ⊢
    simp only [read_advance] at haddresses
    exact haddresses
  | device hcall hdevice hanswer hfault =>
    rw [context_advance] at hanswer
    exact .device hcall hdevice hanswer hfault
  | input hread hanswer => exact .input hread hanswer
  | output hwrite hanswer =>
    rw [read_advance] at hanswer
    exact .output hwrite hanswer

/-- A failure of a cycle is one of the instruction that it executes. -/
theorem executes_of_failure (hstop : m.cycle.stop = some (.failure f)) : ∃ d, m.Executes d := by
  rw [cycle] at hstop
  cases hfetch : m.fetch with
  | error i => simp [hfetch] at hstop
  | ok word =>
    cases hdecode : decode word with
    | none => simp [hfetch, hdecode] at hstop
    | some d =>
      refine ⟨d, ⟨word, hfetch, hdecode⟩, ?_⟩
      by_contra hholds
      simp [hfetch, hdecode, execute, flag_advance, hholds, done] at hstop

/-! ### Delivery -/

/-- Why the step fails in which an interrupt is raised. -/
inductive Undeliverable (m : Machine) : Failure → Prop where
  | unhandled {i : Interrupt} (hfault : i.index ≤ 5) (hvector : m.vector i = .ok 0) :
    Undeliverable m (.unhandled i m.context.pc)
  | doubleFault {i : Interrupt} {v : UInt32} (hvector : m.vector i = .ok v) (hv : v ≠ 0)
    (hfull : m.context.stack.size = m.context.stack.capacity + 2) :
    Undeliverable m (.doubleFault i m.context.pc)

/-- The stack of each context is within its reserve. -/
def StacksWithin (m : Machine) : Prop := m.contexts.Each fun c => c.stack.WithinReserve

theorem raise_failure (h : m.Sound) (hstacks : m.StacksWithin)
    (hanswer : (m.raise i).answer = .error f) : (m.raise i).machine.Undeliverable f := by
  -- a vector can always be read, so that the failure of its access is none of the grounds
  obtain ⟨v, hvector⟩ := vector_ok h i
  by_cases hv : v = 0
  · subst hv
    rw [raise_without_handler hvector] at hanswer ⊢
    by_cases hfault : i.isFault = true
    · rw [if_pos hfault] at hanswer ⊢
      obtain rfl := Except.error.inj hanswer
      exact .unhandled (by simpa [Interrupt.isFault] using hfault) hvector
    · rw [if_neg hfault] at hanswer
      cases hanswer
  · by_cases hroom : m.context.stack.size < m.context.stack.capacity + 2
    · rw [raise_handled hvector hv hroom] at hanswer
      cases hanswer
    · have hfull := Nat.not_lt.mp hroom
      rw [raise_full hvector hv hfull] at hanswer ⊢
      obtain rfl := Except.error.inj hanswer
      exact .doubleFault hvector hv (Nat.le_antisymm hstacks.current hfull)

theorem stacksWithin_raise (h : m.StacksWithin) (i : Interrupt) :
    (m.raise i).machine.StacksWithin :=
  each_raise Context.lasting_withinReserve h i

theorem follows_deliver (m : Machine) (batch : List Interrupt) :
    m.Follows (m.deliver batch).machine :=
  related_deliver Follows.refl Follows.trans follows_raise m batch

theorem stacksWithin_deliver (h : m.StacksWithin) (batch : List Interrupt) :
    (m.deliver batch).machine.StacksWithin :=
  related_deliver (R := fun m m' => m.StacksWithin → m'.StacksWithin) (fun _ h => h)
    (fun h h' hm => h' (h hm)) (fun _ i h => stacksWithin_raise h i) m batch h

theorem deliver_failure (h : m.Sound) (hstacks : m.StacksWithin) {batch : List Interrupt}
    (hanswer : (m.deliver batch).answer = .error f) :
    (m.deliver batch).machine.Undeliverable f := by
  induction batch generalizing m with
  | nil => cases hanswer
  | cons i rest ih =>
    rw [deliver] at hanswer ⊢
    cases hraise : (m.raise i).answer with
    | error f' =>
      simp only [hraise] at hanswer ⊢
      obtain rfl := Except.error.inj hanswer
      exact raise_failure h hstacks hraise
    | ok _ =>
      simp only [hraise] at hanswer ⊢
      exact ih (h.follows (m.follows_raise i)) (stacksWithin_raise hstacks i) hanswer

/-! ### Whole steps -/

/-- Why a step fails: an interrupt cannot be delivered, or the instruction breaks. -/
inductive Grounds (m : Machine) (f : Failure) : Prop where
  | undeliverable (h : m.step.machine.Undeliverable f)
  | breaks {m' : Machine} {d : Decoded} (harrives : m.Arrives m') (hexecutes : m'.Executes d)
    (hbreaks : m'.Breaks d f)

theorem settle_failure (h : m.Sound) (hstacks : m.StacksWithin)
    (hanswer : (settle m.cycle).answer = .error f) :
    (settle m.cycle).machine.Undeliverable f ∨ ∃ d, m.Executes d ∧ m.Breaks d f := by
  rw [settle] at hanswer ⊢
  cases hstop : m.cycle.stop with
  | none =>
    rw [hstop] at hanswer
    cases hanswer
  | some stop =>
    rw [hstop] at hanswer
    cases stop with
    | failure f' =>
      obtain rfl := Except.error.inj hanswer
      obtain ⟨d, hexecutes⟩ := executes_of_failure hstop
      exact .inr ⟨d, hexecutes, hexecutes.breaks hstop⟩
    | interrupt i =>
      have hcycle : m.cycle.machine.StacksWithin :=
        hstacks.evolves Context.lasting_withinReserve m.evolves_cycle
      exact .inl (raise_failure (h.follows m.follows_cycle) hcycle hanswer)

/-- What a host can do to a call stack: it can push words and pop them, but a stack never takes more
of them than its capacity and the reserve. -/
abbrev KeepsStacks : HostAction → Prop := HostAction.Keeps fun c => c.stack.WithinReserve

/-- **Only fatal conditions reach the host.** Where a step of a reachable machine fails, a fault was
raised whose vector holds zero, an interrupt was raised on a stack without room, or the instruction
addresses a device that is not there, calls a device that answers with an error, or finds the
console failing. -/
theorem step_failure (hreach : ReachableBy KeepsStacks m) (hfails : m.step.answer = .error f) :
    m.Grounds f := by
  have hsound := hreach.sound
  have hstacks : m.StacksWithin := hreach.each Context.lasting_withinReserve
  obtain ⟨hrunning, control, batch, hcheckpoint, hcases⟩ := step_error hfails
  have hrequests : ({ m with control } : Machine).Sound :=
    hsound.follows (m.follows_control (attention_checkpoint hcheckpoint))
  rcases hcases with ⟨hdelivered, hmachine⟩ | ⟨hdelivered, hsettled, hmachine⟩
  · refine .undeliverable ?_
    rw [hmachine]
    exact deliver_failure hrequests hstacks hdelivered
  · have harrived := hrequests.follows (follows_deliver { m with control } batch)
    have hwithin := stacksWithin_deliver (m := { m with control }) hstacks batch
    rcases settle_failure harrived hwithin hsettled with h | ⟨d, hd, hbreaks⟩
    · refine .undeliverable ?_
      rw [hmachine]
      exact h
    · exact .breaks ⟨hrunning, control, batch, hcheckpoint, hdelivered, rfl⟩ hd hbreaks

/-- A program of one instruction, the call of the device in slot 7, which is not there. -/
def callingNothing : Machine :=
  ((blank ⟨512, 1, false, false, 0⟩).act (.writeMemory 96 [0x07, 0x00, 0x00, 0x1E])).act
    (.editContext fun c => c.jump 96)

theorem step_failure_callingNothing :
    callingNothing.step.answer = .error (.unattached 7) ∧
      callingNothing.Grounds (.unattached 7) := by
  have hcreate :
      Machine.create ⟨512, 1, false, false, 0⟩ = .ok (blank ⟨512, 1, false, false, 0⟩, []) :=
    create_of_plain rfl rfl
  have hreach : ReachableBy KeepsStacks callingNothing :=
    .act (.act (.create hcreate) _ trivial) _ fun _ h => h
  have hfails : callingNothing.step.answer = .error (.unattached 7) := by decide +kernel
  exact ⟨hfails, step_failure hreach hfails⟩

end Machine
end RegisterMachine
