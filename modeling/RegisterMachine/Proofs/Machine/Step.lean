import RegisterMachine.Proofs.Machine.Reachable

/-! What the parts of a step do on a sound machine.

A fetch succeeds exactly where the program counter is not rejected, every vector can
be read, and so raising an interrupt comes down to what its vector holds and to the
room on the call stack. A step that no host disturbs is one cycle (`step_of_ready`). -/
namespace RegisterMachine

namespace Control

variable {c control : Control} {batch : List Interrupt}

/-- What a checkpoint comes to, if the flag tells of all there is to look at. -/
theorem checkpoint_eq (h : c.attention = c.needsAttention) : c.checkpoint =
    if c.terminated then .terminate
    else if c.isPaused then .suspended
    else .proceed { c with pending := [], attention := false } c.pending := by
  obtain ⟨paused, yielded, terminated, yieldSuspends, pending, attention⟩ := c
  cases attention with
  | true =>
    rw [checkpoint, if_pos rfl, inspect]
    split
    · rfl
    · split
      · rfl
      · simp_all [refresh, needsAttention, isPaused]
  | false =>
    rw [needsAttention] at h
    simp only [Bool.false_eq, Bool.or_eq_false_iff, Bool.not_eq_false', List.isEmpty_iff] at h
    obtain ⟨⟨⟨rfl, rfl⟩, rfl⟩, rfl⟩ := h
    rfl

/-- A machine that goes on has no requests left. -/
theorem quiet_of_proceed (hproceed : c.checkpoint = .proceed control batch)
    (h : c.attention = c.needsAttention) : control.needsAttention = false := by
  rw [checkpoint_eq h] at hproceed
  split at hproceed
  · cases hproceed
  · rename_i hterminated
    split at hproceed
    · cases hproceed
    · rename_i hpaused
      obtain ⟨rfl, -⟩ := Checkpoint.proceed.inj hproceed
      simpa [needsAttention, isPaused, hterminated] using hpaused

end Control

namespace Machine

variable {m : Machine} {i : Interrupt} {v word : UInt32} {d : Decoded}

/-! ### Fetching -/

/-- The program counter is no address that a word is fetched from. -/
def RejectsPc (m : Machine) : Prop :=
  0x80000000 ≤ m.context.pc.toNat ∨ m.memory.size ≤ m.context.pc.toNat ∨
    m.context.pc.toNat < vectorsEnd ∨ m.context.pc.toNat % 4 ≠ 0

instance (m : Machine) : Decidable m.RejectsPc := inferInstanceAs (Decidable (_ ∨ _ ∨ _ ∨ _))

theorem loadWord_eq (memory : Memory) (address : UInt32) (htop : address.toNat < 0x80000000)
    (hend : address.toNat + 4 ≤ memory.size) : memory.loadWord address =
      .ok (UInt32.ofNat (LittleEndian.value (memory.slice address.toNat 4))) := by
  have hspan : memory.span address 4 = .ok address.toNat :=
    Memory.span_eq_ok_iff.mpr ⟨rfl, htop, hend⟩
  simp only [Memory.loadWord, Memory.load, Memory.read, hspan, Except.map]

/-- The word at an aligned address of main memory is all there, since its size is aligned too. -/
theorem fetch_eq (h : m.Sound) (hpc : ¬m.RejectsPc) :
    m.fetch = .ok (UInt32.ofNat (LittleEndian.value (m.memory.slice m.context.pc.toNat 4))) := by
  unfold RejectsPc at hpc
  obtain ⟨-, -, halign⟩ := h.valid
  rw [← h.memory] at halign
  unfold fetch
  dsimp only
  rw [if_neg (by omega), if_neg (by omega), if_neg (by omega)]
  exact loadWord_eq _ _ (by omega) (by omega)

theorem fetch_error (hpc : m.RejectsPc) : ∃ i, m.fetch = .error i := by
  unfold RejectsPc at hpc
  unfold fetch
  dsimp only
  by_cases htop : 0x80000000 ≤ m.context.pc.toNat
  · exact ⟨_, if_pos htop⟩
  · rw [if_neg htop]
    by_cases hend : m.memory.size ≤ m.context.pc.toNat
    · exact ⟨_, if_pos hend⟩
    · rw [if_neg hend, if_pos (by omega)]
      exact ⟨_, rfl⟩

theorem toNat_vector (i : Interrupt) :
    i.vector.toNat = 4 * i.index ∧ 4 * i.index + 4 ≤ vectorsEnd := by
  have hindex := i.index_lt
  unfold vectorsEnd
  exact ⟨by cases i <;> decide, by omega⟩

theorem vector_eq (hsize : vectorsEnd ≤ m.memory.size) (i : Interrupt) : m.vector i =
    .ok (UInt32.ofNat (LittleEndian.value (m.memory.slice (4 * i.index) 4))) := by
  obtain ⟨haddress, hend⟩ := toNat_vector i
  unfold vectorsEnd vectorCount at hsize hend
  rw [vector, loadWord_eq _ _ (by omega) (by omega), haddress]

/-- Every vector lies in main memory. -/
theorem vector_ok (h : m.Sound) (i : Interrupt) : ∃ v, m.vector i = .ok v := by
  have hmin := h.valid.1
  rw [← h.memory] at hmin
  have hsize : vectorsEnd ≤ m.memory.size := Nat.le_trans (by decide) hmin
  exact ⟨_, vector_eq hsize i⟩

/-! ### Behind the fetched word -/

theorem context_advance (m : Machine) :
    m.advance.context = { m.context with pc := m.context.pc + 4 } :=
  context_modifyContext m _

theorem flag_advance (m : Machine) : m.advance.context.flag = m.context.flag := by
  rw [context_advance]

theorem read_advance (m : Machine) (o : Operand) :
    m.advance.context.read o = m.context.read o := by
  rw [context_advance]
  cases o <;> rfl

/-! ### Device 0 -/

theorem space_mainMemory (m : Machine) : m.space DeviceTable.mainMemory = .ok m.memory :=
  if_pos rfl

theorem planLoad_mainMemory (m : Machine) (rd : Reg) (address : UInt32) (width : Nat) :
    m.planLoad rd DeviceTable.mainMemory address width =
      match m.memory.load address width with
      | .ok value => .ok (.context (m.context.assign rd value))
      | .error j => .error (.interrupt j) := by
  rw [planLoad, space_mainMemory]
  show ((m.memory.load address width).mapError Stop.interrupt >>= _) = _
  cases m.memory.load address width with
  | ok value => rfl
  | error j => rfl

/-- A store is checked like a write of its bytes, and then writes them. -/
theorem planStore_mainMemory (m : Machine) (address : UInt32) (width : Nat) (value : UInt32) :
    match m.memory.store address width value with
    | .ok memory => ∃ e, m.planStore DeviceTable.mainMemory address width value = .ok e ∧
      m.perform e = { m with memory }.done
    | .error j =>
      m.planStore DeviceTable.mainMemory address width value = .error (.interrupt j) := by
  have hplan : m.planStore DeviceTable.mainMemory address width value =
      ((m.memory.span address width).mapError Stop.interrupt >>= fun start =>
        .ok (.write DeviceTable.mainMemory start (LittleEndian.bytes width value.toNat))) := by
    rw [planStore, space_mainMemory]
    rfl
  rw [Memory.store, Memory.write, LittleEndian.length_bytes, hplan]
  cases m.memory.span address width with
  | ok start => exact ⟨_, rfl, congrArg done (if_pos rfl)⟩
  | error j => rfl

/-! ### Raising -/

/-- The machine with another program counter, other words on the active stack and other devices:
all that a fault can change. -/
def faulted (m : Machine) (devices : DeviceTable) (pc : UInt32) (words : List UInt32) : Machine :=
  { m.modifyContext fun c => { c with pc, stack := { c.stack with words } } with devices }

@[simp] theorem context_faulted (m : Machine) (devices : DeviceTable) (pc : UInt32)
    (words : List UInt32) : (m.faulted devices pc words).context =
      { m.context with pc, stack := { m.context.stack with words } } :=
  context_modifyContext m _

theorem faulted_faulted (m : Machine) (devices devices' : DeviceTable) (pc pc' : UInt32)
    (words words' : List UInt32) :
    (m.faulted devices pc words).faulted devices' pc' words' = m.faulted devices' pc' words' := by
  unfold faulted modifyContext
  dsimp only
  rw [ContextTable.modify_modify]

theorem faulted_self (m : Machine) :
    m.faulted m.devices m.context.pc m.context.stack.words = m := by
  have hsame : m.modifyContext (fun c =>
      { c with
        pc := m.context.pc
        stack := { c.stack with words := m.context.stack.words } }) = m :=
    modifyContext_eq_self rfl
  rw [faulted, hsame]

theorem shiftLeft_two (v : UInt32) : v <<< 2 = v * 4 := by
  apply UInt32.toNat_inj.mp
  rw [UInt32.toNat_shiftLeft, UInt32.toNat_mul, Nat.shiftLeft_eq]
  rfl

theorem handler?_of_vector (hvector : m.vector i = .ok v) :
    m.handler? i = if v = 0 then none else some (v * 4) := by
  rw [handler?, hvector, ← shiftLeft_two]

theorem raise_handled (hvector : m.vector i = .ok v) (hv : v ≠ 0)
    (hroom : m.context.stack.size < m.context.stack.capacity + 2) :
    m.raise i =
      ⟨m.faulted m.devices (v * 4) (m.context.pc :: m.context.stack.words), .ok (), []⟩ := by
  have hpush : m.context.stack.pushReserved? m.context.pc =
      some { m.context.stack with words := m.context.pc :: m.context.stack.words } :=
    if_pos hroom
  rw [raise, hvector]
  dsimp only
  rw [if_neg hv, hpush, shiftLeft_two]
  exact congrArg (fun m => Report.mk m (.ok ()) []) (modifyContext_congr rfl)

theorem raise_full (hvector : m.vector i = .ok v) (hv : v ≠ 0)
    (hfull : m.context.stack.capacity + 2 ≤ m.context.stack.size) :
    m.raise i = ⟨m, .error (.doubleFault i m.context.pc), []⟩ := by
  have hpush : m.context.stack.pushReserved? m.context.pc = none := if_neg (Nat.not_lt.mpr hfull)
  rw [raise, hvector]
  dsimp only
  rw [if_neg hv, hpush]

theorem raise_without_handler (hvector : m.vector i = .ok 0) :
    m.raise i = if i.isFault then ⟨m, .error (.unhandled i m.context.pc), []⟩
      else ⟨m, .ok (), [.dropped i]⟩ := by
  rw [raise, hvector]
  exact if_pos rfl

/-! ### Undisturbed steps -/

/-- The machine runs, and its host asks for nothing. -/
structure Ready (m : Machine) : Prop where
  sound : m.Sound
  running : m.halted = false
  quiet : m.control.needsAttention = false

theorem Ready.checkpoint (h : m.Ready) : m.control.checkpoint = .proceed m.control [] := by
  have hattention : m.control.attention = false := h.sound.attention.trans h.quiet
  rw [Control.checkpoint, hattention]
  rfl

/-- An undisturbed step is one cycle. -/
theorem step_of_ready (h : m.Ready) : m.step = conclude (settle m.cycle) := by
  have hnot : ¬m.halted = true := by simp [h.running]
  rw [step, if_neg hnot, h.checkpoint]
  rfl

/-- A cycle without an interrupt or a failure is the whole step. -/
theorem step_of_done (h : m.Ready) (hdone : m.cycle.stop = none)
    (hstill : m.cycle.machine.halted = false) :
    m.step.machine = m.cycle.machine ∧ m.step.answer = .ok .running := by
  rw [step_of_ready h]
  rw [settle, hdone]
  unfold conclude
  dsimp only
  exact ⟨rfl, by simp [hstill]⟩

theorem cycle_of_fetch (hfetch : m.fetch = .ok word) (hdecode : decode word = some d) :
    m.cycle.machine = (m.advance.execute d).machine ∧
      m.cycle.stop = (m.advance.execute d).stop := by
  rw [cycle, hfetch]
  dsimp only
  rw [hdecode]
  exact ⟨rfl, rfl⟩

/-! ### What a step executes -/

/-- Nothing keeps the machine from its next instruction, and what the host raised, once it is
delivered, makes it `m'`. -/
structure Arrives (m m' : Machine) : Prop where
  running : m.halted = false
  delivered : ∃ control batch, m.control.checkpoint = .proceed control batch ∧
    ({ m with control }.deliver batch).answer = .ok () ∧
    m' = ({ m with control }.deliver batch).machine

/-- The word at the program counter is this instruction, and its condition is met. -/
structure Executes (m : Machine) (d : Decoded) : Prop where
  fetched : ∃ word, m.fetch = .ok word ∧ decode word = some d
  holds : d.condition.holds m.context.flag = true

theorem arrives_of_ready {m' : Machine} (h : m.Ready) : m.Arrives m' ↔ m' = m := by
  constructor
  · rintro ⟨-, control, batch, hproceed, -, rfl⟩
    obtain ⟨rfl, rfl⟩ := Checkpoint.proceed.inj (h.checkpoint.symm.trans hproceed)
    rfl
  · rintro rfl
    exact ⟨h.running, _, [], h.checkpoint, rfl, rfl⟩

/-- What a machine executes is found by evaluation. -/
theorem exists_executes {j : Instruction} (h : (m.fetch.toOption.bind decode).map
    (fun d => (d.instruction, d.condition.holds m.context.flag)) = some (j, true)) :
    ∃ d, m.Executes d ∧ d.instruction = j := by
  obtain ⟨d, hd, heq⟩ := Option.map_eq_some_iff.mp h
  obtain ⟨word, hword, hdecode⟩ := Option.bind_eq_some_iff.mp hd
  obtain ⟨hj, hholds⟩ := Prod.mk.inj heq
  exact ⟨d, ⟨⟨word, ok_of_toOption hword, hdecode⟩, hholds⟩, hj⟩

/-- What was planned, carried out. -/
def attempt (m : Machine) (plan : Except Stop Effect) : Progress :=
  match plan with
  | .ok e => m.perform e
  | .error stop => ⟨m, some stop, []⟩

/-- A cycle that executes an instruction carries out its plan. -/
theorem Executes.cycle (h : m.Executes d) :
    m.cycle.machine = (m.advance.attempt (m.advance.plan d)).machine ∧
      m.cycle.stop = (m.advance.attempt (m.advance.plan d)).stop := by
  obtain ⟨⟨word, hfetch, hdecode⟩, hholds⟩ := h
  have hexecute : m.advance.execute d = m.advance.attempt (m.advance.plan d) := by
    rw [execute, flag_advance, if_pos hholds]
    cases m.advance.plan d <;> rfl
  rw [← hexecute]
  exact cycle_of_fetch hfetch hdecode

theorem Executes.halts (h : m.Executes d) (hhalt : d.instruction = .halt) :
    (settle m.cycle).machine = { m.advance with halted := true } ∧
      (settle m.cycle).answer = .ok () := by
  have hplan : m.advance.plan d = .ok .halt := by simp only [plan, hhalt]
  obtain ⟨hmachine, hstop⟩ := h.cycle
  rw [hplan] at hmachine hstop
  rw [settle, hstop, hmachine]
  exact ⟨rfl, rfl⟩

theorem Executes.settle_cycle (h : m.Executes d) :
    (settle m.cycle).machine = (settle (m.advance.attempt (m.advance.plan d))).machine := by
  obtain ⟨hmachine, hstop⟩ := h.cycle
  rw [settle, settle, hstop, hmachine]
  cases (m.advance.attempt (m.advance.plan d)).stop with
  | none => rfl
  | some stop => cases stop <;> rfl

/-- What moving the program counter keeps, and what performing the plan of the instruction keeps,
a cycle keeps. -/
theorem related_cycle {R : Machine → Machine → Prop} (hrefl : ∀ m, R m m)
    (htrans : ∀ {m m' m''}, R m m' → R m' m'' → R m m'') (hadvance : R m m.advance)
    (hperform : ∀ d e, m.Executes d → m.advance.plan d = .ok e →
      R m.advance (m.advance.perform e).machine) : R m m.cycle.machine := by
  rw [cycle]
  cases hfetch : m.fetch with
  | error i => exact hrefl m
  | ok word =>
    dsimp only
    cases hdecode : decode word with
    | none => exact hadvance
    | some d =>
      refine htrans hadvance ?_
      dsimp only
      rw [execute]
      split
      · rename_i hholds
        rw [flag_advance] at hholds
        cases hplan : m.advance.plan d with
        | error stop => exact hrefl _
        | ok e => exact hperform d e ⟨⟨word, hfetch, hdecode⟩, hholds⟩ hplan
      · exact hrefl _

/-- A step executes an instruction, or it ends with the requests of the host. -/
theorem step_cases (m : Machine) :
    (∃ m', m.Arrives m' ∧ m.step.machine = (settle m'.cycle).machine) ∨ m.step.machine = m ∨
      ∃ control batch, m.control.checkpoint = .proceed control batch ∧
        m.step.machine = ({ m with control }.deliver batch).machine := by
  by_cases hhalted : m.halted = true
  · rw [step, if_pos hhalted]
    exact .inr (.inl rfl)
  · have hrunning : m.halted = false := by simpa using hhalted
    rw [step, if_neg hhalted]
    cases hcheckpoint : m.control.checkpoint with
    | suspended => exact .inr (.inl rfl)
    | terminate => exact .inr (.inl rfl)
    | proceed control batch =>
      dsimp only
      cases hanswer : ({ m with control }.deliver batch).answer with
      | error f =>
        refine .inr (.inr ⟨control, batch, rfl, ?_⟩)
        exact machine_conclude _
      | ok _ =>
        refine .inl ⟨_, ⟨hrunning, control, batch, hcheckpoint, hanswer, rfl⟩, ?_⟩
        exact machine_conclude _

theorem step_of_proceed {control : Control} {batch : List Interrupt} {delivered : Report Unit}
    (hrunning : m.halted = false) (hcheckpoint : m.control.checkpoint = .proceed control batch)
    (hdelivered : ({ m with control } : Machine).deliver batch = delivered) :
    m.step = match delivered.answer with
      | .error _ => conclude delivered
      | .ok () => conclude { settle delivered.machine.cycle with
          events := delivered.events ++ (settle delivered.machine.cycle).events } := by
  rw [step, if_neg (by simp [hrunning]), hcheckpoint]
  dsimp only
  rewrite [hdelivered]
  rfl

/-- A step that gets to its instruction is a cycle behind what was delivered. -/
theorem step_of_arrives {m' : Machine} (h : m.Arrives m') :
    m.step.machine = (settle m'.cycle).machine := by
  obtain ⟨hrunning, control, batch, hcheckpoint, hanswer, rfl⟩ := h
  rw [step_of_proceed hrunning hcheckpoint rfl, hanswer]
  exact machine_conclude _

theorem answer_conclude {r : Report Unit} (h : (conclude r).answer = .error f) :
    r.answer = .error f := by
  rw [conclude] at h
  cases hanswer : r.answer with
  | error f' =>
    rw [hanswer] at h
    rw [Except.error.inj h]
  | ok _ =>
    rw [hanswer] at h
    cases h

/-- Where a step fails, the delivery of what the host raised does, or what comes of the
instruction. -/
theorem step_error {f : Failure} (hfails : m.step.answer = .error f) : m.halted = false ∧
    ∃ control batch, m.control.checkpoint = .proceed control batch ∧
      let delivered := ({ m with control } : Machine).deliver batch
      delivered.answer = .error f ∧ m.step.machine = delivered.machine ∨
      delivered.answer = .ok () ∧ (settle delivered.machine.cycle).answer = .error f ∧
        m.step.machine = (settle delivered.machine.cycle).machine := by
  have hrunning : m.halted = false := by
    by_contra hhalted
    rw [step, if_pos (by simpa using hhalted)] at hfails
    cases hfails
  refine ⟨hrunning, ?_⟩
  cases hcheckpoint : m.control.checkpoint with
  | suspended | terminate =>
    rw [step, if_neg (by simp [hrunning]), hcheckpoint] at hfails
    cases hfails
  | proceed control batch =>
    refine ⟨control, batch, rfl, ?_⟩
    have hstep := step_of_proceed hrunning hcheckpoint rfl
    dsimp only
    cases hdelivered : ({ m with control }.deliver batch).answer with
    | error f' =>
      rw [hdelivered] at hstep
      rw [hstep] at hfails ⊢
      exact .inl ⟨hdelivered.symm.trans (answer_conclude hfails), machine_conclude _⟩
    | ok answer =>
      cases answer
      rw [hdelivered] at hstep
      rw [hstep] at hfails ⊢
      have hsettled := answer_conclude hfails
      exact .inr ⟨rfl, hsettled, machine_conclude _⟩

/-- What changed requests keep, and what raising an interrupt keeps, stays up to the next
instruction. -/
theorem Arrives.related {R : Machine → Machine → Prop} (hrefl : ∀ m, R m m)
    (htrans : ∀ {m m' m''}, R m m' → R m' m'' → R m m'')
    (hcheckpoint : ∀ (m : Machine) {control : Control} {batch : List Interrupt},
      m.control.checkpoint = .proceed control batch → R m { m with control })
    (hraise : ∀ m i, R m (m.raise i).machine) {m' : Machine} (h : m.Arrives m') : R m m' := by
  obtain ⟨-, control, batch, hproceed, -, rfl⟩ := h
  exact htrans (hcheckpoint m hproceed) (related_deliver hrefl htrans hraise _ batch)

theorem Arrives.follows {m' : Machine} (h : m.Arrives m') : m.Follows m' :=
  h.related Follows.refl Follows.trans
    (fun m _ _ hproceed => m.follows_control (attention_checkpoint hproceed)) follows_raise

/-- The instruction that the next step executes, if it comes to one. -/
def upcoming (m : Machine) : Option Decoded :=
  if m.halted then none
  else
    match m.control.checkpoint with
    | .proceed control batch =>
      let delivered := ({ m with control } : Machine).deliver batch
      match delivered.answer with
      | .ok () => (delivered.machine.fetch.toOption.bind decode).filter fun d =>
          d.condition.holds delivered.machine.context.flag
      | .error _ => none
    | _ => none

theorem upcoming_of_executes {m' : Machine} (h : m.Arrives m') (hd : m'.Executes d) :
    m.upcoming = some d := by
  obtain ⟨hrunning, control, batch, hcheckpoint, hanswer, rfl⟩ := h
  obtain ⟨⟨word, hfetch, hdecode⟩, hholds⟩ := hd
  rw [upcoming, if_neg (by simp [hrunning]), hcheckpoint]
  dsimp only
  rw [hanswer]
  dsimp only
  rw [hfetch, toOption_ok, Option.bind_some, hdecode]
  exact Option.filter_some_pos hholds

theorem executes_of_upcoming (h : m.upcoming = some d) : ∃ m', m.Arrives m' ∧ m'.Executes d := by
  rw [upcoming] at h
  split at h
  · exact absurd h (by simp)
  · rename_i hrunning
    split at h
    · rename_i control batch hcheckpoint
      dsimp only at h
      split at h
      · rename_i hanswer
        obtain ⟨hfetched, hholds⟩ := Option.filter_eq_some_iff.mp h
        obtain ⟨word, hword, hdecode⟩ := Option.bind_eq_some_iff.mp hfetched
        exact ⟨_, ⟨by simpa using hrunning, control, batch, hcheckpoint, hanswer, rfl⟩,
          ⟨word, ok_of_toOption hword, hdecode⟩, hholds⟩
      · exact absurd h (by simp)
    · exact absurd h (by simp)

end Machine
end RegisterMachine
