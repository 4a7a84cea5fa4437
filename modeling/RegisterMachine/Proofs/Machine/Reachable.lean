import RegisterMachine.Machine.Load
import RegisterMachine.Machine.Step
import RegisterMachine.Proofs.Memory.AllocatorHistory

/-! The machines that a host can bring about.

A host creates a machine and then loads programs, attaches devices, sets vectors,
makes requests, edits the active context and main memory, and lets the machine
take steps, in any order and with any success. `Reachable` is every machine that
comes of this. What none of these actions changes is collected in `Follows`,
proved of each part of a step and of each action, and from it comes what every
reachable machine has: `Reachable.sound`. -/
namespace RegisterMachine.Machine

/-! ### What a host does -/

/-- One action of a host. It may fail; the machine is then what the failure leaves. -/
inductive HostAction where
  | loadSource (source : String)
  | load (p : Program)
  | loadInto (id : Nat) (p : Program)
  | switchContext (id : Nat)
  | setVector (i : Interrupt) (handler : UInt32)
  | attach (slot : UInt32) (device : Device)
  | detach (slot : UInt32)
  | setConsole (console : Console)
  | pause
  | resume
  | terminate
  | setYieldSuspends (suspends : Bool)
  | raise (i : Interrupt)
  /-- The host changes the active context itself. -/
  | editContext (f : Context → Context)
  /-- The host writes to main memory itself. -/
  | writeMemory (address : UInt32) (bytes : List UInt8)
  /-- Time goes by. -/
  | setClock (milliseconds : UInt32)
  | step

/-- The machine after an action of its host. -/
def act (m : Machine) : HostAction → Machine
  | .loadSource source => (m.loadSource source).1
  | .load p => (m.load p).1
  | .loadInto id p => (m.loadInto id p).1
  | .switchContext id =>
    match m.switchContext id with
    | .ok (m, _) => m
    | .error _ => m
  | .setVector i handler =>
    match m.setVector i handler with
    | .ok m => m
    | .error _ => m
  | .attach slot device =>
    match m.devices.attach slot device with
    | .ok (_, devices) => { m with devices }
    | .error _ => m
  | .detach slot => { m with devices := (m.devices.detach slot).2 }
  | .setConsole console => { m with console }
  | .pause => { m with control := m.control.pause }
  | .resume => { m with control := m.control.resume }
  | .terminate => { m with control := m.control.terminate }
  | .setYieldSuspends suspends => { m with control := m.control.setYieldSuspends suspends }
  | .raise i => { m with control := m.control.raise i }
  | .editContext f => m.modifyContext f
  | .writeMemory address bytes =>
    match m.memory.write address bytes with
    | .ok memory => { m with memory }
    | .error _ => m
  | .setClock milliseconds => { m with clock := milliseconds }
  | .step => m.step.machine

/-- The machines that a host reaches by actions of an allowed kind. -/
inductive ReachableBy (allowed : HostAction → Prop) : Machine → Prop where
  | create {config : Config} {m : Machine} {events : List Event}
    (hcreate : Machine.create config = .ok (m, events)) : ReachableBy allowed m
  | act {m : Machine} (hm : ReachableBy allowed m) (action : HostAction)
    (haction : allowed action) : ReachableBy allowed (m.act action)

/-- The machines that a host reaches by any actions. -/
abbrev Reachable : Machine → Prop := ReachableBy fun _ => True

theorem Reachable.foldl_act {m : Machine} (h : m.Reachable) (actions : List HostAction) :
    (actions.foldl act m).Reachable := by
  induction actions generalizing m with
  | nil => exact h
  | cons action rest ih => exact ih (.act h action trivial)

/-! ### What no action changes -/

/-- What may come of a machine: the configuration and the size of main memory stay, the allocator
has been called, and the attention of its control is up to date if it was. -/
structure Follows (m m' : Machine) : Prop where
  config : m'.config = m.config
  memory : m'.memory.size = m.memory.size
  allocator : ∃ calls, m'.allocator = m.allocator.run calls
  attention : m.control.attention = m.control.needsAttention →
    m'.control.attention = m'.control.needsAttention

variable {m m' m'' : Machine}

theorem Follows.refl (m : Machine) : m.Follows m := ⟨rfl, rfl, ⟨[], rfl⟩, id⟩

theorem Follows.trans (h : m.Follows m') (h' : m'.Follows m'') : m.Follows m'' := by
  obtain ⟨calls, hcalls⟩ := h.allocator
  obtain ⟨calls', hcalls'⟩ := h'.allocator
  refine ⟨h'.config.trans h.config, h'.memory.trans h.memory, ⟨calls ++ calls', ?_⟩,
    fun hm => h'.attention (h.attention hm)⟩
  rw [Allocator.run_append, ← hcalls, hcalls']

/-- Contexts, devices, console, generator, clock and the halted flag are free to change. -/
theorem follows_of_same (hconfig : m'.config = m.config) (hmemory : m'.memory = m.memory)
    (hallocator : m'.allocator = m.allocator) (hcontrol : m'.control = m.control) :
    m.Follows m' :=
  ⟨hconfig, hmemory ▸ rfl, ⟨[], hallocator⟩, fun h => hcontrol ▸ h⟩

theorem follows_memory (m : Machine) {memory : Memory} (h : memory.size = m.memory.size) :
    m.Follows { m with memory } :=
  ⟨rfl, h, ⟨[], rfl⟩, id⟩

theorem follows_allocator (m : Machine) (call : Allocator.Call) :
    m.Follows { m with allocator := m.allocator.after call } :=
  ⟨rfl, rfl, ⟨[call], rfl⟩, id⟩

theorem follows_control (m : Machine) {control : Control}
    (h : m.control.attention = m.control.needsAttention →
      control.attention = control.needsAttention) : m.Follows { m with control } :=
  ⟨rfl, rfl, ⟨[], rfl⟩, h⟩

theorem follows_modifyContext (m : Machine) (f : Context → Context) :
    m.Follows (m.modifyContext f) :=
  follows_of_same rfl rfl rfl rfl

theorem size_write {memory memory' : Memory} {address : UInt32} {bytes : List UInt8}
    (h : memory.write address bytes = .ok memory') : memory'.size = memory.size := by
  obtain ⟨start, -, rfl⟩ := map_ok_iff.mp h
  exact Memory.size_overwrite _ _ _

theorem size_fill {memory memory' : Memory} {address : UInt32} {count : Nat} {b : UInt8}
    (h : memory.fill address count b = .ok memory') : memory'.size = memory.size := by
  obtain ⟨start, -, rfl⟩ := map_ok_iff.mp h
  simp [Memory.size, Memory.putSame_eq_putBytes]

theorem size_calloc (a : Allocator) (memory : Memory) (size : Nat) :
    (a.calloc memory size).2.2.size = memory.size := by
  rw [Allocator.calloc]
  cases a.request size with
  | error e => rfl
  | ok b =>
    dsimp only
    cases hfill : memory.fill (UInt32.ofNat b.start) b.size 0 with
    | error i => rfl
    | ok memory' => exact size_fill hfill

/-! ### Steps -/

theorem follows_overwrite (m : Machine) (device : UInt32) (start : Nat) (bytes : List UInt8) :
    m.Follows (m.overwrite device start bytes) := by
  by_cases hmain : device = DeviceTable.mainMemory
  · rw [overwrite, if_pos hmain]
    exact m.follows_memory (Memory.size_overwrite _ _ _)
  · rw [overwrite, if_neg hmain]
    cases m.devices.device? device with
    | some d => exact follows_of_same rfl rfl rfl rfl
    | none => exact .refl m

theorem follows_allocate (m : Machine) (rd : Reg) (size : UInt32) :
    m.Follows (m.allocate rd size).machine := by
  rw [allocate]
  cases hok : m.allocator.malloc size.toNat with
  | error e => exact .refl m
  | ok answer =>
    have hcall : m.allocator.after (.malloc size.toNat) = answer.2 := by
      simp only [Allocator.after, hok]
    have := m.follows_allocator (.malloc size.toNat)
    rw [hcall] at this
    exact this.trans (follows_modifyContext _ _)

theorem follows_allocateCleared (m : Machine) (rd : Reg) (size : UInt32) :
    m.Follows (m.allocateCleared rd size).machine := by
  have hcalled : m.Follows
      { m with
        allocator := (m.allocator.calloc m.memory size.toNat).2.1
        memory := (m.allocator.calloc m.memory size.toNat).2.2 } :=
    (m.follows_allocator (.calloc m.memory size.toNat)).trans
      (follows_memory _ (size_calloc _ _ _))
  unfold allocateCleared
  dsimp only
  cases (m.allocator.calloc m.memory size.toNat).1 with
  | ok p => exact hcalled.trans (follows_modifyContext _ _)
  | error e => exact hcalled

theorem follows_release (m : Machine) (b : Block) : m.Follows (m.perform (.release b)).machine := by
  have hcall := m.follows_allocator (.free b)
  simp only [perform]
  cases hok : m.allocator.free b with
  | error e => exact .refl m
  | ok allocator =>
    simp only [Allocator.after, hok] at hcall
    exact hcall

theorem switchContext_ok {id : Nat} {events : List Event}
    (h : m.switchContext id = .ok (m', events)) : ∃ contexts, m' = { m with contexts } := by
  obtain ⟨⟨created, contexts⟩, -, heq⟩ := map_ok_iff.mp h
  exact ⟨contexts, (Prod.mk.inj heq).1.symm⟩

theorem attention_yield (c : Control) (h : c.attention = c.needsAttention) :
    c.yield.attention = c.yield.needsAttention := by
  by_cases hsuspends : c.yieldSuspends = true
  · rw [Control.yield, if_pos hsuspends]
    simp [Control.needsAttention]
  · rw [Control.yield, if_neg hsuspends]
    exact h

theorem follows_perform (m : Machine) (e : Effect) : m.Follows (m.perform e).machine := by
  cases e with
  | context c => exact m.follows_modifyContext _
  | halt => exact follows_of_same rfl rfl rfl rfl
  | write device start bytes => exact m.follows_overwrite device start bytes
  | allocate rd size cleared =>
    cases cleared with
    | true => exact m.follows_allocateCleared rd size
    | false => exact m.follows_allocate rd size
  | release b => exact m.follows_release b
  | switch id =>
    simp only [perform]
    split
    · rename_i m' events hok
      obtain ⟨contexts, rfl⟩ := switchContext_ok hok
      exact follows_of_same rfl rfl rfl rfl
    · exact .refl m
  | yield => exact m.follows_control (attention_yield m.control)
  | draw rd kind => cases kind <;> exact follows_of_same rfl rfl rfl rfl
  | readByte rd =>
    simp only [perform, readByte]
    split <;> exact follows_of_same rfl rfl rfl rfl
  | writeByte b =>
    simp only [perform, writeByte]
    split <;> exact follows_of_same rfl rfl rfl rfl
  | callDevice slot argument =>
    simp only [perform, callDevice]
    split <;> exact follows_of_same rfl rfl rfl rfl
  | ignore vector => exact .refl m

theorem follows_advance (m : Machine) : m.Follows m.advance := m.follows_modifyContext _

theorem follows_execute (m : Machine) (d : Decoded) : m.Follows (m.execute d).machine := by
  by_cases hholds : d.condition.holds m.context.flag = true
  · rw [execute, if_pos hholds]
    cases m.plan d with
    | error stop => exact .refl m
    | ok e => exact m.follows_perform e
  · rw [execute, if_neg hholds]
    exact .refl m

theorem follows_cycle (m : Machine) : m.Follows m.cycle.machine := by
  rw [cycle]
  cases m.fetch with
  | error i => exact .refl m
  | ok word =>
    dsimp only
    cases decode word with
    | none => exact m.follows_advance
    | some d => exact m.follows_advance.trans (follows_execute _ d)

/-- Where the handler of an interrupt begins, if there is one. -/
def handler? (m : Machine) (i : Interrupt) : Option UInt32 :=
  match m.vector i with
  | .ok word => if word = 0 then none else some (word <<< 2)
  | .error _ => none

/-- To raise an interrupt is to leave the machine as it is, which is no failure only where nothing
handles the interrupt, or to call its handler. -/
theorem raise_cases (m : Machine) (i : Interrupt) :
    (∃ answer events, m.raise i = ⟨m, answer, events⟩ ∧
        (answer = .ok () → m.handler? i = none)) ∨
      ∃ handler stack, m.handler? i = some handler ∧
        m.context.stack.pushReserved? m.context.pc = some stack ∧
        m.raise i = ⟨m.modifyContext fun c => { c with stack, pc := handler }, .ok (), []⟩ := by
  rw [raise, handler?]
  cases m.vector i with
  | error j => exact .inl ⟨_, _, rfl, nofun⟩
  | ok v =>
    dsimp only
    by_cases hv : v = 0
    · rw [if_pos hv, if_pos hv]
      split
      · exact .inl ⟨_, _, rfl, nofun⟩
      · exact .inl ⟨_, _, rfl, fun _ => rfl⟩
    · rw [if_neg hv, if_neg hv]
      cases m.context.stack.pushReserved? m.context.pc with
      | none => exact .inl ⟨_, _, rfl, nofun⟩
      | some stack => exact .inr ⟨_, stack, rfl, rfl, rfl⟩

/-- Raising an interrupt changes the program counter and the stack of the active context at
most. -/
theorem raise_changes (m : Machine) (i : Interrupt) :
    ∃ stack pc, (m.raise i).machine = m.modifyContext fun c => { c with stack, pc } := by
  have hsame : m.modifyContext (fun c =>
      { c with stack := m.context.stack, pc := m.context.pc }) = m := modifyContext_eq_self rfl
  rcases m.raise_cases i with ⟨_, _, heq, -⟩ | ⟨handler, stack, -, -, heq⟩
  · rw [heq]
    exact ⟨_, _, hsame.symm⟩
  · rw [heq]
    exact ⟨stack, handler, rfl⟩

theorem follows_raise (m : Machine) (i : Interrupt) : m.Follows (m.raise i).machine := by
  obtain ⟨stack, pc, heq⟩ := m.raise_changes i
  rw [heq]
  exact m.follows_modifyContext _

theorem machine_conclude (r : Report Unit) : (conclude r).machine = r.machine := by
  rw [conclude]
  cases r.answer <;> rfl

theorem attention_checkpoint {c control : Control} {batch : List Interrupt}
    (hproceed : c.checkpoint = .proceed control batch) (h : c.attention = c.needsAttention) :
    control.attention = control.needsAttention := by
  by_cases hattention : c.attention = true
  · rw [Control.checkpoint, if_pos hattention, Control.inspect] at hproceed
    by_cases hterminated : c.terminated = true
    · exact absurd ((if_pos hterminated).symm.trans hproceed) (by simp)
    · rw [if_neg hterminated] at hproceed
      by_cases hpaused : c.isPaused = true
      · exact absurd ((if_pos hpaused).symm.trans hproceed) (by simp)
      · rw [if_neg hpaused] at hproceed
        obtain ⟨rfl, -⟩ := Checkpoint.proceed.inj hproceed
        rfl
  · rw [Control.checkpoint, if_neg hattention] at hproceed
    obtain ⟨rfl, -⟩ := Checkpoint.proceed.inj hproceed
    exact h

section Related

/-! What raising any interrupt keeps, a delivery keeps, and a step too if a checkpoint and a cycle
do. To keep something is to stand in a relation that is reflexive and transitive. -/

variable {R : Machine → Machine → Prop} (hrefl : ∀ m, R m m)
  (htrans : ∀ {m m' m''}, R m m' → R m' m'' → R m m'')
  (hraise : ∀ m i, R m (m.raise i).machine)
include hrefl hraise

theorem related_settle (p : Progress) : R p.machine (settle p).machine := by
  rw [settle]
  cases p.stop with
  | none => exact hrefl _
  | some stop =>
    cases stop with
    | failure f => exact hrefl _
    | interrupt i => exact hraise p.machine i

include htrans

theorem related_deliver (m : Machine) (batch : List Interrupt) :
    R m (m.deliver batch).machine := by
  induction batch generalizing m with
  | nil => exact hrefl m
  | cons i rest ih =>
    simp only [deliver]
    split
    · exact hraise m i
    · exact htrans (hraise m i) (ih _)

theorem related_step (hcheckpoint : ∀ (m : Machine) {control : Control} {batch : List Interrupt},
      m.control.checkpoint = .proceed control batch → R m { m with control })
    (hcycle : ∀ m, R m m.cycle.machine) (m : Machine) : R m m.step.machine := by
  by_cases hhalted : m.halted = true
  · rw [step, if_pos hhalted]
    exact hrefl m
  · rw [step, if_neg hhalted]
    cases hproceed : m.control.checkpoint with
    | suspended => exact hrefl m
    | terminate => exact hrefl m
    | proceed control batch =>
      have hdelivered : R m ({ m with control }.deliver batch).machine :=
        htrans (hcheckpoint m hproceed) (related_deliver hrefl htrans hraise _ batch)
      dsimp only
      split
      · rw [machine_conclude]
        exact hdelivered
      · rw [machine_conclude]
        exact htrans hdelivered (htrans (hcycle _) (related_settle hrefl hraise _))

end Related

theorem follows_step (m : Machine) : m.Follows m.step.machine :=
  related_step Follows.refl Follows.trans follows_raise
    (fun m _ _ h => m.follows_control (attention_checkpoint h)) follows_cycle m

/-! ### Loading -/

theorem follows_place (m : Machine) (p : Program) : m.Follows (m.place p).1 := by
  rw [place]
  cases footprint? p with
  | none => exact .refl m
  | some block =>
    have hcall := m.follows_allocator (.claim block)
    dsimp only
    cases hclaim : m.allocator.claim block with
    | error e => exact .refl m
    | ok allocator =>
      simp only [Allocator.after, hclaim] at hcall
      dsimp only
      cases hwrite : m.memory.write p.origin p.bytes with
      | error i => exact hcall
      | ok memory =>
        have hwritten := hcall.trans (follows_memory _ (size_write hwrite))
        dsimp only
        cases hstore : memory.storeWord (UInt32.ofNat p.stop) 0 with
        | error i => exact hwritten
        | ok memory' => exact hwritten.trans (follows_memory _ (size_write hstore))

/-- Placing a program changes the allocator and main memory at most. -/
theorem place_changes (m : Machine) (p : Program) :
    ∃ allocator memory, (m.place p).1 = { m with allocator, memory } := by
  rw [place]
  cases footprint? p with
  | none => exact ⟨_, _, rfl⟩
  | some block =>
    dsimp only
    cases m.allocator.claim block with
    | error e => exact ⟨_, _, rfl⟩
    | ok allocator =>
      dsimp only
      cases m.memory.write p.origin p.bytes with
      | error i => exact ⟨_, _, rfl⟩
      | ok memory =>
        dsimp only
        cases memory.storeWord (UInt32.ofNat p.stop) 0 <;> exact ⟨_, _, rfl⟩

/-- A load into a context stops before anything is done, with the context there, or when the
program is placed and the context replaced. -/
theorem loadInto_cases (m : Machine) (id : Nat) (p : Program) :
    (m.loadInto id p).1 = m ∨
      ∃ contexts placed, m.contexts.ensure id = .ok contexts ∧
        placed = ({ m with contexts }.place p).1 ∧
        ((m.loadInto id p).1 = placed ∨ (m.loadInto id p).1 =
          { placed with
            contexts := placed.contexts.set id (placed.contextFor p), halted := false }) := by
  rw [loadInto]
  cases hensure : m.contexts.ensure id with
  | error e => exact .inl rfl
  | ok contexts =>
    refine .inr ⟨contexts, _, rfl, rfl, ?_⟩
    dsimp only
    split
    · rename_i m' e hplace
      rw [hplace]
      exact .inl rfl
    · rename_i m' hplace
      rw [hplace]
      exact .inr rfl

theorem follows_loadInto (m : Machine) (id : Nat) (p : Program) :
    m.Follows (m.loadInto id p).1 := by
  rcases m.loadInto_cases id p with heq | ⟨contexts, placed, -, hplaced, hloaded⟩
  · rw [heq]
    exact .refl m
  · have hcontexts : m.Follows { m with contexts } := follows_of_same rfl rfl rfl rfl
    have hfollows : m.Follows placed := hplaced ▸ hcontexts.trans (follows_place _ p)
    rcases hloaded with heq | heq <;> rw [heq]
    · exact hfollows
    · exact hfollows.trans (follows_of_same rfl rfl rfl rfl)

theorem follows_loadSource (m : Machine) (source : String) :
    m.Follows (m.loadSource source).1 := by
  rw [loadSource, loadSourceInto]
  cases m.assemble source with
  | error e => exact .refl m
  | ok p => exact m.follows_loadInto _ p

theorem follows_setVector {i : Interrupt} {handler : UInt32} (h : m.setVector i handler = .ok m') :
    m.Follows m' := by
  obtain ⟨memory, hstore, rfl⟩ := map_ok_iff.mp h
  exact m.follows_memory (size_write hstore)

theorem follows_setVectors (m : Machine) (p : Program) (faults : List Interrupt) :
    m.Follows (m.setVectors p faults).1 := by
  induction faults generalizing m with
  | nil => exact .refl m
  | cons i rest ih =>
    rw [setVectors]
    cases p.label? (Handler.label i) with
    | none => exact .refl m
    | some address =>
      dsimp only
      cases hset : m.setVector i (address / 4) with
      | error j => exact .refl m
      | ok m' => exact (follows_setVector hset).trans (ih m')

/-- Setting vectors changes main memory at most. -/
theorem setVectors_changes (m : Machine) (p : Program) (faults : List Interrupt) :
    ∃ memory, (m.setVectors p faults).1 = { m with memory } := by
  induction faults generalizing m with
  | nil => exact ⟨_, rfl⟩
  | cons i rest ih =>
    rw [setVectors]
    cases p.label? (Handler.label i) with
    | none => exact ⟨_, rfl⟩
    | some address =>
      dsimp only
      cases hset : m.setVector i (address / 4) with
      | error j => exact ⟨_, rfl⟩
      | ok m' =>
        obtain ⟨memory, -, rfl⟩ := map_ok_iff.mp hset
        exact ih _

/-- An installation stops before anything is done, with the handlers placed, or among their
vectors. -/
theorem install_cases (m : Machine) (assembled : Except LoadError Program) :
    (m.install assembled).1 = m ∨
      ∃ p, assembled = .ok p ∧ ((m.install assembled).1 = (m.place p).1 ∨
        (m.install assembled).1 = ((m.place p).1.setVectors p Interrupt.faults).1) := by
  cases assembled with
  | error e => exact .inl rfl
  | ok p =>
    refine .inr ⟨p, rfl, ?_⟩
    simp only [install]
    split
    · rename_i m' e hplace
      rw [hplace]
      exact .inl rfl
    · rename_i m' hplace
      rw [hplace]
      refine .inr ?_
      split
      · rename_i m'' e hvectors
        rw [hvectors]
      · rename_i m'' hvectors
        rw [hvectors]

theorem follows_install (m : Machine) (assembled : Except LoadError Program) :
    m.Follows (m.install assembled).1 := by
  rcases m.install_cases assembled with heq | ⟨p, -, heq | heq⟩ <;> rw [heq]
  · exact .refl m
  · exact m.follows_place p
  · exact (m.follows_place p).trans (follows_setVectors _ p _)

theorem follows_installHandlers (m : Machine) : m.Follows m.installHandlers.1 :=
  m.follows_install m.assembleHandlers

theorem act_switchContext (m : Machine) (id : Nat) :
    ∃ contexts, m.act (.switchContext id) = { m with contexts } := by
  simp only [act]
  split
  · rename_i hok
    obtain ⟨contexts, rfl⟩ := switchContext_ok hok
    exact ⟨contexts, rfl⟩
  · exact ⟨_, rfl⟩

theorem act_setVector (m : Machine) (i : Interrupt) (handler : UInt32) :
    ∃ memory, m.act (.setVector i handler) = { m with memory } := by
  simp only [act]
  split
  · rename_i hset
    obtain ⟨memory, -, rfl⟩ := map_ok_iff.mp hset
    exact ⟨memory, rfl⟩
  · exact ⟨_, rfl⟩

/-- Whatever its host does, a machine is followed by what comes of it. -/
theorem follows_act (m : Machine) (action : HostAction) : m.Follows (m.act action) := by
  cases action with
  | loadSource source => exact m.follows_loadSource source
  | load p => exact m.follows_loadInto _ p
  | loadInto id p => exact m.follows_loadInto id p
  | switchContext id =>
    obtain ⟨contexts, heq⟩ := m.act_switchContext id
    rw [heq]
    exact follows_of_same rfl rfl rfl rfl
  | setVector i handler =>
    simp only [act]
    split
    · rename_i m' hset
      exact follows_setVector hset
    · exact .refl m
  | attach slot device =>
    simp only [act]
    split
    · exact follows_of_same rfl rfl rfl rfl
    · exact .refl m
  | writeMemory address bytes =>
    simp only [act]
    split
    · rename_i memory hwrite
      exact m.follows_memory (size_write hwrite)
    · exact .refl m
  | editContext f => exact m.follows_modifyContext f
  | detach _ | setConsole _ | setClock _ => exact follows_of_same rfl rfl rfl rfl
  | pause | resume | terminate | setYieldSuspends _ | raise _ =>
    exact m.follows_control fun _ => rfl
  | step => exact m.follows_step

/-! ### What every reachable machine has -/

/-- The configuration is valid, main memory has the size it asks for, the allocator manages what
lies behind the vectors and its blocks are orderly, and the attention of the control is up to
date. -/
structure Sound (m : Machine) : Prop where
  valid : Memory.ValidSize m.config.memorySize
  memory : m.memory.size = m.config.memorySize
  origin : m.allocator.origin = vectorsEnd
  limit : m.allocator.limit = m.memory.size
  orderly : m.allocator.Orderly
  attention : m.control.attention = m.control.needsAttention

theorem Sound.follows (h : m.Sound) (hm : m.Follows m') : m'.Sound := by
  obtain ⟨calls, hcalls⟩ := hm.allocator
  obtain ⟨horderly, horigin, hlimit⟩ := Allocator.orderly_after_run h.orderly calls
  rw [← hcalls] at horderly horigin hlimit
  refine ⟨?_, ?_, horigin.trans h.origin, ?_, horderly, hm.attention h.attention⟩
  · rw [hm.config]
    exact h.valid
  · rw [hm.config, hm.memory]
    exact h.memory
  · rw [hlimit, hm.memory]
    exact h.limit

theorem sound_blank {config : Config} (h : config.validate = .ok ()) : (blank config).Sound := by
  have hvalid : Memory.ValidSize config.memorySize := by
    by_cases hvalid : Memory.ValidSize config.memorySize
    · exact hvalid
    · exact absurd ((if_pos hvalid).symm.trans h) (by simp)
  have hsize : (blank config).memory.size = config.memorySize := Array.size_replicate
  have hmax : config.memorySize < 2 ^ 32 :=
    Nat.lt_of_le_of_lt hvalid.2.1 (by decide)
  exact ⟨hvalid, hsize, rfl, hsize.symm,
    ⟨hmax, Allocator.apart_nil, fun _ hb => absurd hb List.not_mem_nil⟩, rfl⟩

/-- A machine is created blank or with its handlers, or with what a failure leaves of those. -/
theorem create_ok {config : Config} {events : List Event}
    (h : Machine.create config = .ok (m, events)) :
    config.validate = .ok () ∧ (m = blank config ∨ m = (blank config).installHandlers.1) := by
  cases hvalid : config.validate with
  | error e => simp [Machine.create, hvalid] at h
  | ok _ =>
    refine ⟨rfl, ?_⟩
    rw [Machine.create, hvalid] at h
    by_cases hdefault : config.defaultHandlers = true
    · refine .inr ?_
      have h := (if_pos hdefault).symm.trans h
      split at h
      · rename_i hinstall
        rw [hinstall]
        exact (Prod.mk.inj (Except.ok.inj h)).1.symm
      · rename_i hinstall
        rw [hinstall]
        exact (Prod.mk.inj (Except.ok.inj h)).1.symm
    · exact .inl (Prod.mk.inj (Except.ok.inj ((if_neg hdefault).symm.trans h))).1.symm

/-- A machine without the built-in handlers is created blank. -/
theorem create_of_plain {config : Config} (hvalid : config.validate = .ok ())
    (hplain : config.defaultHandlers = false) :
    Machine.create config = .ok (blank config, []) := by
  rw [Machine.create, hvalid]
  simp [hplain]

theorem sound_create {config : Config} {events : List Event}
    (h : Machine.create config = .ok (m, events)) : m.Sound := by
  obtain ⟨hvalid, hblank | hinstalled⟩ := create_ok h
  · rw [hblank]
    exact sound_blank hvalid
  · rw [hinstalled]
    exact (sound_blank hvalid).follows (follows_installHandlers _)

theorem ReachableBy.sound {allowed : HostAction → Prop} (h : ReachableBy allowed m) : m.Sound := by
  induction h with
  | create hcreate => exact sound_create hcreate
  | act hm action haction ih => exact ih.follows (follows_act _ action)

/-- Memory reaches as far as the allocator does, so what is allocated can be cleared. -/
theorem Sound.calloc_of_request (h : m.Sound) {size : Nat} {b : Block}
    (hrequest : m.allocator.request size = .ok b) :
    (UInt32.ofNat b.start).toNat = b.start ∧ b.start + b.size ≤ m.memory.size ∧
      m.allocator.calloc m.memory size = (.ok (Allocator.pointer b), m.allocator.register b,
        m.memory.overwrite b.start (List.replicate b.size 0)) := by
  obtain ⟨hroom, -⟩ := Allocator.room_of_request h.orderly hrequest
  have hinside := hroom.inside.2
  have hnonempty := hroom.nonempty
  have hmax := h.valid.2.1
  rw [h.limit] at hinside
  rw [← h.memory] at hmax
  unfold Memory.maxSize at hmax
  have hsize : b.size = b.stop - b.start := rfl
  have hstart : (UInt32.ofNat b.start).toNat = b.start := by
    rw [UInt32.toNat_ofNat']
    omega
  have hspan : m.memory.span (UInt32.ofNat b.start) b.size = .ok b.start := by
    rw [Memory.span_eq_ok_iff, hstart]
    omega
  refine ⟨hstart, by omega, ?_⟩
  simp only [Allocator.calloc, hrequest, Memory.fill, hspan, Except.map,
    Memory.putSame_eq_putBytes]
  rfl

end RegisterMachine.Machine
