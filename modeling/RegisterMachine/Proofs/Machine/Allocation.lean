import RegisterMachine.Proofs.Machine.Footprint
import RegisterMachine.Proofs.Machine.Invariant
import RegisterMachine.Proofs.Memory.BestFit

/-! Allocating and freeing in a program.

A `MALLOC` or `CALLOC` finds a block that was free or is out of memory, and the machine's own bounds
see to it that what is found can be cleared (`allocation_step`). A `FREE` names a block by its
address and by the size that was asked for, rounded up like the size of an allocation
(`release_step`). Nothing else takes a block away (`mem_act`), so whatever a program or the host
does between an allocation and its `FREE`, the block is there to be freed
(`allocated_until_freed`). -/
namespace RegisterMachine

open Allocator (Rounds)

/-- In this context the instruction is a `FREE` of the block. -/
structure Decoded.Frees (d : Decoded) (c : Context) (b : Block) : Prop where
  instruction : d.instruction = .free
  start : b.start = (c.read (d.operand 0)).toNat
  size : Rounds (c.read (d.operand 1)).toNat b.size

namespace Machine

variable {m m' m'' : Machine} {d : Decoded} {e : Effect} {i : Interrupt} {b : Block}

/-! ### What a step comes to -/

/-- Nothing has changed but the requests of the host, the program counter and the call stack. -/
def OnlyEnters (m m' : Machine) : Prop :=
  ∃ control stack pc, m' = { m.modifyContext fun c => { c with stack, pc } with control }

theorem onlyEnters_of_modify {stack : CallStack} {pc : UInt32}
    (h : m' = m.modifyContext fun c => { c with stack, pc }) : m.OnlyEnters m' :=
  ⟨m.control, stack, pc, h⟩

theorem onlyEnters_control (m : Machine) (control : Control) :
    m.OnlyEnters { m with control } := by
  have hsame : m.modifyContext (fun c =>
      { c with stack := m.context.stack, pc := m.context.pc }) = m := modifyContext_eq_self rfl
  exact ⟨control, m.context.stack, m.context.pc, by rw [hsame]⟩

theorem OnlyEnters.refl (m : Machine) : m.OnlyEnters m := m.onlyEnters_control m.control

theorem OnlyEnters.trans (h : m.OnlyEnters m') (h' : m'.OnlyEnters m'') : m.OnlyEnters m'' := by
  obtain ⟨control, stack, pc, rfl⟩ := h
  obtain ⟨control', stack', pc', rfl⟩ := h'
  refine ⟨control', stack', pc', ?_⟩
  unfold modifyContext
  dsimp only
  rw [ContextTable.modify_modify]

theorem onlyEnters_raise (m : Machine) (i : Interrupt) : m.OnlyEnters (m.raise i).machine := by
  obtain ⟨stack, pc, heq⟩ := m.raise_changes i
  exact onlyEnters_of_modify heq

theorem onlyEnters_advance (m : Machine) : m.OnlyEnters m.advance :=
  onlyEnters_of_modify (modifyContext_congr rfl)

theorem Arrives.onlyEnters (h : m.Arrives m') : m.OnlyEnters m' :=
  h.related OnlyEnters.refl OnlyEnters.trans (fun m control _ _ => m.onlyEnters_control control)
    onlyEnters_raise

theorem OnlyEnters.halted (h : m.OnlyEnters m') : m'.halted = m.halted := by
  obtain ⟨control, stack, pc, rfl⟩ := h
  rfl

/-- What the instruction of a step works on. -/
theorem arrival_of_upcoming (h : m.Sound) (hnext : m.upcoming = some d) :
    ∃ m', m.Arrives m' ∧ m'.Executes d ∧ m'.advance.Sound ∧ m.Agrees m'.advance ∧
      m'.advance.halted = false := by
  obtain ⟨m', harrives, hexecutes⟩ := executes_of_upcoming hnext
  exact ⟨m', harrives, hexecutes, h.follows (harrives.follows.trans m'.follows_advance),
    harrives.agrees.trans m'.agrees_advance,
    (harrives.onlyEnters.trans m'.onlyEnters_advance).halted.trans harrives.running⟩

/-- The step raises this interrupt in the place of its instruction. Behind the interrupts of the
host, the instruction itself has changed nothing but the program counter. -/
structure Refuses (m : Machine) (i : Interrupt) : Prop where
  raised : ∃ m', m.Arrives m' ∧ m'.cycle.stop = some (.interrupt i) ∧
    m'.cycle.machine = m'.advance ∧ m.step.machine = (m'.advance.raise i).machine
  rest : m.OnlyEnters m.step.machine

theorem refuses_of_plan (h : m.Arrives m') (hd : m'.Executes d)
    (hplan : m'.advance.plan d = .error (.interrupt i)) : m.Refuses i := by
  obtain ⟨hmachine, hstop⟩ := hd.cycle
  rw [hplan] at hmachine hstop
  have hmachine : m'.cycle.machine = m'.advance := hmachine
  have hstop : m'.cycle.stop = some (.interrupt i) := hstop
  have hstep : m.step.machine = (m'.advance.raise i).machine := by
    rw [step_of_arrives h, settle, hstop, hmachine]
  refine ⟨⟨m', h, hstop, hmachine, hstep⟩, ?_⟩
  rw [hstep]
  exact h.onlyEnters.trans (m'.onlyEnters_advance.trans (m'.advance.onlyEnters_raise i))

/-- A plan that is carried out is all that its step does behind the interrupts of the host. -/
theorem step_of_perform (h : m.Arrives m') (hd : m'.Executes d) (hplan : m'.advance.plan d = .ok e)
    {performed : Machine} (hperform : m'.advance.perform e = performed.done)
    (hrunning : performed.halted = false) :
    m.step.machine = performed ∧ m.step.answer = .ok .running := by
  have hcycle : m'.cycle.machine = performed ∧ m'.cycle.stop = none := by
    obtain ⟨hmachine, hstop⟩ := hd.cycle
    rw [hplan] at hmachine hstop
    have hattempt : m'.advance.attempt (.ok e) = performed.done := hperform
    rw [hattempt] at hmachine hstop
    exact ⟨hmachine, hstop⟩
  obtain ⟨hmachine, hstop⟩ := hcycle
  obtain ⟨hnot, control, batch, hcheckpoint, hanswer, rfl⟩ := h
  rw [step_of_proceed hnot hcheckpoint rfl, hanswer]
  dsimp only
  rw [settle, hstop, hmachine]
  exact ⟨rfl, congrArg Except.ok (if_neg (by simp [hrunning]))⟩

/-! ### Allocating -/

/-- What an allocation of this block leaves. -/
def allocated (m : Machine) (rd : Reg) (cleared : Bool) (b : Block) : Machine :=
  { m with
    allocator := m.allocator.register b
    memory := if cleared then m.memory.overwrite b.start (List.replicate b.size 0)
      else m.memory }.assign rd (UInt32.ofNat b.start)

theorem perform_allocate (h : m.Sound) {size : UInt32}
    (hrequest : m.allocator.request size.toNat = .ok b) (rd : Reg) (cleared : Bool) :
    m.perform (.allocate rd size cleared) = (m.allocated rd cleared b).done := by
  cases cleared with
  | true =>
    obtain ⟨-, -, hcalloc⟩ := h.calloc_of_request hrequest
    show m.allocateCleared rd size = _
    rw [allocateCleared, hcalloc]
    rfl
  | false =>
    have hmalloc : m.allocator.malloc size.toNat =
        .ok (Allocator.pointer b, m.allocator.register b) := by
      rw [Allocator.malloc, hrequest]
      rfl
    show m.allocate rd size = _
    rw [allocate, hmalloc]
    rfl

/-- A request that fails finds no room at all. -/
theorem not_room_of_request (h : m.Sound) {size : Nat} {error : AllocatorError}
    (hrequest : m.allocator.request size = .error error) (hsize : Rounds size b.size) :
    ¬m.allocator.Room b := by
  intro hroom
  obtain ⟨start, hfit⟩ := (Allocator.fit_ok_iff h.orderly hsize).mpr ⟨b, hroom, rfl⟩
  rw [Allocator.request_eq hsize, hfit] at hrequest
  cases hrequest

/-- Every byte after an allocation: those of a cleared block are zero, and no other has changed. -/
theorem getElem?_allocated (hend : b.start + b.size ≤ m.memory.size) (rd : Reg) (cleared : Bool)
    (k : Nat) : (m.allocated rd cleared b).memory.cells[k]? =
      if cleared ∧ b.start ≤ k ∧ k < b.start + b.size then some 0 else m.memory.cells[k]? := by
  cases cleared with
  | false => rfl
  | true =>
    have hcell := Memory.getElem?_putBytes m.memory.cells b.start (List.replicate b.size 0) k
      (by rw [List.length_replicate]; exact hend)
    rw [List.length_replicate] at hcell
    refine hcell.trans ?_
    by_cases hinside : b.start ≤ k ∧ k < b.start + b.size
    · rw [if_pos hinside, if_pos ⟨rfl, hinside⟩, List.getElem?_replicate, if_pos (by omega)]
    · rw [if_neg hinside, if_neg fun hand => hinside hand.2]

/-- The step allocates this block: as many bytes as the instruction asks for, rounded up, behind the
vectors, and free until now. -/
structure Allocates (m : Machine) (d : Decoded) (b : Block) : Prop where
  size : Rounds (m.context.read (d.operand 1)).toNat b.size
  inside : vectorsEnd ≤ b.start ∧ b.stop ≤ m.memory.size
  added : m.allocator.Adds b m.step.machine.allocator
  address : (UInt32.ofNat b.start).toNat = b.start
  registers : m.step.machine.context.registers =
    (m.context.assign (d.reg 0) (UInt32.ofNat b.start)).registers
  memory : ∀ k, m.step.machine.memory.cells[k]? =
    if d.instruction = .calloc ∧ b.start ≤ k ∧ k < b.stop then some 0 else m.memory.cells[k]?
  answer : m.step.answer = .ok .running

theorem plan_allocation (hd : d.instruction = .malloc ∨ d.instruction = .calloc) :
    m.plan d = m.planAllocation (d.reg 0) (m.context.read (d.operand 1))
      (d.instruction = .calloc) := by
  rcases hd with hi | hi <;> simp [plan, hi]

/-- The two outcomes of an allocation. -/
theorem allocation_step (h : m.Sound) (hnext : m.upcoming = some d)
    (hd : d.instruction = .malloc ∨ d.instruction = .calloc) :
    (m.Refuses .outOfMemory ∧
        ∀ b : Block, Rounds (m.context.read (d.operand 1)).toNat b.size → ¬m.allocator.Room b) ∨
      ∃ b, m.Allocates d b := by
  obtain ⟨m', harrives, hexecutes, hsound, hagrees, hrunning⟩ := arrival_of_upcoming h hnext
  have hplan := plan_allocation (m := m'.advance) hd
  rw [read_of_agrees hagrees, planAllocation] at hplan
  cases hrequest :
      m'.advance.allocator.request (m.context.read (d.operand 1)).toNat with
  | error error =>
    rw [hrequest] at hplan
    refine .inl ⟨refuses_of_plan harrives hexecutes hplan, fun b hsize => ?_⟩
    rw [← hagrees.allocator]
    exact not_room_of_request hsound hrequest hsize
  | ok b =>
    rw [hrequest] at hplan
    obtain ⟨hroom, hrounds⟩ := Allocator.room_of_request hsound.orderly hrequest
    obtain ⟨haddress, hend, -⟩ := hsound.calloc_of_request hrequest
    have hpos := hroom.nonempty
    have hstop : b.start + b.size = b.stop := Nat.add_sub_of_le (Nat.le_of_lt hpos)
    obtain ⟨hstep, hanswer⟩ := step_of_perform harrives hexecutes hplan
      (perform_allocate hsound hrequest _ _) hrunning
    refine .inr ⟨b, hrounds, ⟨hsound.origin ▸ hroom.inside.1, ?_⟩, ?_, haddress, ?_, ?_, hanswer⟩
    · rw [← hagrees.memory, ← hstop]
      exact hend
    · rw [hstep, ← hagrees.allocator]
      exact Allocator.adds_register hroom
    · rw [hstep]
      refine (congrArg Context.registers (context_modifyContext _ _)).trans ?_
      exact congrArg (fun registers : Registers => registers.set (d.reg 0) _ (d.reg 0).isLt)
        hagrees.registers
    · intro k
      rw [hstep, getElem?_allocated hend, hagrees.memory, hstop]
      simp only [decide_eq_true_eq]

/-! ### Freeing -/

/-- The step frees this block. Behind the interrupts of the host it changes nothing else but the
program counter. -/
structure Releases (m : Machine) (b : Block) : Prop where
  removed : m.allocator.Removes b m.step.machine.allocator
  rest : m.OnlyEnters { m.step.machine with allocator := m.allocator }
  answer : m.step.answer = .ok .running

/-- A release goes by the block that is named, even where its size cannot be rounded up to a 32-bit
number: no block is that large. -/
theorem planRelease_eq (h : m.Sound) {address size : UInt32} (hstart : b.start = address.toNat)
    (hsize : Rounds size.toNat b.size) : m.planRelease address size =
      if b ∈ m.allocator.blocks then .ok (.release b)
      else .error (.interrupt .segmentationFault) := by
  have hdef : b.size = b.stop - b.start := rfl
  rw [planRelease, Allocator.wordAlign_eq hsize]
  by_cases hlt : b.size < UInt32.size
  · have hpos := hsize.2.1
    have hnamed : (⟨address.toNat, address.toNat + b.size⟩ : Block) = b := by
      rw [← hstart, show b.start + b.size = b.stop by omega]
    rw [if_pos hlt]
    dsimp only
    rw [hnamed]
  · have hnot : b ∉ m.allocator.blocks := by
      intro hb
      have hmax : UInt32.size = 2 ^ 32 := rfl
      have hlimit := h.orderly.limit_lt
      have hinside := (h.orderly.inside b hb).2
      omega
    rw [if_neg hlt, if_neg hnot]

theorem plan_release (hd : d.instruction = .free) : m.plan d =
    m.planRelease (m.context.read (d.operand 0)) (m.context.read (d.operand 1)) := by
  simp only [plan, hd]

/-- A `FREE` names one block. -/
theorem exists_frees (hd : d.instruction = .free) (c : Context) : ∃ b, d.Frees c b := by
  obtain ⟨n, hn⟩ := Allocator.exists_rounds (c.read (d.operand 1)).toNat
  refine ⟨⟨(c.read (d.operand 0)).toNat, (c.read (d.operand 0)).toNat + n⟩, hd, rfl, ?_⟩
  rw [Block.size, Nat.add_sub_cancel_left]
  exact hn

/-- The two outcomes of a `FREE`. -/
theorem release_step (h : m.Sound) (hnext : m.upcoming = some d) (hd : d.Frees m.context b) :
    if b ∈ m.allocator.blocks then m.Releases b else m.Refuses .segmentationFault := by
  obtain ⟨m', harrives, hexecutes, hsound, hagrees, hrunning⟩ := arrival_of_upcoming h hnext
  have hplan := plan_release (m := m'.advance) hd.instruction
  rw [read_of_agrees hagrees, read_of_agrees hagrees, planRelease_eq hsound hd.start hd.size,
    hagrees.allocator] at hplan
  by_cases hb : b ∈ m.allocator.blocks
  · rw [if_pos hb] at hplan ⊢
    have hfree : m'.advance.allocator.free b =
        .ok { m'.advance.allocator with blocks := m'.advance.allocator.blocks.erase b } :=
      if_pos (hagrees.allocator ▸ hb)
    have hperform : m'.advance.perform (.release b) = done { m'.advance with
        allocator := { m'.advance.allocator with
          blocks := m'.advance.allocator.blocks.erase b } } := by
      simp only [perform, hfree]
    obtain ⟨hstep, hanswer⟩ := step_of_perform harrives hexecutes hplan hperform
      hrunning
    refine ⟨?_, ?_, hanswer⟩ <;> rw [hstep]
    · rw [← hagrees.allocator] at hb ⊢
      exact Allocator.removes_erase hsound.orderly hb
    · rw [← hagrees.allocator]
      exact harrives.onlyEnters.trans m'.onlyEnters_advance
  · rw [if_neg hb] at hplan ⊢
    exact refuses_of_plan harrives hexecutes hplan

/-! ### Blocks that stay -/

/-- The next step frees this block, if it is there. -/
def Frees (m : Machine) (b : Block) : Prop := ∃ d, m.upcoming = some d ∧ d.Frees m.context b

/-- None of these actions, one after the other, is a step that frees this block. -/
def NeverFrees (m : Machine) (b : Block) : List HostAction → Prop
  | [] => True
  | action :: rest => (action = .step → ¬m.Frees b) ∧ (m.act action).NeverFrees b rest

theorem frees_of_plan (h : m.plan d = .ok (.release b)) : d.Frees m.context b := by
  have hd : d.instruction = .free := m.plan_from d _ h
  rw [plan_release hd, planRelease] at h
  split at h
  · cases h
  · rename_i aligned haligned
    dsimp only at h
    split at h
    · obtain rfl := Effect.release.inj (Except.ok.inj h)
      refine ⟨hd, rfl, ?_⟩
      rw [Block.size, Nat.add_sub_cancel_left]
      exact Allocator.rounds_wordAlign haligned
    · cases h

/-- All that an effect makes of the allocator: it hands out a block, takes one back or leaves it. -/
theorem allocator_perform (m : Machine) (e : Effect) :
    (m.perform e).machine.allocator = m.allocator ∨
      (∃ c size, m.allocator.request size = .ok c ∧
        (m.perform e).machine.allocator = m.allocator.register c) ∨
      ∃ c, e = .release c ∧ (m.perform e).machine.allocator =
        { m.allocator with blocks := m.allocator.blocks.erase c } := by
  cases e with
  | context _ | halt | yield | ignore _ => exact .inl rfl
  | write device start bytes =>
    refine .inl ?_
    simp only [perform, overwrite, done]
    split
    · rfl
    · split <;> rfl
  | allocate rd size cleared =>
    cases cleared with
    | true =>
      have hcalled : (m.perform (.allocate rd size true)).machine.allocator =
          (m.allocator.calloc m.memory size.toNat).2.1 := by
        simp only [perform, allocateCleared, if_true]
        split <;> rfl
      rw [hcalled]
      rcases m.allocator.calloc_allocator m.memory size.toNat with
        ⟨error, -, heq⟩ | ⟨c, hrequest, heq, -⟩ <;> rw [heq]
      · exact .inl rfl
      · exact .inr (.inl ⟨c, _, hrequest, rfl⟩)
    | false =>
      simp only [perform, allocate, Bool.false_eq_true, if_false]
      split
      · rename_i p a hmalloc
        obtain ⟨c, hrequest, -, rfl⟩ := Allocator.malloc_ok hmalloc
        exact .inr (.inl ⟨c, _, hrequest, rfl⟩)
      · exact .inl rfl
  | release c =>
    simp only [perform]
    split
    · rename_i a hfree
      obtain ⟨-, rfl⟩ := Allocator.free_ok hfree
      exact .inr (.inr ⟨c, rfl, rfl⟩)
    · exact .inl rfl
  | switch id =>
    refine .inl ?_
    simp only [perform]
    split
    · rename_i m' events hok
      obtain ⟨contexts, rfl⟩ := switchContext_ok hok
      rfl
    · rfl
  | draw rd kind => cases kind <;> exact .inl rfl
  | readByte rd =>
    simp only [perform, readByte]
    split <;> exact .inl rfl
  | writeByte byte =>
    simp only [perform, writeByte]
    split <;> exact .inl rfl
  | callDevice slot argument =>
    simp only [perform, callDevice]
    split <;> exact .inl rfl

/-- A placed program has claimed what it takes, or nothing has changed. -/
theorem allocator_place (m : Machine) (p : Program) :
    (m.place p).1.allocator = m.allocator ∨
      ∃ c, footprint? p = some c ∧ (m.place p).1.allocator = m.allocator.register c := by
  rw [place]
  cases footprint? p with
  | none => exact .inl rfl
  | some block =>
    dsimp only
    cases hclaim : m.allocator.claim block with
    | error error => exact .inl rfl
    | ok allocator =>
      obtain ⟨-, rfl⟩ := Allocator.claim_ok hclaim
      refine .inr ⟨block, rfl, ?_⟩
      dsimp only
      cases m.memory.write p.origin p.bytes with
      | error j => rfl
      | ok memory =>
        dsimp only
        cases memory.storeWord (UInt32.ofNat p.stop) 0 <;> rfl

theorem mem_register {a : Allocator} {c : Block} (hb : b ∈ a.blocks) :
    b ∈ (a.register c).blocks :=
  Allocator.mem_insertBlock.mpr (.inr hb)

/-- An effect takes no block away but the one that it releases. -/
theorem mem_perform (hb : b ∈ m.allocator.blocks) (he : e ≠ .release b) :
    b ∈ (m.perform e).machine.allocator.blocks := by
  rcases m.allocator_perform e with heq | ⟨c, -, -, heq⟩ | ⟨c, rfl, heq⟩ <;> rw [heq]
  · exact hb
  · exact mem_register hb
  · have hne : b ≠ c := fun hbc => he (hbc ▸ rfl)
    exact (List.mem_erase_of_ne hne).mpr hb

theorem mem_step (hb : b ∈ m.allocator.blocks) (hkept : ¬m.Frees b) :
    b ∈ m.step.machine.allocator.blocks := by
  rcases m.step_cases with ⟨m', harrives, hstep⟩ | hstep | ⟨control, batch, -, hstep⟩ <;> rw [hstep]
  · have hcycle : b ∈ m'.allocator.blocks → b ∈ m'.cycle.machine.allocator.blocks := by
      refine related_cycle (R := fun m m' => b ∈ m.allocator.blocks → b ∈ m'.allocator.blocks)
        (fun _ => id) (fun h h' hm => h' (h hm)) id fun d e hd hplan hmem => ?_
      refine mem_perform hmem ?_
      rintro rfl
      have hfrees := frees_of_plan hplan
      refine hkept ⟨d, upcoming_of_executes harrives hd, hfrees.instruction, ?_, ?_⟩
      · rw [← read_of_agrees (harrives.agrees.trans m'.agrees_advance)]
        exact hfrees.start
      · rw [← read_of_agrees (harrives.agrees.trans m'.agrees_advance)]
        exact hfrees.size
    rw [(agrees_settle m'.cycle).allocator]
    exact hcycle (harrives.agrees.allocator ▸ hb)
  · exact hb
  · rw [(m.agrees_delivered control batch).allocator]
    exact hb

theorem mem_loadInto (hb : b ∈ m.allocator.blocks) (id : Nat) (p : Program) :
    b ∈ (m.loadInto id p).1.allocator.blocks := by
  rcases m.loadInto_cases id p with heq | ⟨contexts, placed, -, rfl, hloaded⟩
  · rw [heq]
    exact hb
  · have hplaced : b ∈ ({ m with contexts }.place p).1.allocator.blocks := by
      rcases allocator_place { m with contexts } p with heq | ⟨c, -, heq⟩ <;> rw [heq]
      · exact hb
      · exact mem_register hb
    rcases hloaded with heq | heq <;> rw [heq] <;> exact hplaced

/-- Nothing that a host does takes a block away but a step that frees it. -/
theorem mem_act (hb : b ∈ m.allocator.blocks) {action : HostAction}
    (hkept : action = .step → ¬m.Frees b) : b ∈ (m.act action).allocator.blocks := by
  cases action with
  | step => exact mem_step hb (hkept rfl)
  | load p => exact mem_loadInto hb _ p
  | loadInto id p => exact mem_loadInto hb id p
  | loadSource source =>
    simp only [act, loadSource, loadSourceInto]
    cases m.assemble source with
    | error error => exact hb
    | ok p => exact mem_loadInto hb _ p
  | switchContext id =>
    obtain ⟨contexts, heq⟩ := m.act_switchContext id
    rw [heq]
    exact hb
  | setVector j handler =>
    obtain ⟨memory, heq⟩ := m.act_setVector j handler
    rw [heq]
    exact hb
  | attach _ _ | writeMemory _ _ =>
    simp only [act]
    split <;> exact hb
  | detach _ | setConsole _ | editContext _ | setClock _ => exact hb
  | pause | resume | terminate | setYieldSuspends _ | raise _ => exact hb

theorem mem_run (hb : b ∈ m.allocator.blocks) {actions : List HostAction}
    (hkept : m.NeverFrees b actions) : b ∈ (actions.foldl act m).allocator.blocks := by
  induction actions generalizing m with
  | nil => exact hb
  | cons action rest ih => exact ih (mem_act hb hkept.1) hkept.2

/-- **What is allocated stays until it is freed.** A `MALLOC` or `CALLOC` of a reachable machine
either finds no room, and then it is out of memory and changes nothing, or it allocates a new block,
a `CALLOC` with zeros in it. Whatever programs and the host do next, as long as no step frees that
very block: a `FREE` with its address and the size that was asked for removes it and nothing else. A
`FREE` of what is not registered exactly so is a segmentation fault and changes nothing. -/
theorem allocated_until_freed (hreach : m.Reachable) (hnext : m.upcoming = some d) :
    (d.instruction = .malloc ∨ d.instruction = .calloc →
      (m.Refuses .outOfMemory ∧
          ∀ b : Block, Rounds (m.context.read (d.operand 1)).toNat b.size → ¬m.allocator.Room b) ∨
        ∃ b, m.Allocates d b ∧
          ∀ actions, m.step.machine.NeverFrees b actions →
            let later := actions.foldl act m.step.machine
            ∀ d', later.upcoming = some d' → d'.instruction = .free →
              later.context.read (d'.operand 0) = UInt32.ofNat b.start →
              later.context.read (d'.operand 1) = m.context.read (d.operand 1) →
                later.Releases b) ∧
      (d.instruction = .free → ∃ b, d.Frees m.context b ∧
        if b ∈ m.allocator.blocks then m.Releases b else m.Refuses .segmentationFault) := by
  constructor
  · intro hallocates
    rcases allocation_step hreach.sound hnext hallocates with hrefused | ⟨b, hb⟩
    · exact .inl hrefused
    refine .inr ⟨b, hb, fun actions hkept => ?_⟩
    intro later d' hnext' hfree haddress hsize
    have hmem : b ∈ later.allocator.blocks := mem_run ((hb.added.2.2 b).mpr (.inl rfl)) hkept
    have hsound : later.Sound :=
      (hreach.sound.follows m.follows_step).follows (follows_run _ actions)
    have hnamed : d'.Frees later.context b := by
      refine ⟨hfree, ?_, ?_⟩
      · rw [haddress]
        exact hb.address.symm
      · rw [hsize]
        exact hb.size
    have hreleases := release_step hsound hnext' hnamed
    rwa [if_pos hmem] at hreleases
  · intro hfree
    obtain ⟨b, hb⟩ := exists_frees hfree m.context
    exact ⟨b, hb, release_step hreach.sound hnext hb⟩

/-- The smallest machine, about to allocate ten bytes of zeros and to free them. -/
def allocating : Machine :=
  ((blank ⟨512, 1, false, false, 0⟩).act
    (.loadSource "loadbytei r2, 10; calloc r1, r2; free r1, r2;")).act .step

/-- The machine when it has allocated them and another program has been loaded. -/
def reloaded : Machine := allocating.step.machine.act (.loadInto 7 ⟨400, 400, none, [0], .empty⟩)

theorem allocated_until_freed_reloaded : ∃ d b, allocating.upcoming = some d ∧
    allocating.Allocates d b ∧ UInt32.ofNat b.start = 112 ∧ reloaded.Releases b := by
  have hcreate : Machine.create ⟨512, 1, false, false, 0⟩ =
      .ok (blank ⟨512, 1, false, false, 0⟩, []) := rfl
  have hreach : allocating.Reachable := .act (.act (.create hcreate) _ trivial) .step trivial
  have hstate : allocating.allocator = ⟨96, 512, [⟨96, 112⟩]⟩ ∧ allocating.upcoming.map (fun d =>
      (d.instruction, d.reg 0, allocating.context.read (d.operand 1))) =
        some (.calloc, 0, 10) := by decide +kernel
  obtain ⟨hallocator, hallocates⟩ := hstate
  obtain ⟨d, hd, heq⟩ := Option.map_eq_some_iff.mp hallocates
  obtain ⟨hcalloc, hreg, hsize⟩ : d.instruction = .calloc ∧ d.reg 0 = 0 ∧
      allocating.context.read (d.operand 1) = 10 := by simpa using heq
  rcases (allocated_until_freed hreach hd).1 (.inr hcalloc) with ⟨-, hnone⟩ | ⟨b, hb, hlater⟩
  · refine absurd ?_ (hnone ⟨112, 124⟩ (by rw [hsize]; exact ⟨rfl, by decide, by decide⟩))
    rw [hallocator]
    exact ⟨by decide, by decide, by simp [Allocator.Free, Block.Overlaps]⟩
  have hlast : allocating.step.machine.context.registers.get 0 = 112 ∧
      reloaded.upcoming.map (fun d' => (d'.instruction, reloaded.context.read (d'.operand 0),
        reloaded.context.read (d'.operand 1))) = some (.free, 112, 10) := by decide +kernel
  obtain ⟨hassigned, hfrees⟩ := hlast
  have haddress : UInt32.ofNat b.start = 112 := by
    rw [hb.registers, hreg] at hassigned
    exact (Vector.getElem_set_self _).symm.trans hassigned
  refine ⟨d, b, hd, hb, haddress, ?_⟩
  obtain ⟨d', hd', heq'⟩ := Option.map_eq_some_iff.mp hfrees
  obtain ⟨hfree, hstart, hsame⟩ := by simpa only [Prod.mk.injEq] using heq'
  exact hlater [.loadInto 7 ⟨400, 400, none, [0], .empty⟩] ⟨nofun, trivial⟩ d' hd' hfree
    (hstart.trans haddress.symm) (hsame.trans hsize.symm)

end Machine
end RegisterMachine
