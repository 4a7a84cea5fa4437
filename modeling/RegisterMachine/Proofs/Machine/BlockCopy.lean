import RegisterMachine.Proofs.Machine.Allocation
import RegisterMachine.Proofs.Machine.FatalError

/-! Copying a block of bytes.

`MEMCPY` reads all of its bytes before it writes one, and writes none before both ranges are
checked. So it moves the bytes that the source held, also where the target overlaps it, or it
changes nothing and ends in what the first check that fails says (`Copy.refusal?`, `copy_step`). -/
namespace RegisterMachine

/-! ### Ranges -/

namespace Spaces

variable {before after spaces : Spaces} {device address : UInt32} {count : Nat} {memory : Memory}

/-- What keeps a range from being accessed, if anything does: its device, its sign or its end, in
this order. -/
def refusal? (spaces : Spaces) (device address : UInt32) (count : Nat) : Option Stop :=
  match spaces (.named device) with
  | none => some (.failure (.unattached device))
  | some memory =>
    if 0x80000000 ≤ address.toNat then some (.interrupt .segmentationFault)
    else if memory.size < address.toNat + count then some (.interrupt .outOfMemory)
    else none

theorem refusal?_eq_none_iff :
    spaces.refusal? device address count = none ↔ spaces.Reaches device address count := by
  unfold refusal? Reaches
  cases spaces (.named device) with
  | none => exact ⟨nofun, fun ⟨_, _, h, _⟩ => (nomatch h)⟩
  | some memory =>
    dsimp only
    split
    · exact ⟨nofun, fun h => by omega⟩
    · split
      · refine ⟨nofun, ?_⟩
        rintro ⟨-, memory', h, hend⟩
        obtain rfl := Option.some.inj h
        omega
      · exact ⟨fun _ => ⟨by omega, memory, rfl, by omega⟩, fun _ => rfl⟩

/-- The bytes of one range are, as they were before, in the other range, and nothing else has
changed. -/
structure Moved (before after : Spaces) (source : Space) (start : Nat) (target : Space)
    (start' count : Nat) : Prop where
  arrived : ∀ k, k < count → ∃ b, before.byte? source (start + k) = some b ∧
    after.byte? target (start' + k) = some b
  kept : ∀ space i, space ≠ target ∨ i < start' ∨ start' + count ≤ i →
    after.byte? space i = before.byte? space i
  sizes : ∀ space, (after space).map Memory.size = (before space).map Memory.size

theorem moved_of_rewritten {source target : Space} {start start' : Nat}
    (hsource : before source = some memory) (hend : start + count ≤ memory.size)
    (h : before.Rewritten after target start' (memory.slice start count)) :
    before.Moved after source start target start' count := by
  have hlength := Memory.length_slice hend
  constructor
  · intro k hk
    have hcell : (memory.slice start count)[k]? = before.byte? source (start + k) := by
      rw [Memory.slice_eq, List.getElem?_take, if_pos hk, List.getElem?_drop,
        Array.getElem?_toList, byte?, hsource, Option.bind_some]
    have hbyte := List.getElem?_eq_getElem (hlength.symm ▸ hk)
    exact ⟨_, hcell.symm.trans hbyte, (h.written k (hlength.symm ▸ hk)).trans hbyte⟩
  · intro space i hi
    rw [← hlength] at hi
    exact h.kept space i hi
  · exact h.sizes

end Spaces

/-! ### Copies -/

/-- What a `MEMCPY` is given: devices, a number of bytes and where the ranges begin. -/
structure Copy where
  toDevice : UInt32
  fromDevice : UInt32
  count : UInt32
  source : UInt32
  target : UInt32
deriving DecidableEq

namespace Copy

variable (copy : Copy)

/-- Both ranges are there. -/
def Reaches (spaces : Spaces) : Prop :=
  spaces.Reaches copy.fromDevice copy.source copy.count.toNat ∧
    spaces.Reaches copy.toDevice copy.target copy.count.toNat

/-- What keeps the bytes from being copied, if anything does: the source is checked first. -/
def refusal? (spaces : Spaces) : Option Stop :=
  (spaces.refusal? copy.fromDevice copy.source copy.count.toNat).or
    (spaces.refusal? copy.toDevice copy.target copy.count.toNat)

theorem refusal?_eq_none_iff {spaces : Spaces} :
    copy.refusal? spaces = none ↔ copy.Reaches spaces := by
  rw [refusal?, Option.or_eq_none_iff, Spaces.refusal?_eq_none_iff, Spaces.refusal?_eq_none_iff,
    Reaches]

/-- The bytes of the source have been moved to the target. -/
def Moves (before after : Spaces) : Prop :=
  before.Moved after (.named copy.fromDevice) copy.source.toNat (.named copy.toDevice)
    copy.target.toNat copy.count.toNat

end Copy

/-- What a `MEMCPY` is given in this context. -/
def Decoded.copy (d : Decoded) (c : Context) : Copy where
  toDevice := c.read (d.operand 0)
  fromDevice := c.read (d.operand 1)
  count := c.read (d.operand 2)
  source := c.registers.get (d.reg 3)
  target := c.registers.get (d.reg 4)

namespace Machine

variable {m m' : Machine} {d : Decoded} {device address : UInt32} {count : Nat} {stop : Stop}
  {copy : Copy}

/-- A range is checked in the order of `Spaces.refusal?`. -/
theorem check_of_refusal {α : Type} (h : m.spaces.refusal? device address count = some stop)
    (next : Memory → Nat → Except Stop α) :
    ((m.space device).mapError Stop.failure >>= fun space =>
      (space.span address count).mapError Stop.interrupt >>= next space) = .error stop := by
  unfold Spaces.refusal? at h
  cases hspace : m.space device with
  | error f =>
    have hnone : m.spaces (.named device) = none := by
      rw [Option.eq_none_iff_forall_ne_some]
      intro memory hmemory
      exact absurd (hspace.symm.trans (spaces_named_iff.mp hmemory)) (by simp)
    rw [hnone] at h
    obtain ⟨rfl, -⟩ := space_failure hspace
    obtain rfl := Option.some.inj h
    rfl
  | ok memory =>
    rw [spaces_named_iff.mpr hspace] at h
    have hspan : memory.span address count =
        if 0x80000000 ≤ address.toNat then .error .segmentationFault
        else if memory.size < address.toNat + count then .error .outOfMemory
        else .ok address.toNat := rfl
    dsimp only at h
    show ((memory.span address count).mapError Stop.interrupt >>= next memory) = .error stop
    rw [hspan]
    split at h
    · rename_i hnegative
      rw [if_pos hnegative]
      exact congrArg Except.error (Option.some.inj h)
    · rename_i hnegative
      rw [if_neg hnegative]
      split at h
      · rename_i hbeyond
        rw [if_pos hbeyond]
        exact congrArg Except.error (Option.some.inj h)
      · cases h

theorem planCopy_of_refusal (h : copy.refusal? m.spaces = some stop) :
    m.planCopy copy.toDevice copy.fromDevice copy.count copy.source copy.target =
      .error stop := by
  have hread : ∀ (space : Memory) (next : List UInt8 → Except Stop Effect),
      ((space.read copy.source copy.count.toNat).mapError Stop.interrupt >>= next) =
        ((space.span copy.source copy.count.toNat).mapError Stop.interrupt >>= fun start =>
          next (space.slice start copy.count.toNat)) := by
    intro space next
    rw [Memory.read]
    cases space.span copy.source copy.count.toNat <;> rfl
  unfold planCopy
  simp only [hread]
  rcases Option.or_eq_some_iff.mp h with hsource | ⟨hsource, htarget⟩
  · exact check_of_refusal hsource _
  · obtain ⟨htop, memory, hmemory, hend⟩ := Spaces.refusal?_eq_none_iff.mp hsource
    rw [spaces_named_iff.mp hmemory]
    show ((memory.span copy.source copy.count.toNat).mapError Stop.interrupt >>= _) = _
    rw [Memory.span_eq_ok_iff.mpr ⟨rfl, htop, hend⟩]
    exact check_of_refusal htarget _

/-- The step ends in a failure in the place of its instruction. Behind the interrupts of the host,
nothing has changed but the program counter. -/
structure FailsWith (m : Machine) (f : Failure) : Prop where
  answer : m.step.answer = .error f
  rest : ∃ m', m.Arrives m' ∧ m.step.machine = m'.advance

/-- The step copies. Behind the interrupts of the host, nothing else has changed but the program
counter. -/
structure Copies (m : Machine) (copy : Copy) : Prop where
  answer : m.step.answer = .ok .running
  moved : copy.Moves m.spaces m.step.machine.spaces
  rest : ∃ m', m.Arrives m' ∧
    { m.step.machine with memory := m'.memory, devices := m'.devices } = m'.advance

theorem failsWith_of_plan {f : Failure} (h : m.Arrives m') (hd : m'.Executes d)
    (hplan : m'.advance.plan d = .error (.failure f)) : m.FailsWith f := by
  obtain ⟨hmachine, hstop⟩ := hd.cycle
  rw [hplan] at hmachine hstop
  have hmachine : m'.cycle.machine = m'.advance := hmachine
  have hstop : m'.cycle.stop = some (.failure f) := hstop
  have harrives := h
  obtain ⟨hnot, control, batch, hcheckpoint, hanswer, rfl⟩ := harrives
  constructor
  · rw [step_of_proceed hnot hcheckpoint rfl, hanswer]
    dsimp only
    rw [settle, hstop]
    rfl
  · refine ⟨_, h, ?_⟩
    rw [step_of_arrives h, settle, hstop, hmachine]

/-- To write bytes changes memories only. -/
theorem overwrite_rest (m : Machine) (device : UInt32) (start : Nat) (bytes : List UInt8) :
    { m.overwrite device start bytes with memory := m.memory, devices := m.devices } = m := by
  unfold overwrite
  split
  · rfl
  · split <;> rfl

theorem copies_of_reaches (h : m.Arrives m') (hd : m'.Executes d) (hagrees : m.Agrees m'.advance)
    (hplan : m'.advance.plan d = m'.advance.planCopy copy.toDevice copy.fromDevice copy.count
      copy.source copy.target) (hreaches : copy.Reaches m.spaces) : m.Copies copy := by
  rw [← hagrees.spaces] at hreaches
  obtain ⟨-, memory, hmemory, hend⟩ := hreaches.1
  rw [planCopy_ok_iff.mpr ⟨hreaches, memory, hmemory, rfl⟩] at hplan
  have hrest := m'.advance.overwrite_rest copy.toDevice copy.target.toNat
    (memory.slice copy.source.toNat copy.count.toNat)
  have hrunning : m'.advance.halted = false :=
    (h.onlyEnters.trans m'.onlyEnters_advance).halted.trans h.running
  obtain ⟨hstep, hanswer⟩ := step_of_perform h hd hplan rfl
    ((congrArg Machine.halted hrest).trans hrunning)
  refine ⟨hanswer, ?_, m', h, ?_⟩
  · rw [hstep, ← hagrees.spaces]
    refine Spaces.moved_of_rewritten hmemory hend (rewritten_overwrite ?_)
    rw [Memory.length_slice hend]
    exact hreaches.2
  · rw [hstep]
    exact hrest

/-- **A copy moves all of its bytes or none.** Where both ranges are in their spaces, the target
holds afterwards what the source held before, even where they overlap, and every other byte is as it
was. Otherwise nothing changes, and the step ends in what the first check that fails says: the
device of the source, its range, the device of the target or its range. -/
theorem copy_step (hnext : m.upcoming = some d) (hcopy : d.instruction = .memcpy) :
    ((d.copy m.context).refusal? m.spaces = none ↔ (d.copy m.context).Reaches m.spaces) ∧
    match (d.copy m.context).refusal? m.spaces with
    | none => m.Copies (d.copy m.context)
    | some (.interrupt i) => m.Refuses i
    | some (.failure f) => m.FailsWith f := by
  refine ⟨Copy.refusal?_eq_none_iff _, ?_⟩
  obtain ⟨m', harrives, hexecutes⟩ := executes_of_upcoming hnext
  have hagrees : m.Agrees m'.advance := harrives.agrees.trans m'.agrees_advance
  have hgiven : d.copy m'.advance.context = d.copy m.context := by
    simp only [Decoded.copy, read_of_agrees hagrees, hagrees.registers]
  have hplan : m'.advance.plan d = m'.advance.planCopy (d.copy m.context).toDevice
      (d.copy m.context).fromDevice (d.copy m.context).count (d.copy m.context).source
      (d.copy m.context).target := by
    rw [← hgiven]
    simp only [plan, hcopy, Decoded.copy]
  cases hrefusal : (d.copy m.context).refusal? m.spaces with
  | none =>
    have hreaches := (Copy.refusal?_eq_none_iff _).mp hrefusal
    exact copies_of_reaches harrives hexecutes hagrees hplan hreaches
  | some stop =>
    rw [← hagrees.spaces] at hrefusal
    rw [planCopy_of_refusal hrefusal] at hplan
    cases stop with
    | interrupt i => exact refuses_of_plan harrives hexecutes hplan
    | failure f => exact failsWith_of_plan harrives hexecutes hplan

/-- The smallest machine, about to copy four bytes of its memory two bytes further on. -/
def shifting : Machine :=
  (((((blank ⟨512, 1, false, false, 0⟩).act (.loadSource
    "loadbytei r1, 4; loadbytei r2, 200; loadbytei r3, 202; memcpy 0, 0, r1, r2, r3;")).act
    (.writeMemory 200 [1, 2, 3, 4])).act .step).act .step).act .step

theorem copy_step_shifting :
    shifting.step.answer = .ok .running ∧
      ∀ k, k < 4 → ∃ b, shifting.spaces.byte? .main (200 + k) = some b ∧
        shifting.step.machine.spaces.byte? .main (202 + k) = some b := by
  have hnext : shifting.upcoming.map (fun d => (d.instruction, d.copy shifting.context)) =
      some (.memcpy, ⟨0, 0, 4, 200, 202⟩) := by decide +kernel
  obtain ⟨d, hd, heq⟩ := Option.map_eq_some_iff.mp hnext
  obtain ⟨hcopy, hgiven⟩ := Prod.mk.inj heq
  obtain ⟨hreaches, hstep⟩ := copy_step hd hcopy
  have hsize : shifting.memory.size = 512 := by decide +kernel
  have hmain : shifting.spaces (.named 0) = some shifting.memory := rfl
  have hthere : (d.copy shifting.context).Reaches shifting.spaces := by
    rw [hgiven]
    exact ⟨⟨by decide, _, hmain, by rw [hsize]; decide⟩,
      ⟨by decide, _, hmain, by rw [hsize]; decide⟩⟩
  rw [hreaches.mpr hthere, hgiven] at hstep
  exact ⟨hstep.answer, hstep.moved.arrived⟩

end Machine

end RegisterMachine
