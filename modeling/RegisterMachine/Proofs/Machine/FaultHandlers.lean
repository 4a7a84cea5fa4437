import RegisterMachine.Proofs.Machine.HandlerCode
import RegisterMachine.Proofs.Machine.Loading

/-! The built-in fault handlers work.

A machine that is created with its handlers has them at the end of memory, and the vectors
of the faults hold where they are entered (`create_default`): there is room for them in the
smallest memory, and their labels are within reach in the largest. Whatever happens to the
machine later, a fault enters its handler as long as the vectors and the handlers are
intact, and from there the handler runs to its end (`fault_handlers_work`). -/
namespace RegisterMachine.Machine

variable {m m' m'' : Machine} {p : Program} {l : Layout} {config : Config} {i j : Interrupt}
  {faults : List Interrupt} {word : Interrupt → UInt32} {w : UInt32}

/-! ### Setting vectors -/

/-- The vectors of these interrupts are set, and nothing else is changed. -/
structure Retargets (m : Machine) (faults : List Interrupt) (word : Interrupt → UInt32)
    (m' : Machine) : Prop where
  rest : m' = { m with memory := m'.memory }
  size : m'.memory.size = m.memory.size
  kept : ∀ k, vectorsEnd ≤ k → m'.memory.cells[k]? = m.memory.cells[k]?
  vector : ∀ i, m'.vector i = if i ∈ faults then .ok (word i) else m.vector i

theorem setVector_ok (hsize : vectorsEnd ≤ m.memory.size) (i : Interrupt)
    (word : Interrupt → UInt32) :
    ∃ m', m.setVector i (word i) = .ok m' ∧ m.Retargets [i] word m' := by
  obtain ⟨haddress, hend⟩ := toNat_vector i
  have hlength := LittleEndian.length_wordBytes (word i)
  have hinside : 4 * i.index + (LittleEndian.wordBytes (word i)).length ≤ m.memory.size := by omega
  have hstore : m.memory.storeWord i.vector (word i) =
      .ok (m.memory.overwrite (4 * i.index) (LittleEndian.wordBytes (word i))) := by
    rw [← haddress]
    refine Memory.write_eq ?_ ?_
    · rw [haddress]
      unfold vectorsEnd vectorCount at hend
      omega
    · rw [haddress]
      exact hinside
  have hsize' := Memory.size_overwrite m.memory (4 * i.index) (LittleEndian.wordBytes (word i))
  refine ⟨_, map_ok_iff.mpr ⟨_, hstore, rfl⟩, rfl, hsize', ?_, ?_⟩
  · intro k hk
    exact Memory.getElem?_overwrite hinside (by omega)
  · intro j
    rw [vector_eq (hsize'.symm ▸ hsize)]
    dsimp only
    by_cases hj : j = i
    · subst hj
      have hslice := Memory.slice_overwrite hinside
      rw [hlength] at hslice
      rw [if_pos (List.mem_singleton.mpr rfl), hslice, LittleEndian.value_wordBytes,
        UInt32.ofNat_toNat]
    · have hindex : j.index ≠ i.index := by
        intro heq
        have hi := i.ofIndex?_index
        rw [← heq, j.ofIndex?_index] at hi
        exact hj (Option.some.inj hi)
      rw [if_neg (by simpa using hj), vector_eq hsize]
      rw [Memory.slice_congr fun k _ _ => Memory.getElem?_overwrite hinside (by omega)]

/-- The handlers of a program whose labels are all there are set. -/
theorem setVectors_ok (hsize : vectorsEnd ≤ m.memory.size) {address : Interrupt → UInt32}
    (hlabels : ∀ i ∈ faults, p.label? (Handler.label i) = some (address i)) :
    ∃ m', m.setVectors p faults = (m', .ok ()) ∧
      m.Retargets faults (fun i => address i / 4) m' := by
  induction faults generalizing m with
  | nil => exact ⟨m, rfl, rfl, rfl, fun _ _ => rfl, fun _ => rfl⟩
  | cons i rest ih =>
    obtain ⟨m', hset, hfirst⟩ := setVector_ok hsize i fun i => address i / 4
    obtain ⟨m'', hrest, hothers⟩ := ih (hfirst.size.symm ▸ hsize)
      fun j hj => hlabels j (List.mem_cons_of_mem _ hj)
    refine ⟨m'', ?_, ?_, hothers.size.trans hfirst.size, ?_, ?_⟩
    · rw [setVectors, hlabels i List.mem_cons_self]
      dsimp only
      rw [hset]
      exact hrest
    · rw [hothers.rest, hfirst.rest]
    · intro k hk
      exact (hothers.kept k hk).trans (hfirst.kept k hk)
    · intro j
      rw [hothers.vector, hfirst.vector]
      by_cases hj : j ∈ rest
      · rw [if_pos hj, if_pos (List.mem_cons_of_mem _ hj)]
      · rw [if_neg hj]
        simp only [List.mem_cons, List.not_mem_nil, hj, or_false]

/-! ### Installing the handlers -/

/-- All handlers stand at the end of memory from this address on, and the vectors hold where they
are entered. -/
structure Installed (config : Config) (created : Machine) (origin : UInt32) : Prop where
  ends : origin.toNat + (Handler.size + 4) = config.memorySize
  blocks : created.allocator.blocks = [⟨origin.toNat, config.memorySize⟩]
  vector : ∀ i ∈ Interrupt.faults,
    created.vector i = .ok (UInt32.ofNat (origin.toNat + Handler.entry i) / 4)
  stands : ∀ i ∈ Interrupt.faults,
    Handler.Stands (created.memory.slice origin.toNat Handler.size) origin.toNat i
  rest : created =
    { blank config with memory := created.memory, allocator := created.allocator }

theorem validSize_of_validate (hvalid : config.validate = .ok ()) :
    Memory.ValidSize config.memorySize :=
  (sound_blank hvalid).valid

/-- The handlers are assembled for the end of memory. -/
theorem assembleHandlers_ok (hvalid : config.validate = .ok ()) :
    ∃ p l origin, (blank config).assembleHandlers = .ok p ∧ Handler.Assembled p l origin ∧
      origin.toNat + (Handler.size + 4) = config.memorySize := by
  obtain ⟨hmin, hmax, haligned⟩ := validSize_of_validate hvalid
  have hmemory : (blank config).memory.size = config.memorySize := (sound_blank hvalid).memory
  unfold Memory.minSize at hmin
  unfold Memory.maxSize at hmax
  have hsize : Handler.size = 360 := rfl
  have hend : vectorsEnd = 96 := rfl
  let origin := UInt32.ofNat (config.memorySize - (Handler.size + 4))
  have htoNat : origin.toNat = config.memorySize - (Handler.size + 4) := by
    show (UInt32.ofNat _).toNat = _
    rw [UInt32.toNat_ofNat']
    omega
  obtain ⟨p, l, hassembled⟩ : ∃ p l, Handler.Assembled p l origin :=
    Handler.exists_assembled (by omega) (by omega)
  have horigin : (blank config).handlerOrigin = .ok origin := by
    refine bind_ok_iff.mpr ⟨_, mapError_ok_iff.mpr Handler.measure_source, ?_⟩
    rw [if_pos (by omega), hmemory]
  exact ⟨p, l, origin, bind_ok_iff.mpr ⟨_, horigin, mapError_ok_iff.mpr hassembled.program⟩,
    hassembled, by omega⟩

/-- The blank machine with the handlers in their place. -/
def withHandlers (config : Config) (p : Program) : Machine :=
  { blank config with
    allocator := (blank config).allocator.register (footprint p)
    memory := (blank config).memory.overwrite p.origin.toNat (image p) }

section Placed
variable {origin : UInt32} (hvalid : config.validate = .ok ())
  (hassembled : Handler.Assembled p l origin)
  (hends : origin.toNat + (Handler.size + 4) = config.memorySize)
include hassembled

theorem placed_assembled : p.origin = origin ∧ p.size = Handler.size := by
  obtain ⟨horigin, -, hmeasure, -⟩ := Program.size_of_assemble hassembled.program
  exact ⟨horigin, Except.ok.inj (hmeasure.symm.trans Handler.measure_source)⟩

include hends

theorem footprint_assembled : footprint p = ⟨origin.toNat, config.memorySize⟩ := by
  obtain ⟨horigin, hsize⟩ := placed_assembled hassembled
  have hstop : p.stop = p.origin.toNat + p.size := rfl
  unfold footprint
  rw [hstop, hsize, horigin, ← hends]
  rfl

include hvalid

theorem place_assembled : (blank config).place p = (withHandlers config p, .ok ()) := by
  have hmin : 512 ≤ config.memorySize := (validSize_of_validate hvalid).1
  have hsize : Handler.size = 360 := rfl
  have hfootprint := footprint_assembled hassembled hends
  have hroom : (blank config).allocator.Room (footprint p) := by
    rw [hfootprint]
    refine ⟨?_, ⟨?_, Nat.le_refl _⟩, fun _ hc => absurd hc List.not_mem_nil⟩
    · dsimp only
      omega
    · show 96 ≤ origin.toNat
      omega
  exact place_of_claim (sound_blank hvalid) (Allocator.claim_of_room hroom)

theorem slice_withHandlers :
    (withHandlers config p).memory.slice origin.toNat Handler.size = p.bytes := by
  obtain ⟨horigin, hsize⟩ := placed_assembled hassembled
  have hmemory := (sound_blank hvalid).memory
  have hinside : p.origin.toNat + (image p).length ≤ (blank config).memory.size := by
    rw [length_image, hsize, horigin, hmemory]
    exact hends.le
  have hslice : (withHandlers config p).memory.slice p.origin.toNat (p.size + 4) =
      p.bytes ++ [0, 0, 0, 0] := by
    rw [← length_image]
    exact Memory.slice_overwrite hinside
  have hfour : ([0, 0, 0, 0] : List UInt8).length = 4 := rfl
  rw [← horigin, ← hsize]
  exact (Memory.slice_of_append rfl hfour hslice).1

end Placed

/-- The handlers are installed whatever the size of memory. -/
theorem create_default (hvalid : config.validate = .ok ())
    (hdefault : config.defaultHandlers = true) :
    ∃ created origin, Machine.create config = .ok (created, [.handlersInstalled origin]) ∧
      Installed config created origin := by
  obtain ⟨p, l, origin, hassemble, hassembled, hends⟩ := assembleHandlers_ok hvalid
  obtain ⟨horigin, -⟩ := placed_assembled hassembled
  have hmin : 512 ≤ config.memorySize := (validSize_of_validate hvalid).1
  have hsize : Handler.size = 360 := rfl
  have habove : vectorsEnd = 96 := rfl
  have hmemory : (withHandlers config p).memory.size = config.memorySize :=
    (Memory.size_overwrite _ _ _).trans (sound_blank hvalid).memory
  have hlabels : ∀ i ∈ Interrupt.faults, p.label? (Handler.label i) =
      some (UInt32.ofNat (origin.toNat + Handler.entry i)) := by
    intro i hi
    rw [Program.label?, hassembled.labels]
    exact Handler.lookup_shift (hassembled.laid.2.2.2.1 i hi).entry
  obtain ⟨created, hvectors, hretargets⟩ : ∃ created,
      (withHandlers config p).setVectors p Interrupt.faults = (created, .ok ()) ∧
        (withHandlers config p).Retargets Interrupt.faults
          (fun i => UInt32.ofNat (origin.toNat + Handler.entry i) / 4) created :=
    setVectors_ok (by omega) hlabels
  have hinstall : (blank config).installHandlers = (created, .ok origin) := by
    rw [installHandlers, hassemble, install, place_assembled hvalid hassembled hends]
    dsimp only
    rw [hvectors, horigin]
  have hcreate : Machine.create config = .ok (created, [.handlersInstalled origin]) := by
    rw [Machine.create, hvalid]
    exact (if_pos hdefault).trans (by rw [hinstall])
  have hbytes : created.memory.slice origin.toNat Handler.size = p.bytes := by
    rw [← slice_withHandlers hvalid hassembled hends]
    exact Memory.slice_congr fun k hk _ => hretargets.kept k (by omega)
  refine ⟨created, origin, hcreate, hends, ?_, ?_, ?_, ?_⟩
  · rw [hretargets.rest]
    exact congrArg (fun b => [b]) (footprint_assembled hassembled hends)
  · intro i hi
    rw [hretargets.vector, if_pos hi]
  · intro i hi
    rw [hbytes]
    exact hassembled.stands hi
  · rw [hretargets.rest]
    rfl

/-! ### Later states -/

/-- The states that come of a machine: between the actions of its host, and within a step when its
requests are looked at, an interrupt is raised or an instruction is executed. -/
inductive Later (created : Machine) : Machine → Prop
  | refl : Later created created
  | act {m : Machine} (h : Later created m) (action : HostAction) : Later created (m.act action)
  | checkpoint {m : Machine} (h : Later created m) {control : Control} {batch : List Interrupt}
    (hproceed : m.control.checkpoint = .proceed control batch) : Later created { m with control }
  | raise {m : Machine} (h : Later created m) (i : Interrupt) : Later created (m.raise i).machine
  | cycle {m : Machine} (h : Later created m) : Later created m.cycle.machine

theorem Later.follows {created : Machine} (h : Later created m) : created.Follows m := by
  induction h with
  | refl => exact .refl created
  | act _ action ih => exact ih.trans (follows_act _ action)
  | checkpoint _ hproceed ih => exact ih.trans (follows_control _ (attention_checkpoint hproceed))
  | raise _ i ih => exact ih.trans (follows_raise _ i)
  | cycle _ ih => exact ih.trans (follows_cycle _)

/-- The vectors of the faults and everything from an address on are as they were. -/
structure Intact (created : Machine) (origin : UInt32) (m : Machine) : Prop where
  vectors : ∀ i ∈ Interrupt.faults, m.vector i = created.vector i
  region : m.memory.slice origin.toNat (created.memory.size - origin.toNat) =
    created.memory.slice origin.toNat (created.memory.size - origin.toNat)

/-- What is left when a fault has been raised and its handler has halted the machine. -/
def afterHandler (m : Machine) (i : Interrupt) (r1 pc : UInt32) : Machine :=
  { m.modifyContext fun c =>
      { (c.assign 0 r1).assign 1 0 with
        flag := 0
        pc
        stack := { c.stack with words := c.pc :: c.stack.words } } with
    console := m.console.printed (Handler.printed i)
    halted := true }

namespace Installed
variable {created : Machine} {origin : UInt32}

theorem handler (h : Installed config created origin) (hvalid : config.validate = .ok ())
    (hi : i ∈ Interrupt.faults) :
    ∃ v, created.vector i = .ok v ∧ v ≠ 0 ∧
      v * 4 = UInt32.ofNat (origin.toNat + Handler.entry i) ∧
      4 * v.toNat = origin.toNat + Handler.entry i := by
  obtain ⟨-, hmax, haligned⟩ := validSize_of_validate hvalid
  obtain ⟨hentry, hend⟩ := Handler.entry_inside hi
  have hends := h.ends
  unfold Memory.maxSize at hmax
  have hsize : Handler.size = 360 := rfl
  have hpositive : 144 ≤ Handler.entry i := Nat.le_add_right _ _
  have hquarter : (UInt32.ofNat (origin.toNat + Handler.entry i) / 4).toNat =
      (origin.toNat + Handler.entry i) / 4 := by
    rw [UInt32.toNat_div, UInt32.toNat_ofNat']
    show _ % 2 ^ 32 / 4 = _
    omega
  refine ⟨_, h.vector i hi, ?_, ?_, by omega⟩
  · intro hzero
    rw [hzero] at hquarter
    have hnone : (0 : UInt32).toNat = 0 := rfl
    omega
  · apply UInt32.toNat_inj.mp
    rw [UInt32.toNat_mul, hquarter, UInt32.toNat_ofNat']
    show _ / 4 * 4 % 2 ^ 32 = _
    omega

/-- A later machine in which a fault was raised has entered its handler. -/
theorem standing (h : Installed config created origin) (hsound : created.Sound)
    (hlater : Later created m) (hintact : Intact created origin m) (hrunning : m.halted = false)
    (hquiet : m.control.needsAttention = false) (hi : i ∈ Interrupt.faults) (pc : UInt32)
    (words : List UInt32) :
    Handler.Standing (m.faulted m.devices pc words) origin.toNat i := by
  have hm : m.Sound := hsound.follows hlater.follows
  have hfaulted : m.Follows (m.faulted m.devices pc words) := follows_of_same rfl rfl rfl rfl
  have hends := h.ends
  have hconfig : created.config = config := by rw [h.rest]; rfl
  have hcreated : created.memory.size = config.memorySize := by rw [hsound.memory, hconfig]
  have hmemory : m.memory.size = config.memorySize := hlater.follows.memory.trans hcreated
  obtain ⟨hmin, -, haligned⟩ := hsound.valid
  rw [hconfig] at hmin haligned
  unfold Memory.minSize at hmin
  have hsize : Handler.size = 360 := rfl
  have habove : vectorsEnd = 96 := rfl
  have hslice : m.memory.slice origin.toNat Handler.size =
      created.memory.slice origin.toNat Handler.size := by
    have hinside : 0 + Handler.size ≤ created.memory.size - origin.toNat := by omega
    have hregion := congrArg (fun bytes => (bytes.drop 0).take Handler.size) hintact.region
    rw [Memory.slice_slice hinside, Memory.slice_slice hinside] at hregion
    exact hregion
  refine ⟨⟨hm.follows hfaulted, hrunning, hquiet⟩, by omega, by omega, ?_, hi, ?_⟩
  · show _ ≤ m.memory.size
    omega
  · show Handler.Stands (m.memory.slice _ _) _ _
    rw [hslice]
    exact h.stands i hi

end Installed

/-- A handler leaves the machine so. -/
theorem finished_faulted (m : Machine) (origin : Nat) (i : Interrupt) (pc : UInt32) :
    ∃ r1 pc', Handler.finished
      (m.faulted m.devices pc (m.context.pc :: m.context.stack.words)) origin i =
        m.afterHandler i r1 pc' := by
  let r1 := UInt32.ofNat (origin + Handler.messageStart i + (Handler.printed i).length)
  let pc' := origin + (Handler.entry i + 36)
  refine ⟨r1, UInt32.ofNat pc', ?_⟩
  have hmodify := m.modifyContext_modifyContext
    (fun c => { c with
      pc, stack := { c.stack with words := m.context.pc :: m.context.stack.words } })
    fun c => Handler.contextAt c r1 0 0 pc'
  have hsame := modifyContext_congr (m := m)
    (f := fun c => Handler.contextAt { c with
      pc, stack := { c.stack with words := m.context.pc :: m.context.stack.words } } r1 0 0 pc')
    (g := fun c => { (c.assign 0 r1).assign 1 0 with
      flag := 0
      pc := UInt32.ofNat pc'
      stack := { c.stack with words := c.pc :: c.stack.words } }) rfl
  exact congrArg (fun m' : Machine => { m' with
    console := m.console.printed (Handler.printed i), halted := true }) (hmodify.trans hsame)

/-- **The built-in fault handlers work.** A valid configuration that asks for them gives a machine
with all of them at the end of memory: its one block ends where memory ends, and the six vectors
hold quarters of addresses in it. In every later state in which the vectors and the block are
intact, no host request is pending and the console takes the message, raising a fault with at most
one word beyond the capacity on the active stack enters the handler. It pushes nothing, prints the
notice of the fault with a line feed and halts, and of the rest it changes the two registers, the
flag, the program counter and the pushed return address of the active context only. -/
theorem fault_handlers_work (hvalid : config.validate = .ok ())
    (hdefault : config.defaultHandlers = true) :
    ∃ created origin, Machine.create config = .ok (created, [.handlersInstalled origin]) ∧
      created.allocator.blocks = [⟨origin.toNat, config.memorySize⟩] ∧
      (∀ i ∈ Interrupt.faults, ∃ v, created.vector i = .ok v ∧ v ≠ 0 ∧
        origin.toNat ≤ 4 * v.toNat ∧ 4 * v.toNat < config.memorySize) ∧
      ∀ m, Later created m → Intact created origin m → m.halted = false →
        m.control.needsAttention = false → ∀ i ∈ Interrupt.faults,
        m.console.Takes ((Text.utf8 i.notice).length + 1) →
        m.context.stack.size ≤ m.context.stack.capacity + 1 →
          (m.raise i).answer = .ok () ∧
          ∃ n stopped, Walks n (m.raise i).machine stopped ∧ stopped.step.answer = .ok .halted ∧
            stopped.step.machine.console.output =
              m.console.output ++ (Text.utf8 i.notice ++ [10]) ∧
            ∃ r1 pc, stopped.step.machine = m.afterHandler i r1 pc := by
  obtain ⟨created, origin, hcreate, hinstalled⟩ := create_default hvalid hdefault
  have hsound := sound_create hcreate
  have hends := hinstalled.ends
  refine ⟨created, origin, hcreate, hinstalled.blocks, ?_, ?_⟩
  · intro i hi
    obtain ⟨v, hvector, hv, -, haddress⟩ := hinstalled.handler hvalid hi
    obtain ⟨-, hend⟩ := Handler.entry_inside hi
    exact ⟨v, hvector, hv, by omega, by omega⟩
  · intro m hlater hintact hrunning hquiet i hi htakes hroom
    obtain ⟨v, hvector, hv, hentry, -⟩ := hinstalled.handler hvalid hi
    have hraise : m.raise i =
        ⟨m.faulted m.devices (v * 4) (m.context.pc :: m.context.stack.words), .ok (), []⟩ :=
      raise_handled ((hintact.vectors i hi).trans hvector) hv (by omega)
    have hstanding := hinstalled.standing hsound hlater hintact hrunning hquiet hi (v * 4)
      (m.context.pc :: m.context.stack.words)
    have hpc : (m.faulted m.devices (v * 4) (m.context.pc :: m.context.stack.words)).context.pc =
        UInt32.ofNat (origin.toNat + Handler.entry i) := by
      rw [context_faulted, ← hentry]
    have hlength : (Handler.printed i).length = (Text.utf8 i.notice).length + 1 :=
      List.length_append
    rw [← hlength] at htakes
    obtain ⟨n, stopped, hwalks, hmachine, hanswer⟩ := Handler.walks_handler hstanding hpc htakes
    obtain ⟨r1, pc, hleft⟩ := finished_faulted m origin.toNat i (v * 4)
    rw [hraise]
    refine ⟨rfl, n, stopped, hwalks, hanswer, ?_⟩
    rw [hmachine, hleft]
    exact ⟨Console.output_printed _ _, r1, pc, rfl⟩

/-- In the smallest memory, a fault on a stack that is already one word too full. -/
theorem fault_handlers_work_full_stack :
    ∃ created origin, Machine.create ⟨512, 1, true, false, 0⟩ =
        .ok (created, [.handlersInstalled origin]) ∧
      ∃ m, m = created.act (.editContext fun c => { c with stack := ⟨[7, 7], 1⟩ }) ∧
        (m.raise .stackOverflow).answer = .ok () ∧
        ∃ n stopped, Walks n (m.raise .stackOverflow).machine stopped ∧
          stopped.step.answer = .ok .halted ∧
          stopped.step.machine.console.output = Text.utf8 "?STACK OVERFLOW ERROR\n" := by
  have hvalid : Config.validate ⟨512, 1, true, false, 0⟩ = .ok () := rfl
  obtain ⟨created, origin, hcreate, -, -, hworks⟩ := fault_handlers_work hvalid rfl
  obtain ⟨created', origin', hcreate', hinstalled⟩ := create_default hvalid rfl
  obtain ⟨rfl, -⟩ := Prod.mk.inj (Except.ok.inj (hcreate'.symm.trans hcreate))
  let m := created'.act (.editContext fun c => { c with stack := ⟨[7, 7], 1⟩ })
  have hcontext : m.context.stack = ⟨[7, 7], 1⟩ :=
    congrArg Context.stack (context_modifyContext created' _)
  have hblank : created'.halted = false ∧ created'.control = .idle ∧
      created'.console = .ofBytes [] := by
    rw [hinstalled.rest]
    exact ⟨rfl, rfl, rfl⟩
  obtain ⟨hrunning, hcontrol, hconsole⟩ := hblank
  have hquiet : m.control.needsAttention = false := by
    show created'.control.needsAttention = false
    rw [hcontrol]
    rfl
  have hempty : m.console = .ofBytes [] := hconsole
  have htakes : ∀ n, m.console.Takes n := by
    intro n
    rw [hempty]
    exact ⟨rfl, nofun⟩
  have hroom : m.context.stack.size ≤ m.context.stack.capacity + 1 := by
    rw [hcontext]
    decide
  obtain ⟨hanswer, n, stopped, hwalks, hhalted, houtput, -⟩ := hworks m (.act .refl _)
    ⟨fun _ _ => rfl, rfl⟩ hrunning hquiet .stackOverflow (by decide) (htakes _) hroom
  refine ⟨created', origin, hcreate, m, rfl, hanswer, n, stopped, hwalks, hhalted, ?_⟩
  rw [houtput, hempty]
  decide +kernel

end RegisterMachine.Machine
