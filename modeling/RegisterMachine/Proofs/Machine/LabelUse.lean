import RegisterMachine.Proofs.Assembly.LabelOperand
import RegisterMachine.Proofs.Machine.Step
import RegisterMachine.Proofs.Memory.Contents
import RegisterMachine.Proofs.Number.LittleEndian

/-! What an instruction does with a label.

The assembler encodes a label in one of three scales, and the machine undoes the
scale when it executes the word: it shifts word offsets, counts distances from the
program counter that is already behind the word, and takes other values as they are.
`uses_label` puts the two together: whatever the instruction, it uses the address
that the program gives to the label. -/
namespace RegisterMachine.Machine

variable {m : Machine} {p : Program} {item : Placed} {i : Instruction} {c : Condition}
  {operands : List Token} {token : Token} {address : Nat} {target word : UInt32}

/-- The machine is about to execute an item that is in memory where its program keeps it. -/
structure Poised (m : Machine) (p : Program) (item : Placed) : Prop where
  running : m.halted = false
  quiet : m.control.needsAttention = false
  pc : m.context.pc.toNat = item.address
  above : vectorsEnd ≤ item.address
  inside : item.address + item.size ≤ m.memory.size
  loaded : m.memory.slice item.address item.size =
    (p.bytes.drop (item.address - p.origin.toNat)).take item.size

/-- The next step comes to this machine, which goes on. -/
def Runs (m m' : Machine) : Prop := m.step.machine = m' ∧ m.step.answer = .ok .running

/-- How a step of the instruction uses an address, with its register `rd` if it has one. -/
def Uses (m : Machine) (rd : Reg) (target : UInt32) : Instruction → Prop
  | .jmp | .jfw | .jbw => m.Runs (m.modifyContext fun c => c.jump target)
  | .jz => Condition.zero.holds m.context.flag = true →
    m.Runs (m.modifyContext fun c => c.jump target)
  | .jnz => Condition.nonZero.holds m.context.flag = true →
    m.Runs (m.modifyContext fun c => c.jump target)
  | .jgt => Condition.greater.holds m.context.flag = true →
    m.Runs (m.modifyContext fun c => c.jump target)
  | .jls => Condition.less.holds m.context.flag = true →
    m.Runs (m.modifyContext fun c => c.jump target)
  | .jsrI => m.context.stack.size < m.context.stack.capacity →
    m.Runs (m.modifyContext fun c =>
      { c with pc := target, stack := { c.stack with words := (c.pc + 4) :: c.stack.words } })
  | .pushWordI => m.context.stack.size < m.context.stack.capacity →
    m.Runs (m.modifyContext fun c =>
      { c with pc := c.pc + 4, stack := { c.stack with words := target :: c.stack.words } })
  | .loadWordIMem =>
    match m.memory.loadWord target with
    | .ok word => m.Runs (m.modifyContext fun c => { c.assign rd word with pc := c.pc + 4 })
    | .error i => m.cycle.stop = some (.interrupt i)
  | .storeWordIMem =>
    match m.memory.storeWord target (m.context.registers.get rd) with
    | .ok memory => m.Runs { m.advance with memory }
    | .error i => m.cycle.stop = some (.interrupt i)
  | .loadByteI | .loadHwordI =>
    m.Runs (m.modifyContext fun c => { c.assign rd target with pc := c.pc + 4 })
  -- the others take the address as it is
  | i => ∃ d, m.fetch.toOption.bind decode = some d ∧ d.instruction = i ∧ d.imm = target

/-- How the steps of a statement use an address. -/
def UsesIn (m : Machine) (rd : Reg) (target : UInt32) : Mnemonic → Prop
  | .native i => m.Uses rd target i
  | .loadWordI => ∃ m', m.Runs m' ∧
    m'.Runs (m.modifyContext fun c => { c.assign rd target with pc := c.pc + 8 })

/-! ### Scales -/

section Scales
variable {kind : OperandKind} {label : String} {value pc : UInt32}

theorem toNat_shiftLeft_two {n : Nat} (hn : n < 2 ^ 22) (hvalue : value.toNat = n) :
    (value <<< 2).toNat = 4 * n := by
  rw [shiftLeft_two, UInt32.toNat_mul, hvalue]
  show n * 4 % 2 ^ 32 = 4 * n
  omega

/-- A word offset is a quarter of the address. -/
theorem offset_of_labelValue (haligned : target.toNat % 4 = 0) (hjfw : i ≠ .jfw) (hjbw : i ≠ .jbw)
    (h : i.labelValue .off22 label target.toNat address = .ok value) : value <<< 2 = target := by
  obtain ⟨n, hscaled, hn, hvalue⟩ := Instruction.labelValue_ok h
  rw [Instruction.scaled?_eq hjfw hjbw, if_pos rfl] at hscaled
  have hquarter : target.toNat / 4 = n := Option.some.inj hscaled
  apply UInt32.toNat_inj.mp
  rw [toNat_shiftLeft_two hn hvalue]
  omega

/-- A forward distance counts from behind the instruction. -/
theorem forward_of_labelValue (haligned : target.toNat % 4 = 0) (hpc : pc.toNat = address + 4)
    (haddress : address % 4 = 0)
    (h : Instruction.jfw.labelValue .off22 label target.toNat address = .ok value) :
    pc + value <<< 2 = target := by
  obtain ⟨n, hscaled, hn, hvalue⟩ := Instruction.labelValue_ok h
  obtain ⟨hforward, hdistance⟩ :
      address + 4 ≤ target.toNat ∧ (target.toNat - (address + 4)) / 4 = n :=
    Option.ite_none_right_eq_some.mp hscaled |>.imp_right Option.some.inj
  have htarget := target.toNat_lt
  apply UInt32.toNat_inj.mp
  rw [UInt32.toNat_add, toNat_shiftLeft_two hn hvalue, hpc]
  omega

/-- So does a backward one. -/
theorem backward_of_labelValue (haligned : target.toNat % 4 = 0) (hpc : pc.toNat = address + 4)
    (haddress : address % 4 = 0)
    (h : Instruction.jbw.labelValue .off22 label target.toNat address = .ok value) :
    pc - value <<< 2 = target := by
  obtain ⟨n, hscaled, hn, hvalue⟩ := Instruction.labelValue_ok h
  obtain ⟨hbackward, hdistance⟩ :
      target.toNat ≤ address + 4 ∧ (address + 4 - target.toNat) / 4 = n :=
    Option.ite_none_right_eq_some.mp hscaled |>.imp_right Option.some.inj
  have hlt := pc.toNat_lt
  apply UInt32.toNat_inj.mp
  rw [UInt32.toNat_sub, toNat_shiftLeft_two hn hvalue, hpc]
  omega

/-- Any other value is the address itself. -/
theorem value_of_labelValue (hkind : kind ≠ .off22) (hjfw : i ≠ .jfw) (hjbw : i ≠ .jbw)
    (h : i.labelValue kind label target.toNat address = .ok value) : value = target := by
  obtain ⟨n, hscaled, -, hvalue⟩ := Instruction.labelValue_ok h
  rw [Instruction.scaled?_eq hjfw hjbw, if_neg hkind] at hscaled
  exact UInt32.toNat_inj.mp (hvalue.trans (Option.some.inj hscaled).symm)

end Scales

/-! ### One word -/

/-- The machine is about to execute a word that refers to an address. -/
structure Refers (m : Machine) (i : Instruction) (c : Condition) (operands : List Token)
    (token : Token) (target word : UInt32) : Prop where
  ready : m.Ready
  fetch : m.fetch = .ok word
  word : i.Refers c operands token m.context.pc.toNat target word
  holds : (i.readAs c).holds m.context.flag = true
  aligned : target.toNat % 4 = 0

theorem runs_of_plan (h : m.Ready) {d : Decoded} {e : Effect} (hfetch : m.fetch = .ok word)
    (hdecode : decode word = some d) (hholds : d.condition.holds m.context.flag = true)
    (hplan : m.advance.plan d = .ok e) (hdone : (m.advance.perform e).stop = none)
    (hstill : (m.advance.perform e).machine.halted = false) :
    m.Runs (m.advance.perform e).machine := by
  have hd : m.Executes d := ⟨⟨word, hfetch, hdecode⟩, hholds⟩
  obtain ⟨hmachine, hstop⟩ := hd.cycle
  rw [hplan] at hmachine hstop
  have hmachine : m.cycle.machine = (m.advance.perform e).machine := hmachine
  rw [← hmachine] at hstill ⊢
  exact step_of_done h (hstop.trans hdone) hstill

/-- An instruction that only changes the active context sees the program counter behind it. -/
theorem runs_of_context (h : m.Ready) {d : Decoded} {f : Context → Context}
    (hfetch : m.fetch = .ok word) (hdecode : decode word = some d)
    (hholds : d.condition.holds m.context.flag = true)
    (hplan : m.advance.plan d = .ok (.context (f m.advance.context))) :
    m.Runs (m.modifyContext fun c => f { c with pc := c.pc + 4 }) := by
  have hruns := runs_of_plan h hfetch hdecode hholds hplan rfl h.running
  have hmachine : (m.advance.perform (.context (f m.advance.context))).machine =
      m.modifyContext fun c => f { c with pc := c.pc + 4 } := by
    have hcongr : m.advance.modifyContext (fun _ => f m.advance.context) =
        m.advance.modifyContext f := modifyContext_congr rfl
    exact hcongr.trans (m.modifyContext_modifyContext _ f)
  rw [hmachine] at hruns
  exact hruns

/-- An instruction whose condition is not met is passed over. -/
theorem runs_of_skip (h : m.Ready) {d : Decoded} (hfetch : m.fetch = .ok word)
    (hdecode : decode word = some d) (hholds : ¬d.condition.holds m.context.flag = true) :
    m.Runs m.advance := by
  have hexecute : m.advance.execute d = m.advance.done := by
    rw [execute, flag_advance, if_neg hholds]
  obtain ⟨hmachine, hstop⟩ := cycle_of_fetch hfetch hdecode
  rw [hexecute] at hmachine hstop
  have hmachine : m.cycle.machine = m.advance := hmachine
  have hdone := step_of_done h hstop (hmachine ▸ h.running)
  rw [hmachine] at hdone
  exact hdone

theorem stops_of_plan {d : Decoded} {stop : Stop} (hfetch : m.fetch = .ok word)
    (hdecode : decode word = some d) (hholds : d.condition.holds m.context.flag = true)
    (hplan : m.advance.plan d = .error stop) : m.cycle.stop = some stop := by
  have hd : m.Executes d := ⟨⟨word, hfetch, hdecode⟩, hholds⟩
  rw [hd.cycle.2, hplan]
  rfl

namespace Refers

theorem runs (h : m.Refers i c operands token target word) {f : Context → Context}
    (hplan : m.advance.plan ⟨i, i.readAs c, word⟩ = .ok (.context (f m.advance.context))) :
    m.Runs (m.modifyContext fun c => f { c with pc := c.pc + 4 }) :=
  runs_of_context h.ready h.fetch h.word.decode h.holds hplan

/-- The word offset in the word is that of the address. -/
theorem offset (h : m.Refers i c operands token target word)
    (hkind : i.immediateKind? = some .off22) (hjfw : i ≠ .jfw) (hjbw : i ≠ .jbw) :
    (Decoded.mk i (i.readAs c) word).imm <<< 2 = target := by
  obtain ⟨kind, label, hkind', hvalue⟩ := h.word.value
  obtain rfl := Option.some.inj (hkind.symm.trans hkind')
  exact offset_of_labelValue h.aligned hjfw hjbw hvalue

/-- An immediate that is no word offset is the address. -/
theorem imm (h : m.Refers i c operands token target word)
    (hkind : i.immediateKind? ≠ some .off22) :
    (Decoded.mk i (i.readAs c) word).imm = target := by
  obtain ⟨kind, label, hkind', hvalue⟩ := h.word.value
  refine value_of_labelValue ?_ ?_ ?_ hvalue
  · rintro rfl
    exact hkind hkind'
  · rintro rfl
    exact hkind rfl
  · rintro rfl
    exact hkind rfl

theorem jumps (h : m.Refers i c operands token target word) {pc : UInt32} (hpc : pc = target)
    (hplan : m.advance.plan ⟨i, i.readAs c, word⟩ = .ok (.context (m.advance.context.jump pc))) :
    m.Runs (m.modifyContext fun c => c.jump target) := by
  subst hpc
  exact h.runs (f := fun c => c.jump pc) hplan

/-- A jump on a condition that holds jumps. -/
theorem jumps_if (h : m.Refers i c operands token target word) {cond : Condition}
    (hkind : i.immediateKind? = some .off22) (hjfw : i ≠ .jfw) (hjbw : i ≠ .jbw)
    (hplan : m.advance.plan ⟨i, i.readAs c, word⟩ =
      .ok (.context (if cond.holds m.advance.context.flag then
        m.advance.context.jump ((Decoded.mk i (i.readAs c) word).imm <<< 2)
      else m.advance.context))) (htaken : cond.holds m.context.flag = true) :
    m.Runs (m.modifyContext fun c => c.jump target) := by
  have htaken' : cond.holds m.advance.context.flag = true := by
    rw [context_advance]
    exact htaken
  rw [if_pos htaken'] at hplan
  exact h.jumps (h.offset hkind hjfw hjbw) hplan

end Refers

/-- The program counter behind a word that was fetched. -/
theorem toNat_pc_advance (hfetch : m.fetch = .ok word) :
    m.context.pc.toNat % 4 = 0 ∧ m.advance.context.pc.toNat = m.context.pc.toNat + 4 := by
  have haccepts : ¬m.RejectsPc := by
    intro hrejects
    obtain ⟨j, hj⟩ := fetch_error hrejects
    exact absurd (hfetch.symm.trans hj) (by simp)
  unfold RejectsPc at haccepts
  refine ⟨by omega, ?_⟩
  rw [context_advance]
  show (m.context.pc + 4).toNat = _
  rw [UInt32.toNat_add]
  show (m.context.pc.toNat + 4) % 2 ^ 32 = _
  omega

theorem push_ok {c : Context} (word : UInt32) (hroom : c.stack.size < c.stack.capacity) :
    c.push word = .ok { c with stack := { c.stack with words := word :: c.stack.words } } := by
  have hpush : c.stack.push word = .ok { c.stack with words := word :: c.stack.words } :=
    if_pos hroom
  rw [Context.push, hpush]
  rfl

/-- A word that refers to an address uses that address. -/
theorem uses_of_refers (h : m.Refers i c operands token target word) :
    m.Uses ((Decoded.mk i (i.readAs c) word).reg 0) target i := by
  obtain ⟨haligned, hpc⟩ := toNat_pc_advance h.fetch
  cases i with
  | jmp => exact h.jumps (h.offset rfl (by decide) (by decide)) rfl
  | jz => exact h.jumps_if rfl (by decide) (by decide) rfl
  | jnz => exact h.jumps_if rfl (by decide) (by decide) rfl
  | jgt => exact h.jumps_if rfl (by decide) (by decide) rfl
  | jls => exact h.jumps_if rfl (by decide) (by decide) rfl
  | jfw =>
    obtain ⟨kind, label, hkind, hvalue⟩ := h.word.value
    obtain rfl : .off22 = kind := Option.some.inj hkind
    exact h.jumps (forward_of_labelValue h.aligned hpc haligned hvalue) rfl
  | jbw =>
    obtain ⟨kind, label, hkind, hvalue⟩ := h.word.value
    obtain rfl : .off22 = kind := Option.some.inj hkind
    exact h.jumps (backward_of_labelValue h.aligned hpc haligned hvalue) rfl
  | jsrI =>
    intro hroom
    have hroom' : m.advance.context.stack.size < m.advance.context.stack.capacity := by
      rw [context_advance]
      exact hroom
    refine h.runs (f := fun c =>
      { c with pc := target, stack := { c.stack with words := c.pc :: c.stack.words } }) ?_
    show onContext (m.advance.context.call _) = _
    rw [Context.call, push_ok _ hroom', h.offset rfl (by decide) (by decide)]
    rfl
  | pushWordI =>
    intro hroom
    have hroom' : m.advance.context.stack.size < m.advance.context.stack.capacity := by
      rw [context_advance]
      exact hroom
    refine h.runs (f := fun c =>
      { c with stack := { c.stack with words := target :: c.stack.words } }) ?_
    show onContext (m.advance.context.push _) = _
    rw [h.offset rfl (by decide) (by decide), push_ok _ hroom']
    rfl
  | loadWordIMem =>
    have hplan := m.advance.planLoad_mainMemory
      ((Decoded.mk .loadWordIMem (Instruction.loadWordIMem.readAs c) word).reg 0) target 4
    have hoffset := h.offset rfl (by decide) (by decide)
    show match m.memory.load target 4 with
      | .ok word => _
      | .error i => _
    have hmemory : m.advance.memory = m.memory := rfl
    rw [hmemory] at hplan
    rw [← hoffset] at hplan ⊢
    cases hload : m.memory.load _ 4 with
    | ok loaded =>
      rw [hload] at hplan
      exact h.runs (f := fun c => c.assign _ loaded) hplan
    | error j =>
      rw [hload] at hplan
      exact stops_of_plan h.fetch h.word.decode h.holds hplan
  | storeWordIMem =>
    have hoffset := h.offset rfl (by decide) (by decide)
    have hplan := m.advance.planStore_mainMemory
      ((Decoded.mk .storeWordIMem (Instruction.storeWordIMem.readAs c) word).imm <<< 2) 4
      (m.advance.context.registers.get
        ((Decoded.mk .storeWordIMem (Instruction.storeWordIMem.readAs c) word).reg 0))
    have hregisters : m.advance.context.registers = m.context.registers := by rw [context_advance]
    have hmemory : m.advance.memory = m.memory := rfl
    show match m.memory.store target 4 _ with
      | .ok memory => _
      | .error i => _
    rw [hmemory, hregisters] at hplan
    rw [← hoffset]
    cases hstore : m.memory.store _ 4 _ with
    | ok memory =>
      rw [hstore] at hplan
      obtain ⟨e, hplan, hperform⟩ := hplan
      rw [← hregisters] at hplan
      have hruns := runs_of_plan h.ready h.fetch h.word.decode h.holds hplan (by rw [hperform]; rfl)
        (by rw [hperform]; exact h.ready.running)
      rw [hperform] at hruns
      exact hruns
    | error j =>
      rw [hstore, ← hregisters] at hplan
      exact stops_of_plan h.fetch h.word.decode h.holds hplan
  | loadByteI =>
    refine h.runs (f := fun c => c.assign _ target) ?_
    rw [← h.imm (by decide)]
    rfl
  | loadHwordI =>
    refine h.runs (f := fun c => c.assign _ target) ?_
    rw [← h.imm (by decide)]
    rfl
  | _ => exact ⟨_, by rw [h.fetch]; exact h.word.decode, rfl, h.imm (by decide)⟩

/-! ### Words in memory -/

theorem toNat_pc_add_four (h : m.Sound) (hinside : m.context.pc.toNat < m.memory.size) :
    (m.context.pc + 4).toNat = m.context.pc.toNat + 4 := by
  have hmax := h.valid.2.1
  rw [← h.memory] at hmax
  unfold Memory.maxSize at hmax
  rw [UInt32.toNat_add]
  show (m.context.pc.toNat + 4) % 2 ^ 32 = _
  omega

theorem fetch_of_slice (h : m.Sound) (habove : vectorsEnd ≤ m.context.pc.toNat)
    (haligned : m.context.pc.toNat % 4 = 0) (hinside : m.context.pc.toNat + 4 ≤ m.memory.size)
    (hslice : m.memory.slice m.context.pc.toNat 4 = LittleEndian.wordBytes word) :
    m.fetch = .ok word := by
  have hmax := h.valid.2.1
  rw [← h.memory] at hmax
  have haccepts : ¬m.RejectsPc := by
    unfold RejectsPc
    unfold Memory.maxSize at hmax
    omega
  rw [fetch_eq h haccepts, hslice, LittleEndian.value_wordBytes, UInt32.ofNat_toNat]

/-- These words are in memory from the program counter on, where they can be fetched. -/
structure Stands (m : Machine) (words : List UInt32) : Prop where
  above : vectorsEnd ≤ m.context.pc.toNat
  aligned : m.context.pc.toNat % 4 = 0
  inside : m.context.pc.toNat + 4 * words.length ≤ m.memory.size
  slice : m.memory.slice m.context.pc.toNat (4 * words.length) =
    words.flatMap LittleEndian.wordBytes

namespace Stands
variable {rest : List UInt32}

theorem parts (h : m.Stands (word :: rest)) :
    m.memory.slice m.context.pc.toNat 4 = LittleEndian.wordBytes word ∧
      m.memory.slice (m.context.pc.toNat + 4) (4 * rest.length) =
        rest.flatMap LittleEndian.wordBytes := by
  have hlength : 4 * (word :: rest).length = 4 + 4 * rest.length := by
    rw [List.length_cons]
    omega
  have hslice := h.slice
  rw [hlength, List.flatMap_cons] at hslice
  exact Memory.slice_of_append (LittleEndian.length_wordBytes word)
    (length_flatMap_wordBytes rest) hslice

theorem inside_cons (h : m.Stands (word :: rest)) :
    m.context.pc.toNat + 4 + 4 * rest.length ≤ m.memory.size := by
  have hinside := h.inside
  rw [List.length_cons] at hinside
  omega

/-- The first of the words is fetched. -/
theorem fetch (h : m.Stands (word :: rest)) (hsound : m.Sound) : m.fetch = .ok word := by
  have hinside := h.inside_cons
  exact fetch_of_slice hsound h.above h.aligned (by omega) h.parts.1

/-- The others stand where the program counter comes to next. -/
theorem next (h : m.Stands (word :: rest)) (hsound : m.Sound) {m' : Machine}
    (hmemory : m'.memory = m.memory) (hpc : m'.context.pc = m.context.pc + 4) :
    m'.Stands rest := by
  have hinside := h.inside_cons
  have habove := h.above
  have haligned := h.aligned
  have hnext : m'.context.pc.toNat = m.context.pc.toNat + 4 := by
    rw [hpc]
    exact toNat_pc_add_four hsound (by omega)
  constructor
  · omega
  · omega
  · rw [hnext, hmemory]
    exact hinside
  · rw [hnext, hmemory]
    exact h.parts.2

end Stands

/-! ### Two halves -/

/-- What `LOADWORDI` makes of a register with its first word. -/
def withLow (held value : UInt32) : UInt32 := held &&& 0xFFFF0000 ||| value &&& 0xFFFF

/-- What it makes of the register with its second word. -/
def withHigh (held value : UInt32) : UInt32 :=
  (held &&& 0x0000FFFF : UInt32) ||| Selector.field 16 (value >>> 16 &&& 0xFFFF)

/-- Both halves of a value leave nothing of what was there. -/
theorem withHigh_withLow (held value : UInt32) : withHigh (withLow held value) value = value := by
  have hlow : withLow held value &&& 0x0000FFFF = value &&& 0xFFFF := by
    have hnone : (0xFFFF0000 : UInt32) &&& 0x0000FFFF = 0 := by decide
    unfold withLow
    rw [or_and, UInt32.and_assoc, UInt32.and_assoc, hnone, UInt32.and_zero, UInt32.zero_or,
      UInt32.and_self]
  have hmod : ∀ n : Nat, n &&& 65535 = n % 2 ^ 16 := by
    intro n
    exact Nat.and_two_pow_sub_one_eq_mod n 16
  have hhigh : (Selector.field 16 (value >>> 16 &&& 0xFFFF)).toNat =
      2 ^ 16 * (value.toNat / 2 ^ 16) := by
    have hlt := value.toNat_lt
    show ((value >>> 16 &&& 0xFFFF) <<< 16).toNat = _
    rw [UInt32.toNat_shiftLeft, UInt32.toNat_and, UInt32.toNat_shiftRight]
    show ((value.toNat >>> 16 &&& 65535) <<< 16) % 2 ^ 32 = _
    rw [hmod, Nat.shiftRight_eq_div_pow, Nat.shiftLeft_eq]
    omega
  rw [withHigh, hlow]
  apply UInt32.toNat_inj.mp
  rw [UInt32.toNat_or, UInt32.toNat_and, hhigh]
  show (value.toNat &&& 65535) ||| _ = _
  rw [hmod, Nat.or_comm, ← Nat.two_pow_add_eq_or_of_lt (Nat.mod_lt _ (by decide))]
  exact Nat.div_add_mod _ _

theorem plan_loadWordILo (m : Machine) {rd : Reg} {value : UInt32}
    (hrd : (Decoded.mk .loadWordILo c word).reg 0 = rd)
    (himm : (Decoded.mk .loadWordILo c word).imm = value &&& 0xFFFF) :
    m.plan ⟨.loadWordILo, c, word⟩ =
      .ok (.context (m.context.assign rd (withLow (m.context.registers.get rd) value))) := by
  rw [withLow, ← himm, ← hrd]
  rfl

theorem plan_loadWordIHi (m : Machine) {rd : Reg} {value : UInt32}
    (hrd : (Decoded.mk .loadWordIHi c word).reg 0 = rd)
    (himm : (Decoded.mk .loadWordIHi c word).imm = value >>> 16 &&& 0xFFFF) :
    m.plan ⟨.loadWordIHi, c, word⟩ =
      .ok (.context (m.context.assign rd (withHigh (m.context.registers.get rd) value))) := by
  rw [withHigh, ← himm, ← hrd]
  rfl

/-- Behind words of this size that load a value if their condition is met. -/
def loadedIf (c : Condition) (rd : Reg) (value size : UInt32) (x : Context) : Context :=
  { (if c.holds x.flag then x.assign rd value else x) with pc := x.pc + size }

theorem loadedIf_loadedIf (c : Condition) (rd : Reg) (first second : UInt32) (x : Context) :
    loadedIf c rd second 4 (loadedIf c rd first 4 x) = loadedIf c rd second 8 x := by
  have hpc : x.pc + 4 + 4 = x.pc + 8 := UInt32.add_assoc _ _ _
  by_cases hholds : c.holds x.flag = true
  · have hregisters : (x.registers.set rd first).set rd second = x.registers.set rd second :=
      Vector.set_set _ _
    simp only [loadedIf, hholds, if_true, Context.assign, hregisters, hpc]
  · simp only [loadedIf, hholds, Bool.false_eq_true, if_false, hpc]

/-- A word that loads a value if its condition is met, in one step. -/
theorem runs_of_assign (h : m.Ready) {d : Decoded} {rd : Reg} {value : UInt32}
    (hfetch : m.fetch = .ok word) (hdecode : decode word = some d)
    (hplan : m.advance.plan d = .ok (.context (m.advance.context.assign rd value))) :
    m.Runs (m.modifyContext (loadedIf d.condition rd value 4)) := by
  by_cases hholds : d.condition.holds m.context.flag = true
  · have hruns := runs_of_context h (f := fun c => c.assign rd value) hfetch hdecode hholds hplan
    have hsame : m.modifyContext (loadedIf d.condition rd value 4) =
        m.modifyContext fun c => Context.assign { c with pc := c.pc + 4 } rd value :=
      modifyContext_congr (by rw [loadedIf, if_pos hholds]; rfl)
    exact hsame ▸ hruns
  · have hsame : m.modifyContext (loadedIf d.condition rd value 4) = m.advance :=
      modifyContext_congr (by rw [loadedIf, if_neg hholds])
    exact hsame ▸ runs_of_skip h hfetch hdecode hholds

/-- The two words of a `LOADWORDI` leave the whole value in the register if their condition is met,
in two steps. -/
theorem runs_of_halves (h : m.Ready) {rd : Reg} {value low high : UInt32}
    (hhalves : Halves c rd value low high) (hstands : m.Stands [low, high]) :
    ∃ m', m.Runs m' ∧ m'.Runs (m.modifyContext (loadedIf c rd value 8)) := by
  let first := withLow (m.context.registers.get rd) value
  let m' := m.modifyContext (loadedIf c rd first 4)
  have hfirst : m.Runs m' := by
    refine runs_of_assign h (hstands.fetch h.sound) hhalves.decode_low ?_
    rw [m.advance.plan_loadWordILo hhalves.reg_low hhalves.imm_low, context_advance]
  have hsound : m'.Sound := hfirst.1 ▸ h.sound.follows m.follows_step
  have hcontext : m'.context = loadedIf c rd first 4 m.context := context_modifyContext m _
  have hnext : m'.Stands [high] := hstands.next h.sound rfl (congrArg Context.pc hcontext)
  refine ⟨m', hfirst, ?_⟩
  let second := withHigh (m'.advance.context.registers.get rd) value
  have hsecond : m'.Runs (m'.modifyContext (loadedIf c rd second 4)) :=
    runs_of_assign ⟨hsound, h.running, h.quiet⟩ (hnext.fetch hsound) hhalves.decode_high
      (m'.advance.plan_loadWordIHi hhalves.reg_high hhalves.imm_high)
  have hmachine : m'.modifyContext (loadedIf c rd second 4) =
      m.modifyContext (loadedIf c rd value 8) := by
    rw [modifyContext_modifyContext]
    refine modifyContext_congr ((loadedIf_loadedIf c rd first second m.context).trans ?_)
    by_cases hholds : c.holds m.context.flag = true
    · have hheld : m'.advance.context.registers.get rd = first := by
        rw [context_advance, hcontext, loadedIf, if_pos hholds]
        exact Vector.getElem_set_self _
      have hvalue : second = value := by
        show withHigh (m'.advance.context.registers.get rd) value = value
        rw [hheld, withHigh_withLow]
      rw [hvalue]
    · rw [loadedIf, loadedIf, if_neg hholds, if_neg hholds]
  exact hmachine ▸ hsecond

theorem loads_of_halves (h : m.Ready) {rd : Reg} {value low high : UInt32}
    (hhalves : Halves c rd value low high) (hholds : c.holds m.context.flag = true)
    (hstands : m.Stands [low, high]) : m.UsesIn rd value .loadWordI := by
  obtain ⟨m', hfirst, hsecond⟩ := runs_of_halves h hhalves hstands
  have hsame : m.modifyContext (loadedIf c rd value 8) =
      m.modifyContext fun c => { c.assign rd value with pc := c.pc + 8 } :=
    modifyContext_congr (by rw [loadedIf, if_pos hholds])
  exact ⟨m', hfirst, hsame ▸ hsecond⟩

/-! ### Labels -/

theorem readAs_holds {flag : Int} (hholds : c.holds flag = true) :
    (i.readAs c).holds flag = true := by
  by_cases hconditional : i.isConditional = true
  · rw [Instruction.readAs, if_pos hconditional]
    exact hholds
  · rw [Instruction.readAs, if_neg hconditional]
    rfl

/-- **Labels mean the same to the assembler and to the machine.** Of a program that assembles, every
instruction with a label operand uses the address that the program gives to the label, when a
machine executes its words where the program has them, with its condition met. -/
theorem uses_label {source : String} {origin : UInt32} {l : Layout} {mnemonic : Mnemonic}
    {name label : String} (hassemble : Program.assemble source origin = .ok p)
    (hlayout : Program.layout source origin = .ok l) (hitem : item ∈ l.items)
    (hinstruction : item.item = .instruction mnemonic c name operands) (htoken : token ∈ operands)
    (hreference : token.reference? = some label) (hreach : m.Reachable) (hpoised : m.Poised p item)
    (hholds : c.holds m.context.flag = true) :
    ∃ target rd, p.label? label = some target ∧
      (∀ first, operands = [first, token] → Reg.parse first.text = .ok rd) ∧
      m.UsesIn rd target mnemonic := by
  have hready : m.Ready := ⟨hreach.sound, hpoised.running, hpoised.quiet⟩
  obtain ⟨front, back, hitems⟩ := List.append_of_mem hitem
  obtain ⟨own, hown, hlength, hloaded⟩ := Program.emitted_at hassemble hlayout hitems
  obtain ⟨l', hlayout', horigin, -, hp, htiles, hsized⟩ := Program.assemble_ok hassemble
  obtain rfl := Except.ok.inj (hlayout'.symm.trans hlayout)
  have haddress : item.address % 4 = 0 := htiles.address_mod hsized horigin hitems
  have hlabels : l'.labels.Aligned := Program.aligned_of_layout horigin hlayout
  have hlabel : p.label? label = l'.labels.lookup? label := by rw [hp]; rfl
  have hslice : m.memory.slice item.address item.size = own := by
    rw [hpoised.loaded, hp]
    exact hloaded
  rw [Placed.bytes, hinstruction] at hown
  obtain ⟨words, hwords, rfl⟩ := map_ok_iff.mp hown
  have hwords := mapError_ok_iff.mp hwords
  rw [length_flatMap_wordBytes] at hlength
  have hstands : m.Stands words := by
    refine ⟨?_, ?_, ?_, ?_⟩
    · rw [hpoised.pc]
      exact hpoised.above
    · rw [hpoised.pc]
      exact haddress
    · rw [hpoised.pc, hlength]
      exact hpoised.inside
    · rw [hpoised.pc, hlength]
      exact hslice
  cases mnemonic with
  | native i =>
    obtain ⟨target, word, htarget, rfl, hword⟩ := refers_of_words hlabels hwords htoken hreference
    rw [← hpoised.pc] at hword
    have hrefers : m.Refers i c operands token target word :=
      ⟨hready, hstands.fetch hready.sound, hword, readAs_holds hholds, hlabels _ _ htarget⟩
    exact ⟨target, _, hlabel.trans htarget, hword.register, uses_of_refers hrefers⟩
  | loadWordI =>
    obtain ⟨first, target, rd, low, high, rfl, hrd, htarget, rfl, hhalves⟩ :=
      halves_of_words hwords htoken hreference
    refine ⟨target, rd, hlabel.trans htarget, ?_, loads_of_halves hready hhalves hholds hstands⟩
    intro other hother
    obtain rfl : first = other := (List.cons.inj hother).1
    exact hrd

/-- The smallest machine, with a program that loads the address of its data. -/
def referring : Machine :=
  (blank ⟨512, 1, false, false, 0⟩).act (.loadSource "loadwordi r1, @x; .data; int x 5;")

theorem uses_label_referring : ∃ m', referring.Runs m' ∧
    m'.Runs (referring.modifyContext fun c => { c.assign 0 108 with pc := c.pc + 8 }) := by
  have hcreate : Machine.create ⟨512, 1, false, false, 0⟩ =
      .ok (blank ⟨512, 1, false, false, 0⟩, []) := rfl
  have hreach : referring.Reachable :=
    .act (.create hcreate) (.loadSource "loadwordi r1, @x; .data; int x 5;") trivial
  have hprogram : (Program.assemble "loadwordi r1, @x; .data; int x 5;" 96).toOption.map
      (fun p => (p.origin, p.bytes, p.label? "x")) =
        some (96, [108, 0, 6, 2, 0, 0, 7, 2, 28, 0, 0, 16, 5, 0, 0, 0], some 108) := by
    decide +kernel
  obtain ⟨p, hp, hparts⟩ := Option.map_eq_some_iff.mp hprogram
  let item : Placed := ⟨.instruction .loadWordI .always "loadwordi"
    [⟨"r1", ⟨1, 11⟩, false⟩, ⟨"@x", ⟨1, 15⟩, false⟩], 96, 8, ⟨1, 1⟩⟩
  have hitems : (Program.layout "loadwordi r1, @x; .data; int x 5;" 96).toOption.map
      (fun l => l.items.head?) = some (some item) := by
    decide +kernel
  obtain ⟨l, hl, hitem⟩ := Option.map_eq_some_iff.mp hitems
  obtain ⟨horigin, hbytes, hlabel⟩ : p.origin = 96 ∧
      p.bytes = [108, 0, 6, 2, 0, 0, 7, 2, 28, 0, 0, 16, 5, 0, 0, 0] ∧ p.label? "x" = some 108 := by
    simpa using hparts
  have hstate : referring.halted = false ∧ referring.control.needsAttention = false ∧
      referring.context.pc.toNat = 96 ∧ 96 + 8 ≤ referring.memory.size ∧
      referring.memory.slice 96 8 = [108, 0, 6, 2, 0, 0, 7, 2] ∧
      Condition.always.holds referring.context.flag = true := by decide +kernel
  obtain ⟨hrunning, hquiet, hpc, hinside, hloaded, hholds⟩ := hstate
  have hpoised : referring.Poised p item := by
    refine ⟨hrunning, hquiet, hpc, by decide, hinside, ?_⟩
    rw [hbytes, horigin]
    exact hloaded
  have hreference : Token.reference? ⟨"@x", ⟨1, 15⟩, false⟩ = some "x" := by decide +kernel
  obtain ⟨target, rd, htarget, hrd, huses⟩ := uses_label (ok_of_toOption hp) (ok_of_toOption hl)
    (List.mem_of_mem_head? hitem) rfl (List.mem_cons_of_mem _ List.mem_cons_self) hreference hreach
    hpoised hholds
  obtain rfl := Option.some.inj (hlabel.symm.trans htarget)
  have hr1 : Reg.parse "r1" = .ok 0 := rfl
  obtain rfl := Except.ok.inj (hr1.symm.trans (hrd _ rfl))
  exact huses

end RegisterMachine.Machine
