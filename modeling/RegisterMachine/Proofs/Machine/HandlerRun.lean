import RegisterMachine.Proofs.Instruction.RoundTrip
import RegisterMachine.Proofs.Machine.HandlerSource
import RegisterMachine.Proofs.Machine.LabelUse

/-! How a fault handler runs.

The nine words of a handler stand in memory with the message of its fault (`Standing`). They
use two registers, the flag and the program counter, so every state of the run is the
machine in which the handler was entered but for these and the console (`during`), and each
instruction leads from one such state to another. The loop over the message is taken by
induction on what is left of it (`walks_print`), and the whole handler follows
(`walks_handler`). -/
namespace RegisterMachine

/-! ### The console -/

namespace Console

/-- Flushing works and there is room for so many bytes. -/
structure Takes (c : Console) (n : Nat) : Prop where
  flush : c.flushFailure = none
  room : ∀ r ∈ c.room, n ≤ r.1

/-- The console when these bytes have been written. -/
def printed (c : Console) (bytes : List UInt8) : Console :=
  { c with
    written := bytes.reverse ++ c.written
    room := c.room.map fun r => (r.1 - bytes.length, r.2) }

variable {c : Console} {n : Nat}

theorem printed_nil (c : Console) : c.printed [] = c := by
  obtain ⟨input, failure, written, room, flush⟩ := c
  cases room <;> rfl

theorem printed_printed (c : Console) (first second : List UInt8) :
    (c.printed first).printed second = c.printed (first ++ second) := by
  obtain ⟨input, failure, written, room, flush⟩ := c
  cases room with
  | none => simp [printed]
  | some r => simp [printed, Nat.sub_sub]

theorem output_printed (c : Console) (bytes : List UInt8) :
    (c.printed bytes).output = c.output ++ bytes := by
  rw [output, output, printed, List.reverse_append, List.reverse_reverse]

theorem write_of_takes (h : c.Takes (n + 1)) (b : UInt8) :
    c.write b = (.ok (), c.printed [b]) ∧ (c.printed [b]).Takes n := by
  obtain ⟨input, failure, written, room, flush⟩ := c
  obtain rfl : flush = none := h.flush
  have hflushed : (if b = 10 then Console.flush ⟨input, failure, written, room, none⟩ else .ok ()) =
      (.ok () : Except StreamError Unit) := by
    split <;> rfl
  cases room with
  | none =>
    refine ⟨?_, rfl, nofun⟩
    simp only [write, hflushed]
    rfl
  | some r =>
    obtain ⟨left, reason⟩ := r
    have hroom : n + 1 ≤ left := h.room _ rfl
    obtain ⟨left, rfl⟩ : ∃ k, left = k + 1 := ⟨left - 1, by omega⟩
    refine ⟨?_, rfl, ?_⟩
    · simp only [write, hflushed]
      rfl
    · rintro _ ⟨⟩
      show n ≤ left + 1 - 1
      omega

end Console

namespace Machine

/-! ### Runs -/

/-- So many steps lead from one machine to another; each of them goes on and leaves the call stack
of the active context as it is. -/
inductive Walks : Nat → Machine → Machine → Prop
  | refl (m : Machine) : Walks 0 m m
  | step {n : Nat} {m m' m'' : Machine} (hruns : m.Runs m')
    (hstack : m'.context.stack = m.context.stack) (hrest : Walks n m' m'') : Walks (n + 1) m m''

theorem Walks.trans {n k : Nat} {m m' m'' : Machine} (h : Walks n m m') (h' : Walks k m' m'') :
    Walks (n + k) m m'' := by
  induction h with
  | refl m =>
    rw [Nat.zero_add]
    exact h'
  | step hruns hstack _ ih =>
    rw [Nat.add_right_comm]
    exact .step hruns hstack (ih h')

/-! ### Instructions by their arguments -/

section Plans
variable {m : Machine} {d : Decoded} {rd : Reg} {x y : Operand} {value : UInt32}

theorem plan_loadByte (hi : d.instruction = .loadByte)
    (hargs : d.args = [.operand (.register rd), .operand x, .operand y]) :
    m.plan d = m.planLoad rd (m.context.read y) (m.context.read x) 1 := by
  obtain ⟨i, c, word⟩ := d
  obtain rfl : i = .loadByte := hi
  obtain ⟨hrd, hx, hy⟩ : Decoded.reg ⟨.loadByte, c, word⟩ 0 = rd ∧
      Decoded.operand ⟨.loadByte, c, word⟩ 1 = x ∧ Decoded.operand ⟨.loadByte, c, word⟩ 2 = y := by
    have hgiven : [Arg.operand (.register (Decoded.reg ⟨.loadByte, c, word⟩ 0)),
        .operand (Decoded.operand ⟨.loadByte, c, word⟩ 1),
        .operand (Decoded.operand ⟨.loadByte, c, word⟩ 2)] = _ := hargs
    simpa using hgiven
  rw [← hrd, ← hx, ← hy]
  rfl

theorem plan_cmp (hi : d.instruction = .cmp) (hargs : d.args = [.operand x, .operand y]) :
    m.plan d = .ok (.context { m.context with
      flag := Arithmetic.compareInt (m.context.read x).toInt32 (m.context.read y).toInt32 }) := by
  obtain ⟨i, c, word⟩ := d
  obtain rfl : i = .cmp := hi
  obtain ⟨hx, hy⟩ :
      Decoded.operand ⟨.cmp, c, word⟩ 0 = x ∧ Decoded.operand ⟨.cmp, c, word⟩ 1 = y := by
    have hgiven : [Arg.operand (Decoded.operand ⟨.cmp, c, word⟩ 0),
        .operand (Decoded.operand ⟨.cmp, c, word⟩ 1)] = _ := hargs
    simpa using hgiven
  rw [← hx, ← hy]
  rfl

theorem plan_jz (hi : d.instruction = .jz) (hargs : d.args = [.immediate value]) :
    m.plan d = .ok (.context (if Condition.zero.holds m.context.flag then
      m.context.jump (value <<< 2) else m.context)) := by
  obtain ⟨i, c, word⟩ := d
  obtain rfl : i = .jz := hi
  obtain rfl : Decoded.imm ⟨.jz, c, word⟩ = value := by
    have hgiven : [Arg.immediate (Decoded.imm ⟨.jz, c, word⟩)] = _ := hargs
    simpa using hgiven
  rfl

theorem plan_jmp (hi : d.instruction = .jmp) (hargs : d.args = [.immediate value]) :
    m.plan d = .ok (.context (m.context.jump (value <<< 2))) := by
  obtain ⟨i, c, word⟩ := d
  obtain rfl : i = .jmp := hi
  obtain rfl : Decoded.imm ⟨.jmp, c, word⟩ = value := by
    have hgiven : [Arg.immediate (Decoded.imm ⟨.jmp, c, word⟩)] = _ := hargs
    simpa using hgiven
  rfl

theorem plan_putchar (hi : d.instruction = .putchar) (hargs : d.args = [.operand x]) :
    m.plan d = .ok (.writeByte (m.context.read x).toUInt8) := by
  obtain ⟨i, c, word⟩ := d
  obtain rfl : i = .putchar := hi
  obtain rfl : Decoded.operand ⟨.putchar, c, word⟩ 0 = x := by
    have hgiven : [Arg.operand (Decoded.operand ⟨.putchar, c, word⟩ 0)] = _ := hargs
    simpa using hgiven
  rfl

theorem plan_inc (hi : d.instruction = .inc) (hargs : d.args = [.operand (.register rd)]) :
    m.plan d = .ok (.context (m.context.assign rd (m.context.registers.get rd + 1))) := by
  obtain ⟨i, c, word⟩ := d
  obtain rfl : i = .inc := hi
  obtain rfl : Decoded.reg ⟨.inc, c, word⟩ 0 = rd := by
    have hgiven : [Arg.operand (.register (Decoded.reg ⟨.inc, c, word⟩ 0))] = _ := hargs
    simpa using hgiven
  rfl

end Plans

theorem halts_of_executes {m : Machine} {d : Decoded} (h : m.Ready) (hd : m.Executes d)
    (hhalt : d.instruction = .halt) :
    m.step.machine = { m.advance with halted := true } ∧ m.step.answer = .ok .halted := by
  obtain ⟨hmachine, hanswer⟩ := hd.halts hhalt
  rw [step_of_ready h]
  unfold conclude
  rw [hanswer, hmachine]
  exact ⟨rfl, rfl⟩

/-! ### Words in memory -/

/-- The bytes are the word of this instruction with these arguments, under no condition. -/
def Written (i : Instruction) (args : List Arg) (bytes : List UInt8) : Prop :=
  ∃ word d, bytes = LittleEndian.wordBytes word ∧ decode word = some d ∧ d.instruction = i ∧
    d.condition = .always ∧ d.args = args

namespace Handler

/-- The handler of a fault, with its message, in the bytes of all handlers, which stand at this
address. -/
structure Stands (bytes : List UInt8) (origin : Nat) (i : Interrupt) : Prop where
  halves : ∃ low high,
    (bytes.drop (entry i)).take 8 = [low, high].flatMap LittleEndian.wordBytes ∧
      Halves .always 0 (UInt32.ofNat (origin + messageStart i)) low high
  load : Written .loadByte [.operand (.register 1), .operand (.register 0), .operand .zero]
    ((bytes.drop (entry i + 8)).take 4)
  compare : Written .cmp [.operand (.register 1), .operand .zero]
    ((bytes.drop (entry i + 12)).take 4)
  leave : ∃ value, Written .jz [.immediate value] ((bytes.drop (entry i + 16)).take 4) ∧
    value <<< 2 = UInt32.ofNat (origin + (entry i + 32))
  print : Written .putchar [.operand (.register 1)] ((bytes.drop (entry i + 20)).take 4)
  next : Written .inc [.operand (.register 0)] ((bytes.drop (entry i + 24)).take 4)
  again : ∃ value, Written .jmp [.immediate value] ((bytes.drop (entry i + 28)).take 4) ∧
    value <<< 2 = UInt32.ofNat (origin + (entry i + 8))
  halt : Written .halt [] ((bytes.drop (entry i + 32)).take 4)
  message : (bytes.drop (messageStart i)).take (message i).length = message i

/-- The machine has all handlers from this address on, and this one is for the fault. -/
structure Standing (m : Machine) (origin : Nat) (i : Interrupt) : Prop where
  ready : m.Ready
  above : vectorsEnd ≤ origin
  aligned : origin % 4 = 0
  inside : origin + size ≤ m.memory.size
  fault : i ∈ Interrupt.faults
  stands : Stands (m.memory.slice origin size) origin i

/-! ### States of the run -/

/-- A context with other values in the two registers, the flag and the program counter. -/
def contextAt (c : Context) (r1 r2 : UInt32) (flag : Int) (pc : Nat) : Context :=
  { c with registers := (c.registers.set 0 r1).set 1 r2, flag, pc := UInt32.ofNat pc }

/-- The machine with all that its handler changes before it halts. -/
def during (m : Machine) (r1 r2 : UInt32) (flag : Int) (pc : Nat) (console : Console) : Machine :=
  { m.modifyContext fun c => contextAt c r1 r2 flag pc with console }

variable {m : Machine} {c : Context} {r1 r2 value : UInt32} {flag : Int} {pc origin : Nat}
  {console : Console} {i : Interrupt}

@[simp] theorem context_during :
    (during m r1 r2 flag pc console).context = contextAt m.context r1 r2 flag pc :=
  context_modifyContext m _

theorem stack_during : (during m r1 r2 flag pc console).context.stack = m.context.stack := by
  rw [context_during]
  rfl

theorem read_first : (contextAt c r1 r2 flag pc).registers.get 0 = r1 := by
  show ((c.registers.set 0 r1).set 1 r2)[0] = r1
  simp

theorem read_second : (contextAt c r1 r2 flag pc).registers.get 1 = r2 := by
  show ((c.registers.set 0 r1).set 1 r2)[1] = r2
  simp

theorem assign_first :
    (contextAt c r1 r2 flag pc).assign 0 value = contextAt c value r2 flag pc := by
  have hregisters : ((c.registers.set 0 r1).set 1 r2).set 0 value =
      (c.registers.set 0 value).set 1 r2 := by
    rw [Vector.set_comm _ _ (by decide), Vector.set_set]
  unfold Context.assign contextAt
  dsimp only
  exact congrArg (fun registers => { c with registers, flag, pc := UInt32.ofNat pc }) hregisters

theorem assign_second :
    (contextAt c r1 r2 flag pc).assign 1 value = contextAt c r1 value flag pc := by
  have hregisters : ((c.registers.set 0 r1).set 1 r2).set 1 value =
      (c.registers.set 0 r1).set 1 value := Vector.set_set _ _
  unfold Context.assign contextAt
  dsimp only
  exact congrArg (fun registers => { c with registers, flag, pc := UInt32.ofNat pc }) hregisters

theorem advance_during :
    (during m r1 r2 flag pc console).advance = during m r1 r2 flag (pc + 4) console := by
  have hnext : UInt32.ofNat pc + 4 = UInt32.ofNat (pc + 4) := (UInt32.ofNat_add pc 4).symm
  have hcontext : ∀ c, { contextAt c r1 r2 flag pc with pc := UInt32.ofNat pc + 4 } =
      contextAt c r1 r2 flag (pc + 4) := by
    intro c
    rw [hnext]
    rfl
  have hmodify := m.modifyContext_modifyContext (fun c => contextAt c r1 r2 flag pc)
    fun c => { c with pc := c.pc + 4 }
  have hsame : (m.modifyContext fun c => { contextAt c r1 r2 flag pc with
      pc := UInt32.ofNat pc + 4 }) = m.modifyContext fun c => contextAt c r1 r2 flag (pc + 4) :=
    modifyContext_congr (hcontext _)
  exact congrArg (fun m => { m with console }) (hmodify.trans hsame)

theorem perform_context {r1' r2' : UInt32} {flag' : Int} {pc' : Nat} :
    (during m r1 r2 flag pc console).perform (.context (contextAt m.context r1' r2' flag' pc')) =
      (during m r1' r2' flag' pc' console).done := by
  have hmodify := m.modifyContext_modifyContext (fun c => contextAt c r1 r2 flag pc)
    fun _ => contextAt m.context r1' r2' flag' pc'
  have hsame : (m.modifyContext fun _ => contextAt m.context r1' r2' flag' pc') =
      m.modifyContext fun c => contextAt c r1' r2' flag' pc' := modifyContext_congr rfl
  exact congrArg (fun m => done { m with console }) (hmodify.trans hsame)

/-- The machine in which the handler is entered is the first state. -/
theorem during_self (hpc : m.context.pc = UInt32.ofNat pc) :
    during m (m.context.registers.get 0) (m.context.registers.get 1) m.context.flag pc m.console =
      m := by
  have hcontext : contextAt m.context (m.context.registers.get 0) (m.context.registers.get 1)
      m.context.flag pc = m.context := by
    have hregisters : (m.context.registers.set 0 (m.context.registers.get 0)).set 1
        (m.context.registers.get 1) = m.context.registers := by
      apply Vector.ext
      intro k hk
      simp only [Vector.getElem_set]
      split
      · rename_i h
        subst h
        rfl
      · split
        · rename_i h
          subst h
          rfl
        · rfl
    unfold contextAt
    rw [hregisters, ← hpc]
  unfold during
  rw [modifyContext_eq_self hcontext]

/-! ### One instruction of a handler -/

variable {k : Nat} {word : UInt32} {d : Decoded} {e : Effect} {b : UInt8}

namespace Standing

/-- The addresses of the handlers are those of words that can be fetched. -/
theorem place (h : Standing m origin i) (hk : k % 4 = 0) (hend : k + 4 ≤ size) :
    vectorsEnd ≤ origin + k ∧ (origin + k) % 4 = 0 ∧ origin + k + 4 ≤ m.memory.size ∧
      (UInt32.ofNat (origin + k)).toNat = origin + k := by
  have habove := h.above
  have haligned := h.aligned
  have hinside := h.inside
  have hmax := h.ready.sound.valid.2.1
  rw [← h.ready.sound.memory] at hmax
  unfold Memory.maxSize at hmax
  rw [UInt32.toNat_ofNat']
  omega

/-- Nothing that a handler changes keeps the machine from its next instruction. -/
theorem ready_during (h : Standing m origin i) : (during m r1 r2 flag pc console).Ready :=
  ⟨h.ready.sound.follows (follows_of_same rfl rfl rfl rfl), h.ready.running, h.ready.quiet⟩

theorem fetch (h : Standing m origin i) (hk : k % 4 = 0) (hend : k + 4 ≤ size)
    (hbytes : ((m.memory.slice origin size).drop k).take 4 = LittleEndian.wordBytes word) :
    (during m r1 r2 flag (origin + k) console).fetch = .ok word := by
  obtain ⟨habove, haligned, hinside, htoNat⟩ := h.place hk hend
  have hpc : (during m r1 r2 flag (origin + k) console).context.pc.toNat = origin + k := by
    rw [context_during]
    exact htoNat
  have hslice : m.memory.slice (origin + k) 4 = LittleEndian.wordBytes word := by
    rw [← Memory.slice_slice hend]
    exact hbytes
  refine fetch_of_slice h.ready_during.sound ?_ ?_ ?_ ?_ <;> rw [hpc]
  · exact habove
  · exact haligned
  · exact hinside
  · exact hslice

theorem runs (h : Standing m origin i) (hk : k % 4 = 0) (hend : k + 4 ≤ size)
    (hbytes : ((m.memory.slice origin size).drop k).take 4 = LittleEndian.wordBytes word)
    (hdecode : decode word = some d) (hcondition : d.condition = .always)
    (hplan : (during m r1 r2 flag (origin + (k + 4)) console).plan d = .ok e)
    (hdone : ((during m r1 r2 flag (origin + (k + 4)) console).perform e).stop = none)
    (hstill : ((during m r1 r2 flag (origin + (k + 4)) console).perform e).machine.halted = false) :
    (during m r1 r2 flag (origin + k) console).Runs
      ((during m r1 r2 flag (origin + (k + 4)) console).perform e).machine := by
  have hadvance : (during m r1 r2 flag (origin + k) console).advance =
      during m r1 r2 flag (origin + (k + 4)) console := advance_during
  rw [← hadvance] at hplan hdone hstill ⊢
  exact runs_of_plan h.ready_during (h.fetch hk hend hbytes) hdecode (by rw [hcondition]; rfl)
    hplan hdone hstill

/-- An instruction that changes registers, the flag or the program counter. -/
theorem walks_context {r1' r2' : UInt32} {flag' : Int} {pc' : Nat} (h : Standing m origin i)
    (hk : k % 4 = 0) (hend : k + 4 ≤ size)
    (hbytes : ((m.memory.slice origin size).drop k).take 4 = LittleEndian.wordBytes word)
    (hdecode : decode word = some d) (hcondition : d.condition = .always)
    (hplan : (during m r1 r2 flag (origin + (k + 4)) console).plan d =
      .ok (.context (contextAt m.context r1' r2' flag' pc'))) :
    Walks 1 (during m r1 r2 flag (origin + k) console) (during m r1' r2' flag' pc' console) := by
  have hperform : (during m r1 r2 flag (origin + (k + 4)) console).perform
      (.context (contextAt m.context r1' r2' flag' pc')) =
        (during m r1' r2' flag' pc' console).done := perform_context
  have hruns := h.runs hk hend hbytes hdecode hcondition hplan (by rw [hperform]; rfl)
    (by rw [hperform]; exact h.ready.running)
  rw [hperform] at hruns
  exact .step hruns (stack_during.trans stack_during.symm) (.refl _)

end Standing

/-! ### The loop -/

/-- A byte is loaded from where the first register points. -/
theorem walks_load (h : Standing m origin i) {a : Nat} (ha : a < m.memory.size)
    (hbyte : m.memory.slice a 1 = [b]) :
    Walks 1 (during m (UInt32.ofNat a) r2 flag (origin + (entry i + 8)) console)
      (during m (UInt32.ofNat a) b.toUInt32 flag (origin + (entry i + 12)) console) := by
  obtain ⟨hk, hend⟩ := entry_inside h.fault
  obtain ⟨word, d, hbytes, hdecode, hinstruction, hcondition, hargs⟩ := h.stands.load
  refine h.walks_context (by omega) (by omega) hbytes hdecode hcondition ?_
  have hmax := h.ready.sound.valid.2.1
  rw [← h.ready.sound.memory] at hmax
  unfold Memory.maxSize at hmax
  have htoNat : (UInt32.ofNat a).toNat = a := by
    rw [UInt32.toNat_ofNat']
    omega
  have hspan : m.memory.span (UInt32.ofNat a) 1 = .ok a :=
    Memory.span_eq_ok_iff.mpr ⟨htoNat.symm, by omega, by omega⟩
  have hload : m.memory.load (UInt32.ofNat a) 1 = .ok b.toUInt32 := by
    rw [Memory.load, Memory.read, hspan]
    show Except.ok (UInt32.ofNat (LittleEndian.value (m.memory.slice a 1))) = _
    rw [hbyte, LittleEndian.value_singleton, UInt32.ofNat_uInt8ToNat]
  rw [plan_loadByte hinstruction hargs, context_during]
  show planLoad _ 1 DeviceTable.mainMemory ((contextAt _ _ _ _ _).registers.get 0) 1 = _
  rw [read_first, planLoad, space_mainMemory]
  show ((m.memory.load (UInt32.ofNat a) 1).mapError Stop.interrupt >>= _) = _
  rw [hload]
  show Except.ok (Effect.context ((during m _ _ _ _ _).context.assign 1 _)) = _
  rw [context_during, assign_second]

/-- No byte is a negative number. -/
theorem compareInt_byte (b : UInt8) :
    Arithmetic.compareInt b.toUInt32.toInt32 0 = if b = 0 then 0 else 1 := by
  have hvalue : b.toUInt32.toInt32.toInt = b.toNat := by
    have hlt := b.toNat_lt
    show b.toUInt32.toBitVec.toInt = _
    rw [BitVec.toInt_eq_toNat_of_lt]
    · rfl
    · show 2 * b.toNat < 2 ^ 32
      omega
  have hnot : ¬b.toUInt32.toInt32 < 0 := by
    rw [Int32.lt_iff_toInt_lt, hvalue]
    show ¬(b.toNat : Int) < 0
    omega
  have hzero : b.toUInt32.toInt32 = 0 ↔ b = 0 := by
    rw [← Int32.toInt_inj, hvalue, ← UInt8.toNat_inj]
    show (b.toNat : Int) = 0 ↔ b.toNat = 0
    omega
  rw [Arithmetic.compareInt, if_neg hnot]
  simp only [hzero]

/-- The byte is compared with zero. -/
theorem walks_compare (h : Standing m origin i) {flag' : Int}
    (hflag : flag' = if b = 0 then 0 else 1) :
    Walks 1 (during m r1 b.toUInt32 flag (origin + (entry i + 12)) console)
      (during m r1 b.toUInt32 flag' (origin + (entry i + 16)) console) := by
  obtain ⟨hk, hend⟩ := entry_inside h.fault
  obtain ⟨word, d, hbytes, hdecode, hinstruction, hcondition, hargs⟩ := h.stands.compare
  refine h.walks_context (by omega) (by omega) hbytes hdecode hcondition ?_
  rw [plan_cmp hinstruction hargs, context_during]
  show Except.ok (Effect.context { contextAt _ _ _ _ _ with
    flag := Arithmetic.compareInt ((contextAt _ _ _ _ _).registers.get 1).toInt32 0 }) = _
  rw [read_second, compareInt_byte, ← hflag]
  rfl

/-- The zero behind the message ends the loop. -/
theorem walks_leave (h : Standing m origin i) :
    Walks 1 (during m r1 r2 0 (origin + (entry i + 16)) console)
      (during m r1 r2 0 (origin + (entry i + 32)) console) := by
  obtain ⟨hk, hend⟩ := entry_inside h.fault
  obtain ⟨value, ⟨word, d, hbytes, hdecode, hinstruction, hcondition, hargs⟩, htarget⟩ :=
    h.stands.leave
  refine h.walks_context (by omega) (by omega) hbytes hdecode hcondition ?_
  rw [plan_jz hinstruction hargs, context_during, htarget]
  rfl

/-- Any other byte does not. -/
theorem walks_stay (h : Standing m origin i) :
    Walks 1 (during m r1 r2 1 (origin + (entry i + 16)) console)
      (during m r1 r2 1 (origin + (entry i + 20)) console) := by
  obtain ⟨hk, hend⟩ := entry_inside h.fault
  obtain ⟨value, ⟨word, d, hbytes, hdecode, hinstruction, hcondition, hargs⟩, -⟩ := h.stands.leave
  refine h.walks_context (by omega) (by omega) hbytes hdecode hcondition ?_
  rw [plan_jz hinstruction hargs, context_during]
  rfl

/-- It is printed. -/
theorem walks_putchar (h : Standing m origin i) {n : Nat} (htakes : console.Takes (n + 1)) :
    Walks 1 (during m r1 b.toUInt32 flag (origin + (entry i + 20)) console)
      (during m r1 b.toUInt32 flag (origin + (entry i + 24)) (console.printed [b])) := by
  obtain ⟨hk, hend⟩ := entry_inside h.fault
  obtain ⟨word, d, hbytes, hdecode, hinstruction, hcondition, hargs⟩ := h.stands.print
  obtain ⟨hwrite, -⟩ := console.write_of_takes htakes b
  have hperform : (during m r1 b.toUInt32 flag (origin + (entry i + 24)) console).perform
      (.writeByte b) =
        (during m r1 b.toUInt32 flag (origin + (entry i + 24)) (console.printed [b])).done := by
    have hconsole : (during m r1 b.toUInt32 flag (origin + (entry i + 24)) console).console =
        console := rfl
    show writeByte _ b = _
    rewrite [writeByte, hconsole, hwrite]
    rfl
  have hplan : (during m r1 b.toUInt32 flag (origin + (entry i + 24)) console).plan d =
      .ok (.writeByte b) := by
    rw [plan_putchar hinstruction hargs, context_during]
    show Except.ok (Effect.writeByte ((contextAt _ _ _ _ _).registers.get 1).toUInt8) = _
    rw [read_second, UInt8.toUInt8_toUInt32]
  have hruns := h.runs (by omega) (by omega) hbytes hdecode hcondition hplan
    (by rw [hperform]; rfl) (by rw [hperform]; exact h.ready.running)
  rw [hperform] at hruns
  exact .step hruns (stack_during.trans stack_during.symm) (.refl _)

/-- The first register goes on to the next byte. -/
theorem walks_inc (h : Standing m origin i) {a : Nat} :
    Walks 1 (during m (UInt32.ofNat a) r2 flag (origin + (entry i + 24)) console)
      (during m (UInt32.ofNat (a + 1)) r2 flag (origin + (entry i + 28)) console) := by
  obtain ⟨hk, hend⟩ := entry_inside h.fault
  obtain ⟨word, d, hbytes, hdecode, hinstruction, hcondition, hargs⟩ := h.stands.next
  refine h.walks_context (by omega) (by omega) hbytes hdecode hcondition ?_
  have hnext : UInt32.ofNat a + 1 = UInt32.ofNat (a + 1) := (UInt32.ofNat_add a 1).symm
  rw [plan_inc hinstruction hargs, context_during, read_first, assign_first, hnext]

theorem walks_again (h : Standing m origin i) :
    Walks 1 (during m r1 r2 flag (origin + (entry i + 28)) console)
      (during m r1 r2 flag (origin + (entry i + 8)) console) := by
  obtain ⟨hk, hend⟩ := entry_inside h.fault
  obtain ⟨value, ⟨word, d, hbytes, hdecode, hinstruction, hcondition, hargs⟩, htarget⟩ :=
    h.stands.again
  refine h.walks_context (by omega) (by omega) hbytes hdecode hcondition ?_
  rw [plan_jmp hinstruction hargs, context_during, htarget]
  rfl

/-- The loop prints what is left of the message up to the zero. -/
theorem walks_print (h : Standing m origin i) {rest : List UInt8} (hnonzero : ∀ b ∈ rest, b ≠ 0)
    {a : Nat} (hend : a + rest.length < m.memory.size)
    (hslice : m.memory.slice a (rest.length + 1) = rest ++ [0])
    (htakes : console.Takes rest.length) :
    ∃ n, Walks n (during m (UInt32.ofNat a) r2 flag (origin + (entry i + 8)) console)
      (during m (UInt32.ofNat (a + rest.length)) 0 0 (origin + (entry i + 32))
        (console.printed rest)) := by
  induction rest generalizing a r2 flag console with
  | nil =>
    rw [Console.printed_nil]
    exact ⟨_, (walks_load h hend hslice).trans
      ((walks_compare h (if_pos rfl).symm).trans (walks_leave h))⟩
  | cons b rest ih =>
    rw [List.length_cons] at hend hslice htakes
    have hlength : rest.length + 1 + 1 = 1 + (rest.length + 1) := by omega
    rw [hlength] at hslice
    have hleft : (rest ++ [0]).length = rest.length + 1 := List.length_append
    obtain ⟨hbyte, hothers⟩ := Memory.slice_of_append List.length_singleton hleft hslice
    have hb : b ≠ 0 := hnonzero b List.mem_cons_self
    obtain ⟨-, htakes'⟩ := console.write_of_takes htakes b
    obtain ⟨n, hrest⟩ := ih (fun b' hb' => hnonzero b' (List.mem_cons_of_mem _ hb')) (by omega)
      hothers htakes'
    rw [Console.printed_printed] at hrest
    have hlast : a + 1 + rest.length = a + (rest.length + 1) := by omega
    rw [hlast] at hrest
    exact ⟨_, (walks_load h (by omega) hbyte).trans ((walks_compare h (if_neg hb).symm).trans
      ((walks_stay h).trans ((walks_putchar h htakes).trans ((walks_inc h).trans
        ((walks_again h).trans hrest)))))⟩

/-! ### A whole handler -/

/-- The first register points to the message, whatever it held. -/
theorem walks_point (h : Standing m origin i) :
    Walks 2 (during m r1 r2 flag (origin + entry i) console)
      (during m (UInt32.ofNat (origin + messageStart i)) r2 flag (origin + (entry i + 8))
        console) := by
  obtain ⟨hk, hend⟩ := entry_inside h.fault
  obtain ⟨low, high, hbytes, hhalves⟩ := h.stands.halves
  obtain ⟨hlow, hhigh⟩ : ((m.memory.slice origin size).drop (entry i)).take 4 =
        LittleEndian.wordBytes low ∧
      ((m.memory.slice origin size).drop (entry i + 4)).take 4 = LittleEndian.wordBytes high := by
    rw [Memory.slice_slice (by omega)] at hbytes
    rw [Memory.slice_slice (by omega), Memory.slice_slice (by omega), ← Nat.add_assoc]
    exact Memory.slice_of_append (n := 4) (k := 4) (LittleEndian.length_wordBytes low)
      (LittleEndian.length_wordBytes high) hbytes
  have hfirst : Walks 1 (during m r1 r2 flag (origin + entry i) console)
      (during m (withLow r1 (UInt32.ofNat (origin + messageStart i))) r2 flag
        (origin + (entry i + 4)) console) := by
    refine h.walks_context (by omega) (by omega) hlow hhalves.decode_low rfl ?_
    rw [plan_loadWordILo _ hhalves.reg_low hhalves.imm_low, context_during, read_first,
      assign_first]
  have hsecond : Walks 1
      (during m (withLow r1 (UInt32.ofNat (origin + messageStart i))) r2 flag
        (origin + (entry i + 4)) console)
      (during m (UInt32.ofNat (origin + messageStart i)) r2 flag (origin + (entry i + 8))
        console) := by
    refine h.walks_context (by omega) (by omega) hhigh hhalves.decode_high rfl ?_
    rw [plan_loadWordIHi _ hhalves.reg_high hhalves.imm_high, context_during, read_first,
      withHigh_withLow, assign_first]
  exact hfirst.trans hsecond

/-- The last step halts the machine. -/
theorem halts (h : Standing m origin i) :
    (during m r1 r2 flag (origin + (entry i + 32)) console).step.machine =
        { during m r1 r2 flag (origin + (entry i + 36)) console with halted := true } ∧
      (during m r1 r2 flag (origin + (entry i + 32)) console).step.answer = .ok .halted := by
  obtain ⟨hk, hend⟩ := entry_inside h.fault
  obtain ⟨word, d, hbytes, hdecode, hinstruction, hcondition, -⟩ := h.stands.halt
  have hadvance : (during m r1 r2 flag (origin + (entry i + 32)) console).advance =
      during m r1 r2 flag (origin + (entry i + 36)) console := advance_during
  rw [← hadvance]
  have hd : (during m r1 r2 flag (origin + (entry i + 32)) console).Executes d :=
    ⟨⟨word, h.fetch (by omega) (by omega) hbytes, hdecode⟩, by rw [hcondition]; rfl⟩
  exact halts_of_executes h.ready_during hd hinstruction

/-- The machine when its handler has halted it. -/
def finished (m : Machine) (origin : Nat) (i : Interrupt) : Machine :=
  { during m (UInt32.ofNat (origin + messageStart i + (printed i).length)) 0 0
      (origin + (entry i + 36)) (m.console.printed (printed i)) with halted := true }

/-- A machine that has entered a handler prints its message and halts. -/
theorem walks_handler (h : Standing m origin i)
    (hpc : m.context.pc = UInt32.ofNat (origin + entry i))
    (htakes : m.console.Takes (printed i).length) :
    ∃ n stopped, Walks n m stopped ∧ stopped.step.machine = finished m origin i ∧
      stopped.step.answer = .ok .halted := by
  obtain ⟨hend, hnonzero, padding, hmessage⟩ := message_inside h.fault
  have hinside := h.inside
  have hlength : (message i).length = (printed i ++ [0]).length + padding.length := by
    rw [hmessage, List.length_append]
  have hsplit : (printed i ++ [0]).length = (printed i).length + 1 := List.length_append
  have hstands : m.memory.slice (origin + messageStart i) (message i).length = message i := by
    rw [← Memory.slice_slice hend]
    exact h.stands.message
  rw [hlength, hmessage] at hstands
  obtain ⟨hslice, -⟩ := Memory.slice_of_append rfl rfl hstands
  rw [hsplit] at hslice
  obtain ⟨n, hprint⟩ := walks_print h hnonzero (by omega) hslice htakes
  have hwalks : Walks (2 + n) (during m (m.context.registers.get 0) (m.context.registers.get 1)
      m.context.flag (origin + entry i) m.console) _ := (walks_point h).trans hprint
  rw [during_self hpc] at hwalks
  exact ⟨_, _, hwalks, halts h⟩

end Handler
end Machine
end RegisterMachine
