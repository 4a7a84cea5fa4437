import RegisterMachine.Proofs.Instruction.Decoding

/-! Which arguments can be encoded, and what they are read back as.

An instruction takes as many arguments as it has operands, each of a sort that its slot
can hold (`Accepts`). These and no others are encoded (`encode_ok_iff`), and the word gives
them back, immediates cut to the width of their field (`args_of_encodes`). One word of
each register and condition is no longer what it was encoded from: `MEMSIZE` of device 255
is `UPTIME` (`encode_of_isClock`). -/
namespace RegisterMachine

/-- An operand of this kind can hold the argument. -/
def OperandKind.Holds (kind : OperandKind) : Arg → Prop
  | .operand (.register _) => kind.isRegister = true
  | .operand .zero => kind = .src
  | .immediate _ => kind.isRegister = false

/-- What is read back of an argument: of an immediate only the bits of its field. -/
def OperandKind.cut (kind : OperandKind) : Arg → Arg
  | .operand o => .operand o
  | .immediate value => .immediate (value &&& kind.mask)

/-- The argument in a slot. -/
def Decoded.arg (d : Decoded) (slot : Nat) : OperandKind → Arg
  | .src => .operand (d.operand slot)
  | .dst | .reg => .operand (.register (d.reg slot))
  | .imm8 | .imm16 | .off22 | .irq => .immediate d.imm

theorem Decoded.args_eq (d : Decoded) :
    d.args = d.instruction.operands.zipIdx.map fun o => d.arg o.2 o.1 := by
  unfold args
  congr 1
  funext o
  obtain ⟨kind, slot⟩ := o
  cases kind <;> rfl

theorem Decoded.args_getElem? (d : Decoded) (slot : Nat) :
    d.args[slot]? = d.instruction.operands[slot]?.map (d.arg slot) := by
  rw [args_eq, List.getElem?_map, List.getElem?_zipIdx, Option.map_map, Nat.zero_add]
  rfl

namespace Instruction

/-- The arguments are as many as the operands, and each operand can hold its own. -/
structure Accepts (i : Instruction) (args : List Arg) : Prop where
  count : args.length = i.operands.length
  holds : ∀ {slot : Nat} {kind : OperandKind} {arg : Arg}, i.operands[slot]? = some kind →
    args[slot]? = some arg → kind.Holds arg

/-- What is read back of all arguments. -/
def cutArgs (i : Instruction) (args : List Arg) : List Arg :=
  List.zipWith OperandKind.cut i.operands args

variable {i : Instruction} {slot : Nat} {kind : OperandKind} {arg : Arg} {args : List Arg}
  {c : Condition} {word : UInt32}

/-! ### What can be encoded -/

/-- A slot that may be the constant zero has a bit for it, apart from its register field. -/
theorem zeroBit_of_takes (h : i.Takes slot .src) :
    ∃ bit, i.zeroBit? slot = some bit ∧ bit ≠ 0 ∧ slotMask slot &&& bit = 0 := by
  have hall : ∀ i ∈ all, ∀ o ∈ i.operands.zipIdx, o.1 = .src →
      ∃ bit ∈ i.zeroBit? o.2, bit ≠ 0 ∧ slotMask o.2 &&& bit = 0 := by decide +kernel
  exact hall i (mem_all i) _ h rfl

theorem argumentBits_ok_iff (h : i.Takes slot kind) :
    (∃ bits, i.argumentBits slot kind arg = .ok bits) ↔ kind.Holds arg := by
  constructor
  · rintro ⟨bits, hbits⟩
    cases arg with
    | operand o =>
      cases o with
      | register r => exact (register_of_argumentBits hbits).1
      | zero => exact (zero_of_argumentBits hbits).1
    | immediate value => exact (immediate_of_argumentBits hbits).1
  · intro hholds
    cases arg with
    | operand o =>
      cases o with
      | register r => exact ⟨_, if_pos hholds⟩
      | zero =>
        obtain rfl : kind = .src := hholds
        obtain ⟨bit, hbit, -, -⟩ := zeroBit_of_takes h
        exact ⟨bit, by simp [argumentBits, hbit]⟩
    | immediate value =>
      have hkind : kind.isRegister = false := hholds
      exact ⟨_, if_neg (by simp [hkind])⟩

theorem argumentsBits_of_holds {args : List (OperandKind × Arg)}
    (h : ∀ k kind arg, args[k]? = some (kind, arg) → i.Takes (slot + k) kind ∧ kind.Holds arg) :
    ∃ bits, i.argumentsBits slot args = .ok bits := by
  induction args generalizing slot with
  | nil => exact ⟨0, rfl⟩
  | cons a rest ih =>
    obtain ⟨kind, arg⟩ := a
    obtain ⟨htakes, hholds⟩ := h 0 kind arg rfl
    obtain ⟨own, hown⟩ := (argumentBits_ok_iff htakes).mpr hholds
    have hrest : ∀ k kind arg, rest[k]? = some (kind, arg) →
        i.Takes (slot + 1 + k) kind ∧ kind.Holds arg := by
      intro k kind arg hk
      rw [Nat.add_right_comm]
      exact h (k + 1) kind arg hk
    obtain ⟨others, hothers⟩ := ih hrest
    rw [Nat.add_zero] at hown
    exact ⟨own ||| others, by simp [argumentsBits, hown, hothers, Except.map]⟩

/-- Exactly the arguments that an instruction accepts are encoded. -/
theorem encode_ok_iff : (∃ word, i.encode c args = .ok word) ↔ i.Accepts args := by
  constructor
  · rintro ⟨word, hword⟩
    have hcount : args.length = i.operands.length := by
      apply Classical.byContradiction
      intro hne
      exact absurd (hword.symm.trans (if_pos hne)) (by simp)
    refine ⟨hcount, fun {slot kind arg} hkind harg => ?_⟩
    apply (argumentBits_ok_iff (takes_of_getElem? hkind)).mp
    exact ⟨_, (encodes_of_ok hword).argument hkind harg⟩
  · rintro ⟨hcount, hholds⟩
    obtain ⟨bits, hbits⟩ : ∃ bits, i.argumentsBits 0 (i.operands.zip args) = .ok bits := by
      refine argumentsBits_of_holds fun k kind arg hk => ?_
      obtain ⟨hkind, harg⟩ := List.getElem?_zip_eq_some.mp hk
      rw [Nat.zero_add]
      exact ⟨takes_of_getElem? hkind, hholds hkind harg⟩
    refine ⟨i.selector.value ||| i.conditionBits c ||| bits, ?_⟩
    rw [encode, if_neg (not_not_intro hcount), hbits]
    rfl

/-! ### What is read back -/

/-- Whether a slot is the constant zero is seen from its bit. -/
theorem operand_of_encodes (h : i.Encodes c args word) {o : Operand}
    (hkind : i.operands[slot]? = some .src) (harg : args[slot]? = some (.operand o))
    (c' : Condition) : (Decoded.mk i c' word).operand slot = o := by
  have htakes := takes_of_getElem? hkind
  obtain ⟨bit, hbit, hne, hapart⟩ := zeroBit_of_takes htakes
  have hargument := h.argument hkind harg
  have hread : word &&& bit = word &&& i.operandBits slot .src &&& bit := by
    rw [UInt32.and_assoc, operandBits, hbit, Option.getD_some, or_and, hapart, UInt32.zero_or,
      UInt32.and_self]
  cases o with
  | register r =>
    obtain ⟨-, hfield⟩ := register_of_argumentBits hargument
    have hclear : word &&& bit = 0 := by
      rw [hread, hfield]
      exact and_eq_zero_of_within (field_within r (slot_lt htakes)) hapart
    simp only [Decoded.operand, hbit, hclear, ne_eq, not_true_eq_false, if_false]
    exact congrArg Operand.register (reg_of_encodes h hkind harg c')
  | zero =>
    obtain ⟨-, hown⟩ := zero_of_argumentBits hargument
    have hset : word &&& bit = bit := by
      rw [hread, ← Option.some.inj (hbit.symm.trans hown), UInt32.and_self]
    simp only [Decoded.operand, hbit, hset, ne_eq, hne, not_false_eq_true, if_true]

theorem arg_of_encodes (h : i.Encodes c args word) (hkind : i.operands[slot]? = some kind)
    (harg : args[slot]? = some arg) (c' : Condition) :
    (Decoded.mk i c' word).arg slot kind = kind.cut arg := by
  have hargument := h.argument hkind harg
  cases arg with
  | operand o =>
    cases kind with
    | src => exact congrArg Arg.operand (operand_of_encodes h hkind harg c')
    | dst | reg =>
      obtain ⟨r, hr⟩ := exists_register_of_argumentBits hargument rfl (by decide)
      rw [hr] at harg ⊢
      exact congrArg (fun r => Arg.operand (.register r)) (reg_of_encodes h hkind harg c')
    | imm8 | imm16 | off22 | irq =>
      exact absurd ((argumentBits_ok_iff (takes_of_getElem? hkind)).mp ⟨_, hargument⟩)
        (by cases o <;> simp [OperandKind.Holds, OperandKind.isRegister])
  | immediate value =>
    have himm := imm_of_encodes h hkind harg c'
    cases kind with
    | dst | src | reg => exact absurd (immediate_of_argumentBits hargument).1 (by decide)
    | imm8 | imm16 | off22 | irq => exact congrArg Arg.immediate himm

/-- A word gives back the arguments that it was encoded from, cut to their fields. -/
theorem args_of_encodes (h : i.Encodes c args word) (haccepts : i.Accepts args) (c' : Condition) :
    (Decoded.mk i c' word).args = i.cutArgs args := by
  apply List.ext_getElem?
  intro slot
  rw [Decoded.args_getElem?, cutArgs, List.getElem?_zipWith]
  cases hkind : i.operands[slot]? with
  | none => rfl
  | some kind =>
    have hslot : slot < args.length := by
      rw [haccepts.count]
      exact (List.getElem?_eq_some_iff.mp hkind).1
    obtain ⟨arg, harg⟩ : ∃ arg, args[slot]? = some arg := ⟨_, List.getElem?_eq_getElem hslot⟩
    rw [harg]
    exact congrArg some (arg_of_encodes h hkind harg c')

/-! ### The clock -/

/-- The arguments ask for the memory size of device 255, the words of which are the clock's. -/
def IsClock (i : Instruction) (args : List Arg) (r : Reg) : Prop :=
  i = .memSize ∧ ∃ value, args = [.operand (.register r), .immediate value] ∧
    value &&& 0xFF = 0xFF

/-- The memory size of device 255 is asked for in the words of `UPTIME`. -/
theorem encode_of_isClock {r : Reg} (h : i.IsClock args r) :
    i.encode c args = uptime.encode c [.operand (.register r)] := by
  obtain ⟨rfl, value, rfl, hvalue⟩ := h
  have hfixed : uptime.selector.value = memSize.selector.value ||| 0xFF := by decide
  have hcondition : uptime.conditionBits c = memSize.conditionBits c := rfl
  show Except.ok (memSize.selector.value ||| memSize.conditionBits c |||
      (Selector.field (slotShift 0) r.field ||| (value &&& 0xFF ||| 0))) =
    Except.ok (uptime.selector.value ||| uptime.conditionBits c |||
      (Selector.field (slotShift 0) r.field ||| 0))
  have hmove : ∀ v b f : UInt32, v ||| b ||| (f ||| 0xFF) = v ||| 0xFF ||| b ||| f := by
    intro v b f
    ac_rfl
  rw [hvalue, hfixed, hcondition, UInt32.or_zero, UInt32.or_zero, hmove]

/-- A word of `MEMSIZE` is one of `UPTIME` only for device 255. -/
theorem isClock_of_uptime (h : memSize.Encodes c args word) (haccepts : memSize.Accepts args)
    (huptime : uptime.Fits word) : ∃ r, memSize.IsClock args r := by
  match args, h, haccepts, haccepts.count with
  | [first, second], h, haccepts, _ =>
    have hfirst : memSize.operands[0]? = some .dst := rfl
    have hsecond : memSize.operands[1]? = some .irq := rfl
    match first, second, haccepts.holds hfirst rfl, haccepts.holds hsecond rfl, h with
    | .operand (.register r), .immediate value, _, _, h =>
      have hdevice := (immediate_of_argumentBits (h.argument hsecond rfl)).2
      exact ⟨r, rfl, value, rfl, hdevice.symm.trans (byte_of_uptime huptime)⟩

/-- **Decoding undoes encoding.** -/
theorem decode_encode (i : Instruction) (c : Condition) (args : List Arg) :
    ((∃ word, i.encode c args = .ok word) ↔ i.Accepts args) ∧
      ∀ word, i.encode c args = .ok word →
        ((∀ r, ¬i.IsClock args r) → decode word = some ⟨i, i.readAs c, word⟩ ∧
          (Decoded.mk i (i.readAs c) word).args = i.cutArgs args) ∧
        ∀ r, i.IsClock args r → decode word = some ⟨.uptime, c, word⟩ ∧
          (Decoded.mk .uptime c word).args = [.operand (.register r)] := by
  refine ⟨encode_ok_iff, fun word hword => ⟨fun hclock => ?_, fun r hclock => ?_⟩⟩
  · have hencodes := encodes_of_ok hword
    have haccepts := encode_ok_iff.mp ⟨word, hword⟩
    refine ⟨decode_of_encodes hencodes ?_, args_of_encodes hencodes haccepts _⟩
    rintro rfl huptime
    obtain ⟨r, hr⟩ := isClock_of_uptime hencodes haccepts huptime
    exact hclock r hr
  · rw [encode_of_isClock hclock] at hword
    have hencodes := encodes_of_ok hword
    have haccepts := encode_ok_iff.mp ⟨word, hword⟩
    exact ⟨decode_of_encodes hencodes nofun, args_of_encodes hencodes haccepts _⟩

theorem decode_encode_clock :
    memSize.encode .zero [.operand (.register 2), .immediate 0x1FF] = .ok 0x3E8001FF ∧
      decode 0x3E8001FF = some ⟨.uptime, .zero, 0x3E8001FF⟩ := by
  have hword : memSize.encode .zero [.operand (.register 2), .immediate 0x1FF] =
      .ok 0x3E8001FF := by rfl
  have hclock : memSize.IsClock [.operand (.register 2), .immediate 0x1FF] 2 :=
    ⟨rfl, 0x1FF, rfl, by decide⟩
  exact ⟨hword, (((decode_encode memSize .zero _).2 _ hword).2 2 hclock).1⟩

end Instruction
end RegisterMachine
