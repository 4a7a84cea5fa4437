import RegisterMachine.Proofs.Instruction.RoundTrip

/-! Which words are decoded.

A slot that is the constant zero leaves its register field without a meaning: words that
differ there only are read alike. Each of them stands for one word, with these fields
clear (`canonical`). A word is decoded exactly if this word is an encoding
(`decode_iff_encode`): every bit of it is fixed by the instruction, the condition or an
operand (`eq_of_encodes`), so nothing else fits into it. -/
namespace RegisterMachine

theorem Reg.field_ofField (field : UInt32) : (Reg.ofField field).field = field &&& 7 := by
  apply UInt32.toNat_inj.mp
  have hmod : field.toNat &&& 7 = field.toNat % 8 := Nat.and_two_pow_sub_one_eq_mod _ 3
  have hlt : field.toNat % 8 < 2 ^ 32 := by omega
  show (UInt32.ofNat (field.toNat % 8)).toNat = _
  rw [UInt32.toNat_ofNat', Nat.mod_eq_of_lt hlt, UInt32.toNat_and]
  exact hmod.symm

namespace Instruction

/-- The bits of all operands together, each with its share. -/
def joined (share : OperandKind × Nat → UInt32) (operands : List (OperandKind × Nat)) : UInt32 :=
  operands.foldr (fun o bits => share o ||| bits) 0

/-- The slot of this operand is the constant zero. -/
def IsZero (i : Instruction) (word : UInt32) (o : OperandKind × Nat) : Prop :=
  o.1 = .src ∧ word &&& (i.zeroBit? o.2).getD 0 ≠ 0

instance (i : Instruction) (word : UInt32) (o : OperandKind × Nat) : Decidable (i.IsZero word o) :=
  inferInstanceAs (Decidable (_ ∧ _))

/-- The register field of a slot that is the constant zero. -/
def idleField (i : Instruction) (word : UInt32) (o : OperandKind × Nat) : UInt32 :=
  if i.IsZero word o then slotMask o.2 else 0

/-- The word with every register field cleared whose slot is the constant zero. -/
def canonical (i : Instruction) (word : UInt32) : UInt32 :=
  word &&& ~~~joined (i.idleField word) i.operands.zipIdx

variable {i : Instruction} {slot : Nat} {kind : OperandKind} {arg : Arg} {args : List Arg}
  {c : Condition} {word word' : UInt32}

theorem joined_apart {share : OperandKind × Nat → UInt32} {operands : List (OperandKind × Nat)}
    {m : UInt32} (h : ∀ o ∈ operands, share o &&& m = 0) : joined share operands &&& m = 0 := by
  induction operands with
  | nil => exact UInt32.zero_and
  | cons o rest ih =>
    show (share o ||| joined share rest) &&& m = 0
    rw [or_and, h o List.mem_cons_self, ih fun o ho => h o (List.mem_cons_of_mem _ ho),
      UInt32.or_zero]

theorem within_joined {share : OperandKind × Nat → UInt32} {operands : List (OperandKind × Nat)}
    {o : OperandKind × Nat} (h : o ∈ operands) : share o &&& joined share operands = share o := by
  induction operands with
  | nil => exact absurd h List.not_mem_nil
  | cons first rest ih =>
    rcases List.mem_cons.mp h with rfl | h
    · exact within_or_left _ _
    · exact within_trans (ih h) (within_or_right _ _)

/-- Words that agree on every share agree on all of them together. -/
theorem and_joined_congr {share : OperandKind × Nat → UInt32}
    {operands : List (OperandKind × Nat)}
    (h : ∀ o ∈ operands, word &&& share o = word' &&& share o) :
    word &&& joined share operands = word' &&& joined share operands := by
  induction operands with
  | nil => exact UInt32.and_zero.trans UInt32.and_zero.symm
  | cons o rest ih =>
    show word &&& (share o ||| joined share rest) = word' &&& (share o ||| joined share rest)
    rw [and_or, and_or, h o List.mem_cons_self,
      ih fun o ho => h o (List.mem_cons_of_mem _ ho)]

/-! ### A word is determined by what it was encoded from -/

/-- Every bit that an instruction uses is fixed, a condition's or an operand's. -/
theorem usedBits_eq (i : Instruction) : i.usedBits = Selector.conditionMask ||| i.selector.mask |||
    joined (fun o => i.operandBits o.2 o.1) i.operands.zipIdx := by
  have hall : ∀ i ∈ all, i.usedBits = Selector.conditionMask ||| i.selector.mask |||
      joined (fun o => i.operandBits o.2 o.1) i.operands.zipIdx := by decide +kernel
  exact hall i (mem_all i)

/-- The condition bits of an instruction without a condition are fixed. -/
theorem conditionMask_fixed (h : i.isConditional = false) :
    Selector.conditionMask &&& i.selector.mask = Selector.conditionMask := by
  have hall : ∀ i ∈ all, i.isConditional = false →
      Selector.conditionMask &&& i.selector.mask = Selector.conditionMask := by decide +kernel
  exact hall i (mem_all i) h

theorem eq_of_encodes (haccepts : i.Accepts args) (h : i.Encodes c args word)
    (h' : i.Encodes c args word') : word = word' := by
  have hfixed : word &&& i.selector.mask = word' &&& i.selector.mask := h.fits.trans h'.fits.symm
  have hcondition : word &&& Selector.conditionMask = word' &&& Selector.conditionMask := by
    cases hconditional : i.isConditional with
    | true => rw [h.condition hconditional, h'.condition hconditional]
    | false =>
      rw [← conditionMask_fixed hconditional, UInt32.and_comm Selector.conditionMask,
        ← UInt32.and_assoc, ← UInt32.and_assoc, hfixed]
  have hoperands : ∀ o ∈ i.operands.zipIdx,
      word &&& i.operandBits o.2 o.1 = word' &&& i.operandBits o.2 o.1 := by
    rintro ⟨kind, slot⟩ ho
    have hkind := List.mk_mem_zipIdx_iff_getElem?.mp ho
    have hslot : slot < args.length := by
      rw [haccepts.count]
      exact (List.getElem?_eq_some_iff.mp hkind).1
    have harg := List.getElem?_eq_getElem hslot
    exact Except.ok.inj ((h.argument hkind harg).symm.trans (h'.argument hkind harg))
  rw [← and_of_and_not h.used, ← and_of_and_not h'.used, usedBits_eq, and_or,
    and_or, and_or, and_or, hfixed,
    hcondition, and_joined_congr hoperands]

/-- What has the bits of an encoding is the encoding. -/
theorem encode_of_encodes (haccepts : i.Accepts args) (h : i.Encodes c args word) :
    i.encode c args = .ok word := by
  obtain ⟨word', hword⟩ := encode_ok_iff.mpr haccepts
  rw [hword, eq_of_encodes haccepts h (encodes_of_ok hword)]

/-! ### The canonical word -/

theorem idleField_within (i : Instruction) (word : UInt32) (o : OperandKind × Nat) :
    i.idleField word o &&& slotMask o.2 = i.idleField word o := by
  unfold idleField
  split
  · exact UInt32.and_self
  · exact UInt32.zero_and

/-- The canonical word differs from the word in idle fields only. -/
theorem canonical_and {m : UInt32}
    (h : ∀ slot, i.Takes slot .src → i.IsZero word (.src, slot) → slotMask slot &&& m = 0) :
    i.canonical word &&& m = word &&& m := by
  apply and_not_and_of_apart
  apply joined_apart
  rintro ⟨kind, slot⟩ ho
  by_cases hzero : i.IsZero word (kind, slot)
  · obtain rfl : kind = .src := hzero.1
    exact and_eq_zero_of_within (i.idleField_within word _) (h slot ho hzero)
  · rw [idleField, if_neg hzero]
    exact UInt32.zero_and

/-- A slot that may be the constant zero lies apart from all that is not an operand. -/
theorem slotMask_free (h : i.Takes slot .src) :
    slotMask slot &&& i.selector.mask = 0 ∧ slotMask slot &&& Selector.conditionMask = 0 ∧
      slotMask slot &&& ~~~i.usedBits = 0 := by
  have hwithin : slotMask slot &&& i.operandBits slot .src = slotMask slot := slotMask_within rfl
  obtain ⟨hused, hmask, hcondition⟩ := operandBits_free h
  exact ⟨and_eq_zero_of_within hwithin hmask, and_eq_zero_of_within hwithin hcondition,
    and_not_of_within (within_trans hwithin hused)⟩

theorem canonical_memSize (word : UInt32) : memSize.canonical word = word := by
  have hidle : joined (memSize.idleField word) memSize.operands.zipIdx = 0 := by
    simp [joined, idleField, IsZero, operands, entry]
  rw [canonical, hidle]
  exact and_not_of_apart UInt32.and_zero

/-- A word and its canonical word are read alike. -/
theorem reads_canonical_iff : i.Reads c (i.canonical word) ↔ i.Reads c word := by
  have hfits : i.Fits (i.canonical word) ↔ i.Fits word := by
    rw [Fits, Fits, canonical_and fun slot h _ => (slotMask_free h).1]
  have hcondition : i.canonical word &&& Selector.conditionMask = word &&& Selector.conditionMask :=
    canonical_and fun slot h _ => (slotMask_free h).2.1
  have hused : i.canonical word &&& ~~~i.usedBits = word &&& ~~~i.usedBits :=
    canonical_and fun slot h _ => (slotMask_free h).2.2
  have hfirst : (i = .memSize → ¬uptime.Fits (i.canonical word)) ↔
      (i = .memSize → ¬uptime.Fits word) := by
    constructor
    · rintro h rfl
      rw [← canonical_memSize word]
      exact h rfl
    · rintro h rfl
      rw [canonical_memSize word]
      exact h rfl
  constructor
  · intro h
    exact ⟨hfits.mp h.fits, hused.symm.trans h.used,
      fun hi => hcondition.symm.trans (h.condition hi), h.unconditional, hfirst.mp h.first⟩
  · intro h
    exact ⟨hfits.mpr h.fits, hused.trans h.used, fun hi => hcondition.trans (h.condition hi),
      h.unconditional, hfirst.mpr h.first⟩

/-- The canonical word clears the register fields of slots that are the constant zero. -/
theorem canonical_and_slotMask (h : i.Takes slot .src) (hzero : i.IsZero word (.src, slot)) :
    i.canonical word &&& slotMask slot = 0 := by
  have hidle : i.idleField word (.src, slot) = slotMask slot := if_pos hzero
  have hwithin : i.idleField word (.src, slot) &&& joined (i.idleField word) i.operands.zipIdx =
      i.idleField word (.src, slot) := within_joined h
  rw [hidle] at hwithin
  rw [canonical, UInt32.and_assoc, UInt32.and_comm (~~~_), and_not_of_within hwithin,
    UInt32.and_zero]

/-- A word is canonical exactly if no idle field of it is set. -/
theorem canonical_eq_iff : i.canonical word = word ↔
    ∀ slot, i.Takes slot .src → i.IsZero word (.src, slot) → word &&& slotMask slot = 0 := by
  constructor
  · intro h slot htakes hzero
    rw [← h]
    exact canonical_and_slotMask htakes (h ▸ hzero)
  · intro h
    apply and_not_of_apart
    rw [UInt32.and_comm]
    apply joined_apart
    rintro ⟨kind, slot⟩ ho
    by_cases hzero : i.IsZero word (kind, slot)
    · obtain rfl : kind = .src := hzero.1
      rw [idleField, if_pos hzero, UInt32.and_comm]
      exact h slot ho hzero
    · rw [idleField, if_neg hzero]
      exact UInt32.zero_and

theorem not_isZero_of_ne (h : kind ≠ .src) : ¬i.IsZero word (kind, slot) := fun hzero => h hzero.1

/-- An operand that is not the constant zero has the same bits in the canonical word. -/
theorem canonical_and_operandBits (h : i.Takes slot kind) (hzero : ¬i.IsZero word (kind, slot)) :
    i.canonical word &&& i.operandBits slot kind = word &&& i.operandBits slot kind := by
  apply canonical_and
  intro slot' h' hzero'
  by_cases hsame : slot' = slot
  · subst hsame
    have hkind := List.mk_mem_zipIdx_iff_getElem?.mp h
    have hsrc := List.mk_mem_zipIdx_iff_getElem?.mp h'
    obtain rfl : kind = .src := Option.some.inj (hkind.symm.trans hsrc)
    exact absurd hzero' hzero
  · exact and_eq_zero_of_within (slotMask_within rfl) (operandBits_apart h' h hsame)

/-! ### What the arguments of a word are encoded to -/

/-- The register in a slot is encoded to the field that it was read from. -/
theorem field_reg (d : Decoded) (hslot : slot < 5) :
    Selector.field (slotShift slot) (d.reg slot).field = d.word &&& slotMask slot := by
  have hshift : ∀ slot < 5, slotShift slot < 32 := by decide
  rw [Decoded.reg, Reg.field_ofField]
  exact and_shiftLeft_of_shiftRight d.word 7 (hshift slot hslot)

theorem zeroBit_single {bit : UInt32} (h : i.zeroBit? slot = some bit) :
    ∃ shift : UInt32, shift < 32 ∧ bit = 1 <<< shift := by
  have hslots : ∀ slot < 3, UInt32.ofNat (7 + slot) < 32 ∧ UInt32.ofNat (8 + slot) < 32 := by
    decide
  unfold zeroBit? at h
  split at h
  · rename_i hgroup
    exact ⟨_, (hslots slot (by omega)).1, (Option.some.inj h).symm⟩
  · split at h
    · rename_i hgroup
      exact ⟨_, (hslots slot (by omega)).2, (Option.some.inj h).symm⟩
    · exact absurd h (by simp)

/-- The bits for the constant zero lie apart from the register fields. -/
theorem zeroBit_apart {slot' : Nat} {bit : UInt32} (h : i.Takes slot .src)
    (h' : i.Takes slot' .src) (hbit : i.zeroBit? slot = some bit) : slotMask slot' &&& bit = 0 := by
  have hall : ∀ i ∈ all, ∀ o ∈ i.operands.zipIdx, ∀ o' ∈ i.operands.zipIdx,
      slotMask o'.2 &&& (i.zeroBit? o.2).getD 0 = 0 := by decide +kernel
  have happly := hall i (mem_all i) _ h _ h'
  rw [hbit, Option.getD_some] at happly
  exact happly

theorem argumentBits_operand (h : i.Takes slot .src) (c : Condition) :
    i.argumentBits slot .src (.operand ((Decoded.mk i c word).operand slot)) =
      .ok (i.canonical word &&& i.operandBits slot .src) := by
  obtain ⟨bit, hbit, -, -⟩ := zeroBit_of_takes h
  have hbits : i.operandBits slot .src = slotMask slot ||| bit := by
    rw [operandBits, hbit, Option.getD_some]
  by_cases hzero : i.IsZero word (.src, slot)
  · have hset : word &&& bit ≠ 0 := by simpa [IsZero, hbit] using hzero
    have hkept : i.canonical word &&& bit = word &&& bit :=
      canonical_and fun _ h' _ => zeroBit_apart h h' hbit
    obtain ⟨shift, hshift, hsingle⟩ := zeroBit_single hbit
    have hown : word &&& bit = bit := by
      rw [hsingle] at hset ⊢
      exact and_one_shiftLeft word hshift hset
    rw [hbits, and_or, canonical_and_slotMask h hzero, hkept, hown, UInt32.zero_or]
    simp [Decoded.operand, argumentBits, hbit, hset]
  · have hclear : word &&& bit = 0 := by simpa [IsZero, hbit] using hzero
    rw [canonical_and_operandBits h hzero, hbits, and_or, hclear, UInt32.or_zero,
      ← field_reg (Decoded.mk i c word) (slot_lt h)]
    simp [Decoded.operand, argumentBits, hbit, hclear, OperandKind.isRegister]

/-- The argument in a slot is encoded to the bits of its operand in the canonical word. -/
theorem argumentBits_arg (h : i.Takes slot kind) (c : Condition) :
    i.argumentBits slot kind ((Decoded.mk i c word).arg slot kind) =
      .ok (i.canonical word &&& i.operandBits slot kind) := by
  cases kind with
  | src => exact argumentBits_operand h c
  | dst | reg =>
    rw [canonical_and_operandBits h (not_isZero_of_ne (by decide))]
    exact congrArg Except.ok (field_reg (Decoded.mk i c word) (slot_lt h))
  | imm8 | imm16 | off22 | irq =>
    have himmediate := immediateKind?_eq h rfl
    rw [canonical_and_operandBits h (not_isZero_of_ne (by decide))]
    show Except.ok ((Decoded.mk i c word).imm &&& _) = _
    rw [Decoded.imm, himmediate, UInt32.and_assoc, UInt32.and_self]
    rfl

/-- A word that is read has the canonical word that its arguments are encoded to. -/
theorem encodes_canonical (h : i.Reads c word) :
    i.Encodes c (Decoded.mk i c word).args (i.canonical word) := by
  have hcanonical := reads_canonical_iff.mpr h
  refine ⟨hcanonical.fits, hcanonical.condition, hcanonical.used, fun hkind harg => ?_⟩
  rw [Decoded.args_getElem?, hkind] at harg
  rw [← Option.some.inj harg]
  exact argumentBits_arg (takes_of_getElem? hkind) c

/-- The arguments of a word are already cut to their fields. -/
theorem cutArgs_args (i : Instruction) (c : Condition) (word : UInt32) :
    i.cutArgs (Decoded.mk i c word).args = (Decoded.mk i c word).args := by
  apply List.ext_getElem?
  intro slot
  rw [cutArgs, List.getElem?_zipWith, Decoded.args_getElem?]
  cases hkind : i.operands[slot]? with
  | none => rfl
  | some kind =>
    apply congrArg some
    cases kind with
    | dst | src | reg => rfl
    | imm8 | imm16 | off22 | irq =>
      have himmediate := immediateKind?_eq (takes_of_getElem? hkind) rfl
      show Arg.immediate ((Decoded.mk i c word).imm &&& _) = .immediate (Decoded.mk i c word).imm
      rw [Decoded.imm, himmediate, UInt32.and_assoc, UInt32.and_self]

theorem accepts_args (h : i.Reads c word) : i.Accepts (Decoded.mk i c word).args := by
  refine ⟨by simp [Decoded.args_eq], fun {slot kind arg} hkind harg => ?_⟩
  apply (argumentBits_ok_iff (takes_of_getElem? hkind)).mp
  exact ⟨_, (encodes_canonical h).argument hkind harg⟩

/-- The arguments of a word are encoded to its canonical word. -/
theorem encode_args (h : i.Reads c word) :
    i.encode c (Decoded.mk i c word).args = .ok (i.canonical word) :=
  encode_of_encodes (accepts_args h) (encodes_canonical h)

/-- The canonical word has the arguments of the word. -/
theorem args_canonical (h : i.Reads c word) :
    (Decoded.mk i c (i.canonical word)).args = (Decoded.mk i c word).args := by
  rw [args_of_encodes (encodes_canonical h) (accepts_args h), cutArgs_args]

/-- A word whose canonical word is an encoding is decoded. -/
theorem decode_of_canonical (h : i.encode c args = .ok (i.canonical word)) :
    ∃ d, decode word = some d := by
  have hencodes := encodes_of_ok h
  by_cases hclock : i = .memSize ∧ uptime.Fits (i.canonical word)
  · -- then the word is the clock's, and `MEMSIZE` has no field to clear
    obtain ⟨rfl, huptime⟩ := hclock
    obtain ⟨r, hr⟩ := isClock_of_uptime hencodes (encode_ok_iff.mp ⟨_, h⟩) huptime
    rw [encode_of_isClock hr, canonical_memSize] at h
    exact ⟨_, decode_of_encodes (encodes_of_ok h) nofun⟩
  · have hdecode := decode_of_encodes hencodes fun hi huptime => hclock ⟨hi, huptime⟩
    have hreads := reads_canonical_iff.mp (decode_eq_some_iff.mp hdecode).2
    exact ⟨⟨i, i.readAs c, word⟩, decode_eq_some_iff.mpr ⟨rfl, hreads⟩⟩

/-- **The decoder accepts exactly the encodings**, and all words that stand for one. -/
theorem decode_iff_encode (word : UInt32) :
    ((∃ d, decode word = some d) ↔ ∃ i c args, encode i c args = .ok (i.canonical word)) ∧
      ∀ d, decode word = some d →
        d.instruction.encode d.condition d.args = .ok (d.instruction.canonical word) ∧
        (∃ d', decode (d.instruction.canonical word) = some d' ∧
          d'.instruction = d.instruction ∧ d'.condition = d.condition ∧ d'.args = d.args) ∧
        (d.instruction.canonical word = word ↔ ∀ slot, d.instruction.Takes slot .src →
          d.instruction.IsZero word (.src, slot) → word &&& slotMask slot = 0) := by
  have hread : ∀ d, decode word = some d → d.word = word ∧ d.instruction.Reads d.condition word :=
    fun d => decode_eq_some_iff.mp
  refine ⟨⟨?_, ?_⟩, ?_⟩
  · rintro ⟨d, hd⟩
    exact ⟨d.instruction, d.condition, _, encode_args (hread d hd).2⟩
  · rintro ⟨i, c, args, h⟩
    exact decode_of_canonical h
  · rintro ⟨i, c, word'⟩ hd
    obtain ⟨rfl, hreads⟩ := hread _ hd
    refine ⟨encode_args hreads, ⟨⟨i, c, i.canonical word'⟩, ?_, rfl, rfl, args_canonical hreads⟩,
      canonical_eq_iff⟩
    exact decode_eq_some_iff.mpr ⟨rfl, reads_canonical_iff.mpr hreads⟩

/-- The second operand of this `ADD` is the constant zero beside a register field that is set. -/
theorem decode_iff_encode_idle :
    decode 0x390101 = some ⟨.add, .always, 0x390101⟩ ∧
      add.encode .always [.operand (.register 0), .operand .zero, .operand (.register 1)] =
        .ok 0x10101 := by
  have hdecode : decode 0x390101 = some ⟨.add, .always, 0x390101⟩ := by decide +kernel
  exact ⟨hdecode, ((decode_iff_encode 0x390101).2 _ hdecode).1⟩

end Instruction
end RegisterMachine
