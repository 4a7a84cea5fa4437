import RegisterMachine.Instruction.Word
import RegisterMachine.Proofs.Except
import RegisterMachine.Proofs.Number.Mask

/-! What is decoded, and that encoded words are decoded to what they were encoded from.

A word is decoded as the first instruction whose fixed bits it has, if no bit is set that
this instruction does not use and its condition exists (`decode_eq_some_iff`).

In a word every bit belongs to one party: the bits that the instruction fixes, the
condition and each operand lie apart (`operandBits_apart`), and no two instructions
agree on the bits that both of them fix (`conflicts`), except that `UPTIME` takes one
word of each register from `MEMSIZE`. So the fixed bits of a word are found again
(`decode_of_encodes`), and so are its operands (`reg_of_encodes`, `imm_of_encodes`). -/
namespace RegisterMachine

/-- Only the low three bits of a field name a register. -/
theorem Reg.ofField_and (field : UInt32) : ofField (field &&& 7) = ofField field := by
  apply Fin.ext
  show (field &&& 7).toNat % 8 = field.toNat % 8
  rw [UInt32.toNat_and]
  have hmod : field.toNat &&& 7 = field.toNat % 8 := Nat.and_two_pow_sub_one_eq_mod _ 3
  exact (congrArg (· % 8) hmod).trans (Nat.mod_mod _ _)

namespace Instruction

/-! ### The table -/

theorem value_within (i : Instruction) :
    i.selector.value &&& i.selector.mask = i.selector.value := by
  have hall : ∀ i ∈ all, i.selector.value &&& i.selector.mask = i.selector.value := by
    decide +kernel
  exact hall i (mem_all i)

theorem mask_within (i : Instruction) : i.selector.mask &&& i.usedBits = i.selector.mask := by
  have hall : ∀ i ∈ all, i.selector.mask &&& i.usedBits = i.selector.mask := by decide +kernel
  exact hall i (mem_all i)

theorem conditionMask_within (i : Instruction) :
    Selector.conditionMask &&& i.usedBits = Selector.conditionMask := by
  have hall : ∀ i ∈ all, Selector.conditionMask &&& i.usedBits = Selector.conditionMask := by
    decide +kernel
  exact hall i (mem_all i)

/-- An operand of the instruction, by its slot and its kind. -/
def Takes (i : Instruction) (slot : Nat) (kind : OperandKind) : Prop :=
  (kind, slot) ∈ i.operands.zipIdx

instance (i : Instruction) (slot : Nat) (kind : OperandKind) : Decidable (i.Takes slot kind) :=
  inferInstanceAs (Decidable (_ ∈ _))

variable {i : Instruction} {slot slot' : Nat} {kind kind' : OperandKind}

theorem takes_of_getElem? (h : i.operands[slot]? = some kind) : i.Takes slot kind :=
  List.mk_mem_zipIdx_iff_getElem?.mpr h

theorem slot_lt (h : i.Takes slot kind) : slot < 5 := by
  have hall : ∀ i ∈ all, ∀ o ∈ i.operands.zipIdx, o.2 < 5 := by decide +kernel
  exact hall i (mem_all i) _ h

/-- The bits of an operand are used, and neither fixed nor a condition's. -/
theorem operandBits_free (h : i.Takes slot kind) :
    i.operandBits slot kind &&& i.usedBits = i.operandBits slot kind ∧
      i.operandBits slot kind &&& i.selector.mask = 0 ∧
      i.operandBits slot kind &&& Selector.conditionMask = 0 := by
  have hall : ∀ i ∈ all, ∀ o ∈ i.operands.zipIdx,
      i.operandBits o.2 o.1 &&& i.usedBits = i.operandBits o.2 o.1 ∧
        i.operandBits o.2 o.1 &&& i.selector.mask = 0 ∧
        i.operandBits o.2 o.1 &&& Selector.conditionMask = 0 := by decide +kernel
  exact hall i (mem_all i) _ h

theorem operandBits_apart (h : i.Takes slot kind) (h' : i.Takes slot' kind') (hne : slot ≠ slot') :
    i.operandBits slot kind &&& i.operandBits slot' kind' = 0 := by
  have hall : ∀ i ∈ all, ∀ o ∈ i.operands.zipIdx, ∀ o' ∈ i.operands.zipIdx, o.2 ≠ o'.2 →
      i.operandBits o.2 o.1 &&& i.operandBits o'.2 o'.1 = 0 := by decide +kernel
  exact hall i (mem_all i) _ h _ h' hne

/-- An instruction has one immediate at most. -/
theorem immediateKind?_eq (h : i.Takes slot kind) (hkind : kind.isRegister = false) :
    i.immediateKind? = some kind := by
  have hall : ∀ i ∈ all, ∀ o ∈ i.operands.zipIdx, o.1.isRegister = false →
      i.immediateKind? = some o.1 := by decide +kernel
  exact hall i (mem_all i) _ h hkind

/-- The two instructions fix a bit differently, so no word has the bits of both. -/
def Conflicts (i j : Instruction) : Prop :=
  i.selector.value &&& j.selector.mask ≠ j.selector.value &&& i.selector.mask

instance (i j : Instruction) : Decidable (i.Conflicts j) := inferInstanceAs (Decidable (_ ≠ _))

/-- Every instruction conflicts with those after it, but for `UPTIME` and `MEMSIZE`. -/
theorem conflicts : all.Pairwise fun i j => i.Conflicts j ∨ i = .uptime ∧ j = .memSize := by
  decide +kernel

/-- The word has the bits that the instruction fixes. -/
def Fits (i : Instruction) (word : UInt32) : Prop := word &&& i.selector.mask = i.selector.value

theorem not_fits_of_conflicts {j : Instruction} {word : UInt32} (h : i.Conflicts j)
    (hj : j.Fits word) : ¬i.Fits word := by
  intro hi
  apply h
  unfold Fits at hi hj
  rw [← hi, ← hj, UInt32.and_assoc, UInt32.and_assoc, UInt32.and_comm i.selector.mask]

/-- The low byte of the words of `UPTIME` is set. -/
theorem byte_of_uptime {word : UInt32} (h : uptime.Fits word) : word &&& 0xFF = 0xFF := by
  have hmask : uptime.selector.mask &&& 0xFF = 0xFF := by decide
  have hfixed : uptime.selector.value &&& 0xFF = 0xFF := by decide
  unfold Fits at h
  rw [← h, UInt32.and_assoc, hmask] at hfixed
  exact hfixed

/-- The first instruction that a word fits is the only one, but for `UPTIME` and `MEMSIZE`. -/
theorem find?_of_fits {word : UInt32} (hfits : i.Fits word)
    (huptime : i = .memSize → ¬uptime.Fits word) :
    all.find? (fun j => word &&& j.selector.mask == j.selector.value) = some i := by
  obtain ⟨front, back, hall⟩ := List.append_of_mem (mem_all i)
  have hfront := (List.pairwise_append.mp (hall ▸ conflicts)).2.2
  have hnone : front.find? (fun j => word &&& j.selector.mask == j.selector.value) = none := by
    apply List.find?_eq_none.mpr
    intro j hj hfits'
    have hfits' : j.Fits word := beq_iff_eq.mp hfits'
    rcases hfront j hj i List.mem_cons_self with hconflict | ⟨rfl, hi⟩
    · exact not_fits_of_conflicts hconflict hfits hfits'
    · exact huptime hi hfits'
  rw [hall, List.find?_append, hnone, Option.none_or]
  exact List.find?_cons_of_pos (beq_iff_eq.mpr hfits)

/-- The instruction that is found is one that the word fits, and `UPTIME` before `MEMSIZE`. -/
theorem find?_eq_some_iff {word : UInt32} :
    all.find? (fun j => word &&& j.selector.mask == j.selector.value) = some i ↔
      i.Fits word ∧ (i = .memSize → ¬uptime.Fits word) := by
  constructor
  · intro h
    have hfits := List.find?_some h
    refine ⟨beq_iff_eq.mp hfits, ?_⟩
    rintro rfl huptime
    have hfirst := find?_of_fits huptime nofun
    exact absurd (h.symm.trans hfirst) (by decide)
  · rintro ⟨hfits, huptime⟩
    exact find?_of_fits hfits huptime

/-! ### Encoding -/

theorem field_within (r : Reg) (hslot : slot < 5) :
    Selector.field (slotShift slot) r.field &&& slotMask slot =
      Selector.field (slotShift slot) r.field := by
  revert r
  have hall : ∀ slot < 5, ∀ r : Reg, Selector.field (slotShift slot) r.field &&& slotMask slot =
      Selector.field (slotShift slot) r.field := by decide
  exact hall slot hslot

theorem slotMask_within (h : kind.isRegister = true) :
    slotMask slot &&& i.operandBits slot kind = slotMask slot := by
  cases kind with
  | dst | reg => exact UInt32.and_self
  | src => exact within_or_left _ _
  | imm8 | imm16 | off22 | irq => exact absurd h (by decide)

variable {arg : Arg} {bits : UInt32}

theorem register_of_argumentBits {r : Reg}
    (h : i.argumentBits slot kind (.operand (.register r)) = .ok bits) :
    kind.isRegister = true ∧ bits = Selector.field (slotShift slot) r.field := by
  by_cases hkind : kind.isRegister = true
  · exact ⟨hkind, Except.ok.inj (h.symm.trans (if_pos hkind))⟩
  · exact absurd (h.symm.trans (if_neg hkind)) (by simp)

theorem immediate_of_argumentBits {value : UInt32}
    (h : i.argumentBits slot kind (.immediate value) = .ok bits) :
    kind.isRegister = false ∧ bits = value &&& kind.mask := by
  by_cases hkind : kind.isRegister = true
  · exact absurd (h.symm.trans (if_pos hkind)) (by simp)
  · exact ⟨by simpa using hkind, Except.ok.inj (h.symm.trans (if_neg hkind))⟩

theorem zero_of_argumentBits (h : i.argumentBits slot kind (.operand .zero) = .ok bits) :
    kind = .src ∧ i.zeroBit? slot = some bits := by
  cases kind with
  | src =>
    refine ⟨rfl, ?_⟩
    cases hbit : i.zeroBit? slot with
    | none => simp [argumentBits, hbit] at h
    | some bit => simpa [argumentBits, hbit] using h
  | dst | reg | imm8 | imm16 | off22 | irq => exact absurd h (by simp [argumentBits])

/-- An operand other than an immediate and one that may be zero is a register. -/
theorem exists_register_of_argumentBits (h : i.argumentBits slot kind arg = .ok bits)
    (hregister : kind.isRegister = true) (hsrc : kind ≠ .src) :
    ∃ r, arg = .operand (.register r) := by
  cases arg with
  | operand o =>
    cases o with
    | register r => exact ⟨r, rfl⟩
    | zero => exact absurd (zero_of_argumentBits h).1 hsrc
  | immediate value =>
    exact absurd (hregister.symm.trans (immediate_of_argumentBits h).1) (by decide)

/-- An argument sets bits of its own operand only. -/
theorem argumentBits_within (hslot : slot < 5) (h : i.argumentBits slot kind arg = .ok bits) :
    bits &&& i.operandBits slot kind = bits := by
  cases arg with
  | operand o =>
    cases o with
    | register r =>
      obtain ⟨hkind, rfl⟩ := register_of_argumentBits h
      exact within_trans (field_within r hslot) (slotMask_within hkind)
    | zero =>
      obtain ⟨rfl, hbit⟩ := zero_of_argumentBits h
      have hgetD : (i.zeroBit? slot).getD 0 = bits := by rw [hbit, Option.getD_some]
      rw [operandBits, hgetD]
      exact within_or_right _ _
  | immediate value =>
    obtain ⟨hkind, rfl⟩ := immediate_of_argumentBits h
    cases kind with
    | dst | src | reg => exact absurd hkind (by decide)
    | imm8 | imm16 | off22 | irq =>
      show value &&& _ &&& _ = _
      rw [UInt32.and_assoc]
      exact congrArg (value &&& ·) UInt32.and_self

theorem argumentsBits_cons {rest : List (OperandKind × Arg)}
    (h : i.argumentsBits slot ((kind, arg) :: rest) = .ok bits) :
    ∃ own others, i.argumentBits slot kind arg = .ok own ∧
      i.argumentsBits (slot + 1) rest = .ok others ∧ own ||| others = bits := by
  cases hown : i.argumentBits slot kind arg with
  | error e => simp [argumentsBits, hown] at h
  | ok own =>
    rw [argumentsBits, hown] at h
    obtain ⟨others, hothers, heq⟩ := map_ok_iff.mp h
    exact ⟨own, others, rfl, hothers, heq⟩

/-- The bits of arguments have nothing in common with what lies apart from their operands. -/
theorem argumentsBits_and {args : List (OperandKind × Arg)} {m : UInt32}
    (h : i.argumentsBits slot args = .ok bits)
    (hapart : ∀ k kind arg, args[k]? = some (kind, arg) →
      slot + k < 5 ∧ i.operandBits (slot + k) kind &&& m = 0) : bits &&& m = 0 := by
  induction args generalizing slot bits with
  | nil =>
    obtain rfl := Except.ok.inj h
    exact UInt32.zero_and
  | cons a rest ih =>
    obtain ⟨kind, arg⟩ := a
    obtain ⟨own, others, hown, hothers, rfl⟩ := argumentsBits_cons h
    obtain ⟨hslot, hfirst⟩ := hapart 0 kind arg rfl
    have hothers := ih hothers fun k kind arg hk => by
      rw [Nat.add_right_comm]
      exact hapart (k + 1) kind arg hk
    rw [or_and, and_eq_zero_of_within (argumentBits_within hslot hown) hfirst, hothers,
      UInt32.or_zero]

/-- The bits of an operand are those that its argument sets. -/
theorem argumentBits_of_ok {args : List (OperandKind × Arg)} {k : Nat}
    (h : i.argumentsBits slot args = .ok bits) (hk : args[k]? = some (kind, arg))
    (hslots : ∀ k kind arg, args[k]? = some (kind, arg) → i.Takes (slot + k) kind) :
    i.argumentBits (slot + k) kind arg = .ok (bits &&& i.operandBits (slot + k) kind) := by
  induction args generalizing slot bits k with
  | nil => exact absurd hk (by simp)
  | cons a rest ih =>
    obtain ⟨kind', arg'⟩ := a
    obtain ⟨own, others, hown, hothers, rfl⟩ := argumentsBits_cons h
    have hfirst := hslots 0 kind' arg' rfl
    have hrest : ∀ k kind arg, rest[k]? = some (kind, arg) → i.Takes (slot + 1 + k) kind := by
      intro k kind arg hk
      rw [Nat.add_right_comm]
      exact hslots (k + 1) kind arg hk
    cases k with
    | zero =>
      obtain ⟨rfl, rfl⟩ := Prod.mk.inj (Option.some.inj hk)
      have hothers := argumentsBits_and (m := i.operandBits slot kind') hothers
        fun k kind arg hk => ⟨slot_lt (hrest k kind arg hk),
          operandBits_apart (hrest k kind arg hk) hfirst (by omega)⟩
      rw [or_and, argumentBits_within (slot_lt hfirst) hown, Nat.add_zero, hothers,
        UInt32.or_zero]
      exact hown
    | succ k =>
      have hthis := hrest k kind arg hk
      have hslot : slot + 1 + k = slot + (k + 1) := by omega
      have hown' : own &&& i.operandBits (slot + 1 + k) kind = 0 :=
        and_eq_zero_of_within (argumentBits_within (slot_lt hfirst) hown)
          (operandBits_apart hfirst hthis (by omega))
      rw [or_and, ← hslot, hown', UInt32.zero_or]
      exact ih hothers hk hrest

/-! ### Whole words -/

/-- What is in a word that was encoded from these arguments. -/
structure Encodes (i : Instruction) (c : Condition) (args : List Arg) (word : UInt32) : Prop where
  fits : i.Fits word
  condition : i.isConditional = true → word &&& Selector.conditionMask = c.bits
  used : word &&& ~~~i.usedBits = 0
  argument : ∀ {slot kind arg}, i.operands[slot]? = some kind → args[slot]? = some arg →
    i.argumentBits slot kind arg = .ok (word &&& i.operandBits slot kind)

theorem conditionBits_and (i : Instruction) (c : Condition) :
    i.conditionBits c &&& i.selector.mask = 0 ∧
      i.conditionBits c &&& Selector.conditionMask = i.conditionBits c := by
  have hbits : c.bits &&& Selector.conditionMask = c.bits := by cases c <;> decide
  by_cases hconditional : i.isConditional = true
  · rw [conditionBits, if_pos hconditional]
    have hmask : i.selector.mask &&& Selector.conditionMask = 0 := beq_iff_eq.mp hconditional
    rw [UInt32.and_comm] at hmask
    exact ⟨and_eq_zero_of_within hbits hmask, hbits⟩
  · rw [conditionBits, if_neg hconditional]
    exact ⟨UInt32.zero_and, UInt32.zero_and⟩

theorem encodes_of_ok {c : Condition} {args : List Arg} {word : UInt32}
    (h : i.encode c args = .ok word) : i.Encodes c args word := by
  have hlength : ¬args.length ≠ i.operands.length := by
    intro hne
    exact absurd (h.symm.trans (if_pos hne)) (by simp)
  rw [encode, if_neg hlength] at h
  obtain ⟨bits, hbits, rfl⟩ := map_ok_iff.mp h
  obtain ⟨hmask, hcondition⟩ := i.conditionBits_and c
  have htakes : ∀ k kind arg, (i.operands.zip args)[k]? = some (kind, arg) → i.Takes k kind := by
    intro k kind arg hk
    exact takes_of_getElem? (List.getElem?_zip_eq_some.mp hk).1
  have hapart : ∀ m, (∀ slot kind, i.Takes slot kind → i.operandBits slot kind &&& m = 0) →
      bits &&& m = 0 := by
    intro m hm
    refine argumentsBits_and hbits fun k kind arg hk => ?_
    rw [Nat.zero_add]
    exact ⟨slot_lt (htakes k kind arg hk), hm _ _ (htakes k kind arg hk)⟩
  refine ⟨?_, fun hconditional => ?_, ?_, fun {slot kind arg} hkind harg => ?_⟩
  · unfold Fits
    rw [or_and, or_and, i.value_within, hmask, hapart _ fun _ _ ht => (operandBits_free ht).2.1,
      UInt32.or_zero, UInt32.or_zero]
  · have hfixed : i.selector.mask &&& Selector.conditionMask = 0 := beq_iff_eq.mp hconditional
    rw [or_and, or_and, and_eq_zero_of_within i.value_within hfixed, hcondition,
      hapart _ fun _ _ ht => (operandBits_free ht).2.2, UInt32.or_zero, UInt32.zero_or]
    exact if_pos hconditional
  · rw [or_and, or_and, and_not_of_within (within_trans i.value_within i.mask_within),
      and_not_of_within (within_trans hcondition i.conditionMask_within),
      hapart _ fun _ _ ht => and_not_of_within (operandBits_free ht).1]
    rfl
  · have ht := takes_of_getElem? hkind
    obtain ⟨-, hfixed, hown⟩ := operandBits_free ht
    rw [UInt32.and_comm] at hfixed hown
    have harg := argumentBits_of_ok hbits (List.getElem?_zip_eq_some.mpr ⟨hkind, harg⟩)
      fun k kind arg hk => by rw [Nat.zero_add]; exact htakes k kind arg hk
    rw [Nat.zero_add] at harg
    rw [or_and, or_and, and_eq_zero_of_within i.value_within hfixed,
      and_eq_zero_of_within hcondition hown, UInt32.or_zero, UInt32.zero_or]
    exact harg

/-! ### Decoding -/

variable {c : Condition} {args : List Arg} {word : UInt32}

/-- The condition that a word of this instruction is decoded with. -/
def readAs (i : Instruction) (c : Condition) : Condition := if i.isConditional then c else .always

theorem ofCode?_eq_some_iff {word : UInt32} :
    Condition.ofCode? (word >>> 29) = some c ↔ word &&& Selector.conditionMask = c.bits := by
  have hfield : (word >>> 29 &&& 7) <<< 29 = word &&& Selector.conditionMask :=
    and_shiftLeft_of_shiftRight word 7 (by decide)
  constructor
  · intro h
    have hfound := List.find?_some h
    have hcode : c.code = word >>> 29 &&& 7 := beq_iff_eq.mp hfound
    rw [← hfield, ← hcode]
    rfl
  · intro h
    have hcode : word >>> 29 &&& 7 = c.code &&& 7 := by
      have hmask : Selector.conditionMask >>> 29 = 7 := by decide
      rw [← hmask, ← UInt32.shiftRight_and, h]
      cases c <;> decide
    rw [Condition.ofCode?, hcode]
    exact c.ofCode?_code

/-- What is in a word that is read as this instruction under this condition. -/
structure Reads (i : Instruction) (c : Condition) (word : UInt32) : Prop where
  fits : i.Fits word
  used : word &&& ~~~i.usedBits = 0
  condition : i.isConditional = true → word &&& Selector.conditionMask = c.bits
  unconditional : i.isConditional = false → c = .always
  /-- `UPTIME` is looked for in front of `MEMSIZE`. -/
  first : i = .memSize → ¬uptime.Fits word

/-- A word is decoded to exactly what it reads as. -/
theorem decode_eq_some_iff {d : Decoded} :
    decode word = some d ↔ d.word = word ∧ d.instruction.Reads d.condition word := by
  have hpattern : Pattern.all.find? (·.fits word) = (all.find? fun j =>
      word &&& j.selector.mask == j.selector.value).map Pattern.ofInstruction :=
    Pattern.find?_all word
  constructor
  · intro h
    cases hfind : all.find? fun j => word &&& j.selector.mask == j.selector.value with
    | none => simp [decode, hpattern, hfind] at h
    | some j =>
      obtain ⟨hfits, hfirst⟩ := find?_eq_some_iff.mp hfind
      simp only [decode, hpattern, hfind, Option.map_some, Pattern.ofInstruction] at h
      by_cases hused : word &&& ~~~j.usedBits = 0
      · rw [if_neg (not_not_intro hused)] at h
        by_cases hconditional : j.isConditional = true
        · rw [if_pos hconditional] at h
          obtain ⟨c, hc, rfl⟩ := Option.map_eq_some_iff.mp h
          exact ⟨rfl, hfits, hused, fun _ => ofCode?_eq_some_iff.mp hc,
            fun hfalse => absurd (hconditional.symm.trans hfalse) (by decide), hfirst⟩
        · rw [if_neg hconditional] at h
          obtain rfl := Option.some.inj h
          exact ⟨rfl, hfits, hused, fun htrue => absurd htrue hconditional, fun _ => rfl, hfirst⟩
      · rw [if_pos hused] at h
        exact absurd h (by simp)
  · obtain ⟨j, c, word'⟩ := d
    rintro ⟨hword, h⟩
    obtain rfl : word' = word := hword
    replace h : j.Reads c word' := h
    have hfind := find?_eq_some_iff.mpr ⟨h.fits, h.first⟩
    simp only [decode, hpattern, hfind, Option.map_some, Pattern.ofInstruction]
    rw [if_neg (not_not_intro h.used)]
    by_cases hconditional : j.isConditional = true
    · rw [if_pos hconditional, ofCode?_eq_some_iff.mpr (h.condition hconditional)]
      rfl
    · have hc : c = .always := h.unconditional (by simpa using hconditional)
      rw [if_neg hconditional, hc]

/-- A word that was encoded is decoded to its instruction and condition. -/
theorem decode_of_encodes (h : i.Encodes c args word) (huptime : i = .memSize → ¬uptime.Fits word) :
    decode word = some ⟨i, i.readAs c, word⟩ := by
  refine decode_eq_some_iff.mpr ⟨rfl, h.fits, h.used, fun hconditional => ?_,
    fun hfalse => by simp [readAs, hfalse], huptime⟩
  rw [readAs, if_pos hconditional]
  exact h.condition hconditional

theorem slotMask_shiftRight (hslot : slot < 5) : slotMask slot >>> slotShift slot = 7 := by
  have hall : ∀ slot < 5, slotMask slot >>> slotShift slot = 7 := by decide
  exact hall slot hslot

theorem field_shiftRight (r : Reg) (hslot : slot < 5) :
    Selector.field (slotShift slot) r.field >>> slotShift slot = r.field := by
  revert r
  have hall : ∀ slot < 5, ∀ r : Reg,
      Selector.field (slotShift slot) r.field >>> slotShift slot = r.field := by decide
  exact hall slot hslot

/-- A register that was encoded is read again. -/
theorem reg_of_encodes (h : i.Encodes c args word) {r : Reg} (hkind : i.operands[slot]? = some kind)
    (harg : args[slot]? = some (.operand (.register r))) (c' : Condition) :
    (Decoded.mk i c' word).reg slot = r := by
  obtain ⟨hregister, hbits⟩ := register_of_argumentBits (h.argument hkind harg)
  have hslot := slot_lt (takes_of_getElem? hkind)
  have hfield : word &&& slotMask slot = Selector.field (slotShift slot) r.field := by
    rw [← field_within r hslot, ← hbits, UInt32.and_assoc,
      UInt32.and_comm (i.operandBits slot kind), slotMask_within hregister]
  show Reg.ofField (word >>> slotShift slot) = r
  rw [← Reg.ofField_and, ← slotMask_shiftRight hslot, ← UInt32.shiftRight_and, hfield,
    field_shiftRight r hslot, Reg.ofField_field]

/-- An immediate that was encoded is read again, cut to its width. -/
theorem imm_of_encodes (h : i.Encodes c args word) {value : UInt32}
    (hkind : i.operands[slot]? = some kind) (harg : args[slot]? = some (.immediate value))
    (c' : Condition) : (Decoded.mk i c' word).imm = value &&& kind.mask := by
  obtain ⟨hregister, hbits⟩ := immediate_of_argumentBits (h.argument hkind harg)
  have himmediate := immediateKind?_eq (takes_of_getElem? hkind) hregister
  rw [Decoded.imm, himmediate, ← hbits]
  cases kind with
  | dst | src | reg => exact absurd hregister (by decide)
  | imm8 | imm16 | off22 | irq => rfl

end Instruction
end RegisterMachine
