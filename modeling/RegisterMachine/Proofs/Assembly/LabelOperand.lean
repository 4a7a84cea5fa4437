import RegisterMachine.Proofs.Assembly.Tiling
import RegisterMachine.Proofs.Instruction.Decoding

/-! What a label operand becomes.

Labels stand at whole words, because every item has a whole number of words. A label
can only stand where an instruction takes an immediate, and the word that is encoded
for it is decoded to the same instruction, with the value that the label has for that
instruction (`refers_of_words`). `LOADWORDI` becomes the two halves of the label's
address (`halves_of_words`). -/
namespace RegisterMachine

/-! ### Labels stand at whole words -/

def LabelTable.Aligned (t : LabelTable) : Prop :=
  ∀ name address, t.find? name = some address → address.toNat % 4 = 0

theorem LabelTable.define_ok {t t' : LabelTable} {name : String} {address : UInt32}
    (h : t.define name address = .ok t') : t' = t.insert (name.map Char.toLower) address := by
  cases hfound : t.lookup? name with
  | none =>
    rw [define, hfound] at h
    exact (Except.ok.inj h).symm
  | some old =>
    rw [define, hfound] at h
    by_cases hsame : old = address
    · exact (Except.ok.inj ((if_neg (not_not.mpr hsame)).symm.trans h)).symm
    · exact absurd ((if_pos hsame).symm.trans h) (by simp)

theorem LabelTable.lookup?_of_resolve {t : LabelTable} {name : String} {address : UInt32}
    (h : t.resolve name = .ok address) : t.lookup? name = some address := by
  cases hfound : t.lookup? name with
  | none => simp [resolve, hfound] at h
  | some found =>
    rw [resolve, hfound] at h
    exact congrArg some (Except.ok.inj h)

theorem LabelTable.Aligned.insert {t : LabelTable} (h : t.Aligned) {name : String}
    {address : UInt32} (haddress : address.toNat % 4 = 0) : (t.insert name address).Aligned := by
  intro n other hfind
  rw [find?_insert] at hfind
  split at hfind
  · rw [← Option.some.inj hfind]
    exact haddress
  · exact h n other hfind

/-- The next free address and all labels so far are whole words. -/
structure LayoutState.Aligned (s : LayoutState) : Prop where
  address : s.address % 4 = 0
  labels : s.labels.Aligned

theorem kept_aligned : Kept LayoutState.Aligned where
  settings _ _ h _ := ⟨h.address, h.labels⟩
  bind name h hok := by
    obtain ⟨labels, hdefine, rfl⟩ := LayoutState.bind_ok hok
    obtain rfl := LabelTable.define_ok hdefine
    have haddress := h.address
    refine ⟨haddress, h.labels.insert ?_⟩
    rw [UInt32.toNat_ofNat']
    omega
  place item size position h hsized _ := by
    have haddress := h.address
    have hsize : size % 4 = 0 := hsized.size_mod
    refine ⟨?_, h.labels⟩
    show (_ + size) % 4 = 0
    omega

theorem Program.aligned_of_layout {source : String} {origin : UInt32} {l : Layout}
    (haligned : origin.toNat % 4 = 0) (h : layout source origin = .ok l) : l.labels.Aligned := by
  obtain ⟨statements, -, hstatements⟩ := bind_ok_iff.mp h
  have hempty : LabelTable.empty.Aligned := by
    intro name address hfind
    exact absurd hfind (by simp [LabelTable.find?, LabelTable.empty])
  have hstart : (LayoutState.start origin.toNat).Aligned := ⟨haligned, hempty⟩
  obtain ⟨s, hs, rfl⟩ := kept_aligned.ofStatements hstart hstatements
  exact hs.labels

/-! ### One argument -/

section Arguments
variable {i : Instruction} {kind : OperandKind} {token : Token} {label : String} {address : Nat}
  {labels : LabelTable} {a : Arg}

theorem Token.of_reference? (h : token.reference? = some label) :
    token.quoted = false ∧ ∃ rest, token.text.toList = '@' :: rest := by
  by_cases hmark : token.startsWith '@' = true
  · rw [startsWith, Bool.and_eq_true, Bool.not_eq_true', beq_iff_eq,
      List.head?_eq_some_iff] at hmark
    exact hmark
  · exact absurd ((if_neg hmark).symm.trans h) (by simp)

/-- A label is no register. -/
theorem Token.not_register_of_reference? (h : token.reference? = some label) :
    token.text ≠ "0" ∧ ∀ r, Reg.parse token.text ≠ .ok r := by
  obtain ⟨-, rest, htext⟩ := of_reference? h
  constructor
  · intro hzero
    rw [hzero] at htext
    exact absurd htext (by simp)
  · intro r hr
    unfold Reg.parse at hr
    rw [htext] at hr
    exact absurd hr (by simp)

/-- A label operand is an immediate with the value that the label has there. -/
theorem Instruction.arg_of_reference (h : i.arg kind token address labels = .ok a)
    (hreference : token.reference? = some label) :
    kind.isRegister = false ∧ ∃ target value, labels.lookup? label = some target ∧
      i.labelValue kind label target.toNat address = .ok value ∧ a = .immediate value := by
  obtain ⟨hzero, hregister⟩ := Token.not_register_of_reference? hreference
  obtain ⟨hquoted, -⟩ := Token.of_reference? hreference
  rw [arg, hquoted, hreference, if_neg (by decide), if_neg hzero] at h
  by_cases hkind : kind.isRegister = true
  · rw [if_pos hkind] at h
    obtain ⟨r, hr, -⟩ := map_ok_iff.mp h
    exact absurd (mapError_ok_iff.mp hr) (hregister r)
  · rw [if_neg hkind] at h
    obtain ⟨target, htarget, h⟩ := bind_ok_iff.mp h
    obtain ⟨value, hvalue, rfl⟩ := map_ok_iff.mp h
    exact ⟨by simpa using hkind, target, value,
      LabelTable.lookup?_of_resolve (mapError_ok_iff.mp htarget), hvalue, rfl⟩

/-- A register operand is the register that its token names. -/
theorem Instruction.parse_of_arg {r : Reg}
    (h : i.arg kind token address labels = .ok (.operand (.register r))) :
    Reg.parse token.text = .ok r := by
  unfold arg at h
  split at h
  · exact absurd h (by simp)
  · split at h
    · split at h
      · exact absurd (Except.ok.inj h) (by simp)
      · obtain ⟨r', hr, heq⟩ := map_ok_iff.mp h
        obtain rfl : r' = r := by simpa using heq
        exact mapError_ok_iff.mp hr
    · split at h
      · obtain ⟨target, -, h⟩ := bind_ok_iff.mp h
        obtain ⟨value, -, heq⟩ := map_ok_iff.mp h
        exact absurd heq (by simp)
      · obtain ⟨value, -, heq⟩ := map_ok_iff.mp h
        exact absurd heq (by simp)

/-- And a token that names a register is an operand wherever one can stand. -/
theorem Instruction.arg_of_parse {r : Reg} (hkind : kind.isRegister = true)
    (hquoted : token.quoted = false) (hr : Reg.parse token.text = .ok r) :
    i.arg kind token address labels = .ok (.operand (.register r)) := by
  have hzero : token.text ≠ "0" := by
    intro hzero
    have hnone : Reg.parse "0" = .error (.expectedRegister "0") := rfl
    exact absurd (hnone.symm.trans (hzero ▸ hr)) (by simp)
  rw [arg, hquoted, if_neg (by decide), if_pos hkind, if_neg hzero, hr]
  rfl

/-- Every token has its argument, in the same place. -/
theorem Instruction.args_getElem? {operands : List (OperandKind × Token)} {args : List Arg}
    {k : Nat} (h : i.args address labels operands = .ok args)
    (hk : operands[k]? = some (kind, token)) :
    ∃ a, args[k]? = some a ∧ i.arg kind token address labels = .ok a := by
  induction operands generalizing args k with
  | nil => exact absurd hk (by simp)
  | cons o rest ih =>
    obtain ⟨kind', token'⟩ := o
    obtain ⟨first, hfirst, h⟩ := bind_ok_iff.mp h
    obtain ⟨others, hothers, h⟩ := bind_ok_iff.mp h
    obtain rfl := Except.ok.inj h
    cases k with
    | zero =>
      obtain ⟨rfl, rfl⟩ := Prod.mk.inj (Option.some.inj hk)
      exact ⟨first, rfl, hfirst⟩
    | succ k =>
      obtain ⟨a, ha, harg⟩ := ih hothers hk
      exact ⟨a, ha, harg⟩

end Arguments

/-! ### One instruction -/

/-- A field cuts a value to its width. -/
theorem OperandKind.toNat_and_mask (kind : OperandKind) (value : UInt32) :
    (value &&& kind.mask).toNat = value.toNat % 2 ^ kind.width := by
  have hmask : kind.mask.toNat = 2 ^ kind.width - 1 := by cases kind <;> rfl
  rw [UInt32.toNat_and, hmask, Nat.and_two_pow_sub_one_eq_mod]

/-- A value within the width of a field is not cut. -/
theorem OperandKind.and_mask_of_lt {kind : OperandKind} {value : UInt32}
    (h : value.toNat < 2 ^ kind.width) : value &&& kind.mask = value := by
  apply UInt32.toNat_inj.mp
  rw [kind.toNat_and_mask, Nat.mod_eq_of_lt h]

namespace Instruction

/-- The first of two operands is a register, and one in front of an immediate is never zero. -/
theorem isRegister_of_first {i : Instruction} {first second : OperandKind}
    (h : i.operands = [first, second]) :
    first.isRegister = true ∧ (second.isRegister = false → first ≠ .src) := by
  have hall : ∀ i ∈ all, i.operands.length = 2 → ∀ first ∈ i.operands.head?,
      ∀ second ∈ i.operands.getLast?,
        first.isRegister = true ∧ (second.isRegister = false → first ≠ .src) := by decide +kernel
  exact hall i (mem_all i) (by simp [h]) first (by simp [h]) second (by simp [h])

variable {i : Instruction} {kind : OperandKind} {label : String} {target address : Nat}
  {value : UInt32}

/-- Distances apart, a label is scaled by the kind of its operand. -/
theorem scaled?_eq (hjfw : i ≠ .jfw) (hjbw : i ≠ .jbw) :
    i.scaled? kind target address = if kind = .off22 then some (target / 4) else some target := by
  unfold scaled?
  split
  · exact absurd rfl hjfw
  · exact absurd rfl hjbw
  · rfl

theorem labelValue_ok (h : i.labelValue kind label target address = .ok value) :
    ∃ n, i.scaled? kind target address = some n ∧ n < 2 ^ kind.width ∧ value.toNat = n := by
  cases hscaled : i.scaled? kind target address with
  | none => simp [labelValue, hscaled] at h
  | some n =>
    rw [labelValue, hscaled] at h
    by_cases hn : n < 1 <<< kind.width
    · have h := Except.ok.inj ((if_pos hn).symm.trans h)
      have hwidth : 2 ^ kind.width ≤ 2 ^ 32 := by cases kind <;> decide
      rw [Nat.one_shiftLeft] at hn
      refine ⟨n, rfl, hn, ?_⟩
      rw [← h, UInt32.toNat_ofNat', Nat.mod_eq_of_lt (Nat.lt_of_lt_of_le hn hwidth)]
    · exact absurd ((if_neg hn).symm.trans h) (by simp)

/-- The value of a label at an instruction fits the instruction's field. -/
theorem and_mask_of_labelValue (h : i.labelValue kind label target address = .ok value) :
    value &&& kind.mask = value := by
  obtain ⟨n, -, hn, rfl⟩ := labelValue_ok h
  exact OperandKind.and_mask_of_lt hn

/-- A word refers to the address `target` of a label: it is decoded to the instruction, its
immediate is the value of the label there, and its register is the other operand. -/
structure Refers (i : Instruction) (c : Condition) (operands : List Token) (token : Token)
    (address : Nat) (target word : UInt32) : Prop where
  decode : decode word = some ⟨i, i.readAs c, word⟩
  value : ∃ kind label, i.immediateKind? = some kind ∧
    i.labelValue kind label target.toNat address = .ok (Decoded.mk i (i.readAs c) word).imm
  register : ∀ first, operands = [first, token] →
    Reg.parse first.text = .ok ((Decoded.mk i (i.readAs c) word).reg 0)

/-- The number of a device is a whole word if a label gives it, so it is not that of the clock. -/
theorem not_uptime_of_aligned {c : Condition} {word value : UInt32} {address : Nat}
    {target : UInt32} {label : String} (haligned : target.toNat % 4 = 0)
    (hvalue : memSize.labelValue .irq label target.toNat address = .ok value)
    (himm : (Decoded.mk memSize c word).imm = value) : ¬uptime.Fits word := by
  intro hfits
  have hbyte := byte_of_uptime hfits
  have hword : word &&& 0xFF = value := himm
  obtain ⟨n, hscaled, -, hn⟩ := labelValue_ok hvalue
  obtain rfl : target.toNat = n := Option.some.inj hscaled
  rw [← hword, hbyte] at hn
  rw [← hn] at haligned
  exact absurd haligned (by decide)

end Instruction

section Words
variable {i : Instruction} {c : Condition} {name label : String} {operands : List Token}
  {token : Token} {address : Nat} {labels : LabelTable} {words : List UInt32}

/-- In front of an immediate stands a register, the one that its token names. -/
theorem register_of_pair {first : Token} {args : List Arg} {word : UInt32} {k : Nat}
    {kind : OperandKind} (hencodes : i.Encodes c args word)
    (hargs : i.args address labels (i.operands.zip [first, token]) = .ok args)
    (hlength : i.operands.length = 2) (hkind : i.operands[k]? = some kind)
    (himmediate : kind.isRegister = false) (c' : Condition) :
    Reg.parse first.text = .ok ((Decoded.mk i c' word).reg 0) := by
  obtain ⟨kind₀, kind₁, hkinds⟩ := List.length_eq_two.mp hlength
  obtain ⟨hregister, hsrc⟩ := Instruction.isRegister_of_first hkinds
  have hkind₀ : i.operands[0]? = some kind₀ := by rw [hkinds]; rfl
  have hkind₁ : kind₁ = kind := by
    rw [hkinds] at hkind
    rcases k with _ | _ | k
    · obtain rfl : kind₀ = kind := Option.some.inj hkind
      exact absurd (himmediate.symm.trans hregister) (by decide)
    · exact Option.some.inj hkind
    · exact absurd hkind (by simp)
  obtain ⟨a, ha, harg⟩ := Instruction.args_getElem? hargs
    (List.getElem?_zip_eq_some.mpr ⟨hkind₀, List.getElem?_cons_zero⟩)
  obtain ⟨r, rfl⟩ := Instruction.exists_register_of_argumentBits (hencodes.argument hkind₀ ha)
    hregister (hsrc (hkind₁ ▸ himmediate))
  rw [Instruction.reg_of_encodes hencodes hkind₀ ha]
  exact Instruction.parse_of_arg harg

/-- An instruction with a label operand becomes one word, which refers to the label's address. -/
theorem refers_of_words (haligned : labels.Aligned)
    (h : (Mnemonic.native i).words c name operands address labels = .ok words)
    (htoken : token ∈ operands) (hreference : token.reference? = some label) :
    ∃ target word, labels.lookup? label = some target ∧ words = [word] ∧
      i.Refers c operands token address target word := by
  obtain ⟨hlength, args, word, hargs, hword, rfl⟩ := Mnemonic.native_words h
  have hencodes := Instruction.encodes_of_ok hword
  obtain ⟨k, hk⟩ := List.mem_iff_getElem?.mp htoken
  have hlt : k < i.operands.length := by
    have := (List.getElem?_eq_some_iff.mp hk).1
    omega
  obtain ⟨kind, hkind⟩ : ∃ kind, i.operands[k]? = some kind := ⟨_, List.getElem?_eq_getElem hlt⟩
  obtain ⟨a, ha, harg⟩ :=
    Instruction.args_getElem? hargs (List.getElem?_zip_eq_some.mpr ⟨hkind, hk⟩)
  obtain ⟨hregister, target, value, htarget, hvalue, rfl⟩ :=
    Instruction.arg_of_reference harg hreference
  have htakes := Instruction.takes_of_getElem? hkind
  have himm : ∀ c', (Decoded.mk i c' word).imm = value := by
    intro c'
    rw [Instruction.imm_of_encodes hencodes hkind ha c', Instruction.and_mask_of_labelValue hvalue]
  refine ⟨target, word, htarget, rfl, ?_, ?_, ?_⟩
  · refine Instruction.decode_of_encodes hencodes ?_
    rintro rfl
    have hirq : kind = .irq := by
      have := Instruction.immediateKind?_eq htakes hregister
      exact (Option.some.inj this).symm
    rw [hirq] at hvalue
    exact Instruction.not_uptime_of_aligned (haligned _ _ htarget) hvalue (himm c)
  · exact ⟨kind, label, Instruction.immediateKind?_eq htakes hregister, by rw [himm]; exact hvalue⟩
  · rintro first rfl
    exact register_of_pair hencodes hargs hlength.symm hkind hregister _

/-- A word of one of the halves of `LOADWORDI` is decoded to its register and its half. -/
theorem half_of_encode {rd : Arg} {half word : UInt32} (hkinds : i.operands = [.dst, .imm16])
    (hconditional : i.isConditional = true) (h : i.encode c [rd, .immediate half] = .ok word) :
    ∃ r, rd = .operand (.register r) ∧ decode word = some ⟨i, c, word⟩ ∧
      (Decoded.mk i c word).reg 0 = r ∧ (Decoded.mk i c word).imm = half &&& 0xFFFF := by
  have hencodes := Instruction.encodes_of_ok h
  have hkind₀ : i.operands[0]? = some .dst := by rw [hkinds]; rfl
  have hkind₁ : i.operands[1]? = some .imm16 := by rw [hkinds]; rfl
  obtain ⟨r, rfl⟩ := Instruction.exists_register_of_argumentBits (hencodes.argument hkind₀ rfl)
    rfl (by decide)
  have hdecode := Instruction.decode_of_encodes hencodes fun hi => by
    rw [hi] at hkinds
    exact absurd hkinds (by decide)
  have hread : i.readAs c = c := if_pos hconditional
  rw [hread] at hdecode
  exact ⟨r, rfl, hdecode, Instruction.reg_of_encodes hencodes hkind₀ rfl c,
    Instruction.imm_of_encodes hencodes hkind₁ rfl c⟩

/-- The two words load the low half and then the high half of a value into a register. -/
structure Halves (c : Condition) (rd : Reg) (value low high : UInt32) : Prop where
  decode_low : decode low = some ⟨.loadWordILo, c, low⟩
  reg_low : (Decoded.mk .loadWordILo c low).reg 0 = rd
  imm_low : (Decoded.mk .loadWordILo c low).imm = value &&& 0xFFFF
  decode_high : decode high = some ⟨.loadWordIHi, c, high⟩
  reg_high : (Decoded.mk .loadWordIHi c high).reg 0 = rd
  imm_high : (Decoded.mk .loadWordIHi c high).imm = value >>> 16 &&& 0xFFFF

theorem halves_of_encode {rd : Arg} {value low high : UInt32}
    (hlow : Instruction.loadWordILo.encode c [rd, .immediate (value &&& 0xFFFF)] = .ok low)
    (hhigh : Instruction.loadWordIHi.encode c [rd, .immediate (value >>> 16)] = .ok high) :
    ∃ r, rd = .operand (.register r) ∧ Halves c r value low high := by
  obtain ⟨r, rfl, hdecode, hreg, himm⟩ := half_of_encode rfl rfl hlow
  obtain ⟨r', heq, hdecode', hreg', himm'⟩ := half_of_encode rfl rfl hhigh
  obtain rfl : r = r' := by simpa using heq
  rw [UInt32.and_assoc, UInt32.and_self] at himm
  exact ⟨r, rfl, hdecode, hreg, himm, hdecode', hreg', himm'⟩

/-- `LOADWORDI` of a label becomes the halves of the label's address. -/
theorem halves_of_words
    (h : Mnemonic.loadWordI.words c name operands address labels = .ok words)
    (htoken : token ∈ operands) (hreference : token.reference? = some label) :
    ∃ first target r low high, operands = [first, token] ∧ Reg.parse first.text = .ok r ∧
      labels.lookup? label = some target ∧ words = [low, high] ∧ Halves c r target low high := by
  obtain ⟨first, second, rd, value, isLabel, rfl, hrd, hvalue, h⟩ := Mnemonic.loadWordI_words h
  have hsecond : token = second := by
    have hpair : token = first ∨ token = second := by simpa using htoken
    rcases hpair with rfl | hsecond
    · obtain ⟨hregister, -⟩ := Instruction.arg_of_reference hrd hreference
      exact absurd hregister (by decide)
    · exact hsecond
  subst hsecond
  rw [loadWordValue, hreference] at hvalue
  obtain ⟨target, htarget, heq⟩ := map_ok_iff.mp hvalue
  obtain ⟨rfl, rfl⟩ := Prod.mk.inj heq
  rw [loadWordWords, if_neg (by simp)] at h
  obtain ⟨low, hlow, h⟩ := bind_ok_iff.mp h
  obtain ⟨high, hhigh, h⟩ := bind_ok_iff.mp h
  obtain ⟨r, hregister, hhalves⟩ :
      ∃ r, rd = .operand (.register r) ∧ Halves c r target low high :=
    halves_of_encode hlow hhigh
  rw [hregister] at hrd
  exact ⟨first, target, r, low, high, rfl, Instruction.parse_of_arg hrd,
    LabelTable.lookup?_of_resolve (mapError_ok_iff.mp htarget), (Except.ok.inj h).symm, hhalves⟩

end Words
end RegisterMachine
