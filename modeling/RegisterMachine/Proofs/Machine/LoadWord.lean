import RegisterMachine.Proofs.Machine.LabelUse

/-! `LOADWORDI` with a literal.

No instruction has room for a whole word, so a value that does not fit into sixteen bits is loaded
in two halves, each by an instruction that keeps the other half. What comes of the statement is the
same in either form (`loads_whole_value`): the value is in the register, whatever was there, or
nothing has happened if the condition is not met, and the program counter is behind the words. -/
namespace RegisterMachine

/-! ### Literals -/

/-- No number begins with the mark of a label. -/
theorem Numeral.natural?_mark (radix : Nat) (rest : List Char) :
    natural? radix ('@' :: rest) = none := by
  have hdigit : digit? radix '@' = none := rfl
  rw [natural?, if_neg (by simp), digits?, hdigit]
  rfl

theorem Literal.long?_mark (radix : Nat) (rest : List Char) :
    long? radix ('@' :: rest) = none := by
  have hinteger : Numeral.integer? radix ('@' :: rest) = none :=
    congrArg (Option.map fun n : Nat => (n : Int)) (Numeral.natural?_mark radix rest)
  rw [long?, hinteger]
  rfl

theorem Decimal.parse?_mark (rest : List Char) : parse? ('@' :: rest) = none := by
  have hdigit : Char.isDigit '@' = false := by decide
  show unsigned? false ('@' :: rest) = none
  unfold unsigned?
  simp [hdigit, Numeral.natural?]

theorem Literal.magnitude?_mark (rest : List Char) : magnitude? ('@' :: rest) = none := by
  have hpart : ∀ radix, long? radix (('@' :: rest).dropLast) = none := by
    intro radix
    cases rest with
    | nil => rfl
    | cons c rest => exact long?_mark radix _
  unfold magnitude?
  split
  · exact hpart 16
  · exact hpart 2
  · split
    · rw [Decimal.parse?_mark]
      rfl
    · exact long?_mark 10 rest

/-- A literal is no label. -/
theorem Literal.reference?_of_parse {token : Token} {literal : Literal}
    (h : parse token.text = .ok literal) : token.reference? = none := by
  by_contra hreference
  obtain ⟨label, hlabel⟩ := Option.ne_none_iff_exists'.mp hreference
  obtain ⟨-, rest, htext⟩ := Token.of_reference? hlabel
  have hlower : token.text.toList.map Char.toLower = '@' :: rest.map Char.toLower := by
    rw [htext]
    rfl
  have hsplit : splitMinus ('@' :: rest.map Char.toLower) =
      (false, '@' :: rest.map Char.toLower) := rfl
  have hmarked : isMarkedInFront ('@' :: rest.map Char.toLower) = false := rfl
  have hnone : parse token.text = .error (.invalidLiteral token.text) := by
    rw [parse, hlower, hsplit]
    simp only [hmarked, magnitude?_mark, Bool.false_eq_true, if_false]
  exact absurd (hnone.symm.trans h) (by simp)

/-! ### The words -/

section Words
variable {c : Condition} {name : String} {first token : Token} {address : Nat}
  {labels : LabelTable} {rd : Reg} {literal : Literal} {value : UInt32} {words : List UInt32}

/-- These words load a value into a register, at once or in halves. -/
inductive LoadsValue (c : Condition) (rd : Reg) (value : UInt32) : List UInt32 → Prop
  | whole {word : UInt32} (fits : value ≤ 0xFFFF)
      (decode_word : decode word = some ⟨.loadHwordI, c, word⟩)
      (reg_word : (Decoded.mk .loadHwordI c word).reg 0 = rd)
      (imm_word : (Decoded.mk .loadHwordI c word).imm = value) : LoadsValue c rd value [word]
  | halves {low high : UInt32} (large : ¬value ≤ 0xFFFF) (parts : Halves c rd value low high) :
      LoadsValue c rd value [low, high]

theorem LoadsValue.length (h : LoadsValue c rd value words) :
    words.length = if value ≤ 0xFFFF then 1 else 2 := by
  cases h with
  | whole fits => rw [if_pos fits]; rfl
  | halves large => rw [if_neg large]; rfl

/-- An instruction with a register and half a word always has a word. -/
theorem Instruction.encode_half {i : Instruction} (hkinds : i.operands = [.dst, .imm16])
    (c : Condition) (rd : Reg) (half : UInt32) :
    ∃ word, i.encode c [.operand (.register rd), .immediate half] = .ok word := by
  rw [encode, hkinds]
  exact ⟨_, rfl⟩

theorem loads_of_value (c : Condition) (rd : Reg) (value : UInt32) :
    ∃ words, loadWordWords c (.operand (.register rd)) value false = .ok words ∧
      LoadsValue c rd value words := by
  by_cases hfits : value ≤ 0xFFFF
  · obtain ⟨word, hword⟩ := Instruction.encode_half (i := .loadHwordI) rfl c rd value
    obtain ⟨r, hr, hdecode, hreg, himm⟩ := half_of_encode rfl rfl hword
    obtain rfl : rd = r := by simpa using hr
    have hlt : value.toNat < 2 ^ OperandKind.imm16.width := Nat.lt_succ_of_le hfits
    have hvalue : value &&& 0xFFFF = value := OperandKind.and_mask_of_lt hlt
    refine ⟨[word], ?_, .whole hfits hdecode hreg (himm.trans hvalue)⟩
    rw [loadWordWords, if_pos (by simpa using hfits), hword]
    rfl
  · obtain ⟨low, hlow⟩ := Instruction.encode_half (i := .loadWordILo) rfl c rd (value &&& 0xFFFF)
    obtain ⟨high, hhigh⟩ := Instruction.encode_half (i := .loadWordIHi) rfl c rd (value >>> 16)
    obtain ⟨r, hr, hhalves⟩ := halves_of_encode hlow hhigh
    obtain rfl : rd = r := by simpa using hr
    refine ⟨[low, high], ?_, .halves hfits hhalves⟩
    rw [loadWordWords, if_neg (by simpa using hfits), hlow, hhigh]
    rfl

/-- A `LOADWORDI` of a literal always has its words. -/
theorem loads_of_literal (c : Condition) (name : String) (address : Nat) (labels : LabelTable)
    (hquoted : first.quoted = false) (hrd : Reg.parse first.text = .ok rd)
    (hliteral : Literal.parse token.text = .ok literal) :
    ∃ words, Mnemonic.loadWordI.words c name [first, token] address labels = .ok words ∧
      LoadsValue c rd literal.bits words := by
  obtain ⟨words, hwords, hloads⟩ := loads_of_value c rd literal.bits
  refine ⟨words, ?_, hloads⟩
  have hvalue : loadWordValue token labels = .ok (literal.bits, false) := by
    rw [loadWordValue, Literal.reference?_of_parse hliteral, hliteral]
    rfl
  rw [Mnemonic.words, Instruction.arg_of_parse rfl hquoted hrd, hvalue]
  exact mapError_ok_iff.mpr hwords

/-- The first pass counts as many words. -/
theorem wordCount_of_literal (hliteral : Literal.parse token.text = .ok literal) :
    Mnemonic.loadWordI.wordCount [first, token] =
      .ok (if literal.bits ≤ 0xFFFF then 1 else 2) := by
  have hmark : ¬token.startsWith '@' = true := by
    intro hmark
    exact absurd ((if_pos hmark).symm.trans (Literal.reference?_of_parse hliteral)) (by simp)
  rw [Mnemonic.wordCount, if_neg hmark, hliteral]
  rfl

end Words

/-! ### Their steps -/

namespace Machine

variable {m : Machine} {c : Condition} {rd : Reg} {value : UInt32} {words : List UInt32}

/-- So many steps come to this machine, and it goes on. -/
def RunsFor : Nat → Machine → Machine → Prop
  | 0, m, m' => m' = m
  | n + 1, m, m' => ∃ next, m.Runs next ∧ RunsFor n next m'

/-- Words that load a value load it, in as many steps. -/
theorem runsFor_of_loads (h : m.Ready) (hloads : LoadsValue c rd value words)
    (hstands : m.Stands words) :
    RunsFor words.length m
      (m.modifyContext (loadedIf c rd value (4 * UInt32.ofNat words.length))) := by
  cases hloads with
  | @whole word fits hdecode hreg himm =>
    have hplan : m.advance.plan ⟨.loadHwordI, c, word⟩ =
        .ok (.context (m.advance.context.assign rd value)) := by
      rw [← hreg, ← himm]
      rfl
    exact ⟨_, runs_of_assign h (hstands.fetch h.sound) hdecode hplan, rfl⟩
  | halves large hparts =>
    obtain ⟨next, hfirst, hsecond⟩ := runs_of_halves h hparts hstands
    exact ⟨next, hfirst, _, hsecond, rfl⟩

/-- **`LOADWORDI` loads its whole value.** Of a register and a literal it always has words, one if
the bits of the literal fit into half a word and two otherwise, as many as the first pass counted.
A machine that comes to them has executed them after as many undisturbed steps: its active context
is behind them and has the bits in the register if the condition is met, and nothing else has
changed. -/
theorem loads_whole_value {first token : Token} {literal : Literal} (c : Condition) (name : String)
    (address : Nat) (labels : LabelTable) (hquoted : first.quoted = false)
    (hrd : Reg.parse first.text = .ok rd) (hliteral : Literal.parse token.text = .ok literal) :
    ∃ words, Mnemonic.loadWordI.words c name [first, token] address labels = .ok words ∧
      Mnemonic.loadWordI.wordCount [first, token] = .ok words.length ∧
      words.length = (if literal.bits ≤ 0xFFFF then 1 else 2) ∧
      ∀ m : Machine, m.Reachable → m.halted = false → m.control.needsAttention = false →
        m.Stands words →
        RunsFor words.length m (m.modifyContext fun x =>
          { (if c.holds x.flag then x.assign rd literal.bits else x) with
            pc := x.pc + 4 * UInt32.ofNat words.length }) := by
  obtain ⟨words, hwords, hloads⟩ := loads_of_literal c name address labels hquoted hrd hliteral
  refine ⟨words, hwords, ?_, hloads.length, ?_⟩
  · rw [hloads.length]
    exact wordCount_of_literal hliteral
  · intro m hreach hrunning hquiet hstands
    exact runsFor_of_loads ⟨hreach.sound, hrunning, hquiet⟩ hloads hstands

/-- The smallest machine, with a program that loads a negative number. -/
def loadingNegative : Machine :=
  (blank ⟨512, 1, false, false, 0⟩).act (.loadSource "loadwordi r1, -2;")

theorem loads_whole_value_negative :
    RunsFor 2 loadingNegative (loadingNegative.modifyContext fun x =>
      { x.assign 0 0xFFFFFFFE with pc := x.pc + 8 }) := by
  have hcreate : Machine.create ⟨512, 1, false, false, 0⟩ =
      .ok (blank ⟨512, 1, false, false, 0⟩, []) := rfl
  have hreach : loadingNegative.Reachable :=
    .act (.create hcreate) (.loadSource "loadwordi r1, -2;") trivial
  let first : Token := ⟨"r1", ⟨1, 11⟩, false⟩
  let token : Token := ⟨"-2", ⟨1, 15⟩, false⟩
  have hquoted : first.quoted = false := rfl
  have hr1 : Reg.parse "r1" = .ok 0 := rfl
  have hrd : Reg.parse first.text = .ok 0 := hr1
  have hliteral : Literal.parse token.text = .ok (.int (-2)) := by decide +kernel
  obtain ⟨words, hwords, -, -, hloads⟩ :=
    loads_whole_value .always "loadwordi" 96 .empty hquoted hrd hliteral
  have hemitted : (Mnemonic.loadWordI.words .always "loadwordi" [first, token] 96 .empty).toOption =
      some [0x0206FFFE, 0x0207FFFF] := by decide +kernel
  obtain rfl : words = [0x0206FFFE, 0x0207FFFF] := by
    rw [hwords] at hemitted
    exact Option.some.inj hemitted
  have hstate : loadingNegative.halted = false ∧ loadingNegative.control.needsAttention = false ∧
      loadingNegative.context.pc = 96 ∧ 96 + 8 ≤ loadingNegative.memory.size ∧
      loadingNegative.memory.slice 96 8 = [0xFE, 0xFF, 6, 2, 0xFF, 0xFF, 7, 2] ∧
      Condition.always.holds loadingNegative.context.flag = true := by decide +kernel
  obtain ⟨hrunning, hquiet, hpc, hinside, hloaded, hholds⟩ := hstate
  have hstands : loadingNegative.Stands [0x0206FFFE, 0x0207FFFF] := by
    constructor <;> rw [hpc]
    · decide
    · rfl
    · exact hinside
    · exact hloaded
  have hruns := hloads loadingNegative hreach hrunning hquiet hstands
  have hsame : loadingNegative.modifyContext (loadedIf .always 0 0xFFFFFFFE 8) =
      loadingNegative.modifyContext fun x => { x.assign 0 0xFFFFFFFE with pc := x.pc + 8 } :=
    modifyContext_congr (by rw [loadedIf, if_pos hholds])
  exact hsame ▸ hruns

end Machine
end RegisterMachine
