import Mathlib
import RegisterMachine.Assembly.Emission
import RegisterMachine.Proofs.Assembly.IntegerLiteral
import RegisterMachine.Proofs.Assembly.Scanning
import RegisterMachine.Proofs.Instruction.Canonical

/-! Printed operands are read as what they were printed for.

A register is printed as its name, the constant zero as `0`, and an immediate as hexadecimal
digits in upper case with an `h` behind them, one of the spellings of an integer
(`Literal.parse_hexUpper`). An operand that a word gave back is printed to a text of which the assembler makes the same operand again
(`Instruction.args_of_texts`). -/
namespace RegisterMachine

/-! ### Hexadecimal text -/

theorem toLower_toUpper_of_mem_toDigits {n : Nat} {c : Char} (h : c ∈ Nat.toDigits 16 n) :
    c.toUpper.toLower = c := by
  have hall : ∀ d < 16, (Nat.digitChar d).toUpper.toLower = Nat.digitChar d := by decide
  obtain ⟨d, hd, rfl⟩ := Numeral.mem_toDigits (by decide) h
  exact hall d hd

theorem Text.toList_hexUpper (n : Nat) :
    (Text.hexUpper 0 n).toList = (Nat.toDigits 16 n).map Char.toUpper := by
  rw [Text.hexUpper, String.toList_map, Text.toList_hex, Nat.zero_sub, List.replicate_zero,
    List.nil_append]

/-- In lower case the printed digits are those of the number again. -/
theorem Text.toLower_hexUpper (n : Nat) :
    (Text.hexUpper 0 n ++ "h").toList.map Char.toLower = Nat.toDigits 16 n ++ ['h'] := by
  have hdigits : (Nat.toDigits 16 n).map (Char.toLower ∘ Char.toUpper) = Nat.toDigits 16 n :=
    (List.map_congr_left fun c hc => toLower_toUpper_of_mem_toDigits hc).trans (List.map_id _)
  rw [String.toList_append, List.map_append, Text.toList_hexUpper, List.map_map, hdigits]
  rfl

theorem Text.isAlphanum_of_mem_hexUpper {n : Nat} {c : Char}
    (h : c ∈ (Text.hexUpper 0 n ++ "h").toList) : c.isAlphanum = true := by
  have hall : ∀ d < 16, (Nat.digitChar d).toUpper.isAlphanum = true := by decide
  rw [String.toList_append, Text.toList_hexUpper] at h
  rcases List.mem_append.mp h with h | h
  · obtain ⟨digit, hdigit, rfl⟩ := List.mem_map.mp h
    obtain ⟨d, hd, rfl⟩ := Numeral.mem_toDigits (by decide) hdigit
    exact hall d hd
  · rw [List.mem_singleton.mp h]
    decide

namespace Literal

/-- Printed hexadecimal text is read as the number that it was printed for. -/
theorem parse_hexUpper {n : Nat} (h : n < 2 ^ 32) :
    parse (Text.hexUpper 0 n ++ "h") = .ok (.int n) := by
  have hspelling : (Text.hexUpper 0 n ++ "h").toList.map Char.toLower =
      spelling .hexadecimal 0 n := by
    rw [Text.toLower_hexUpper, spelling, if_neg (by omega)]
    rfl
  obtain ⟨p, hspells, hvalue⟩ := spells_of_spelling hspelling
  refine (parse_of_spells hspells).mpr ⟨congrArg Literal.int hvalue.symm, ?_⟩
  rw [hvalue, InRange]
  omega

theorem parseField_hexUpper {width : Nat} {value : UInt32} (hwidth : width ≤ 32)
    (h : value.toNat < 2 ^ width) :
    parseField width (Text.hexUpper 0 value.toNat ++ "h") = .ok value := by
  have hsize : (value.toNat : Int) < 2 ^ width := by exact_mod_cast h
  have hnonneg : (0 : Int) ≤ value.toNat := Int.natCast_nonneg _
  have hlowest : (0 : Int) ≤ 2 ^ (width - 1) := by positivity
  refine (parseField_ok_iff hwidth).mpr ⟨_, parse_hexUpper value.toNat_lt, by omega, by omega, ?_⟩
  exact (Int.emod_eq_of_lt hnonneg hsize).symm

end Literal

/-! ### Operands -/

theorem Reg.parse_text (r : Reg) : Reg.parse r.text = .ok r := by
  have hall : ∀ r : Reg, (Reg.parse r.text).toOption = some r := by decide +kernel
  exact ok_of_toOption (hall r)

/-- A printed operand is a word of letters and digits. -/
theorem Arg.alphanum_text (a : Arg) : a.text ≠ "" ∧ ∀ c ∈ a.text.toList, c.isAlphanum = true := by
  cases a with
  | operand o =>
    cases o with
    | register r =>
      have hall : ∀ r : Reg, r.text ≠ "" ∧ r.text.toList.all Char.isAlphanum = true := by
        decide +kernel
      exact ⟨(hall r).1, List.all_eq_true.mp (hall r).2⟩
    | zero => exact ⟨by decide, List.all_eq_true.mp (by decide +kernel)⟩
  | immediate value =>
    have hne : Text.hexUpper 0 value.toNat ++ "h" ≠ "" := fun hempty =>
      absurd (String.append_eq_empty_iff.mp hempty).2 (by decide)
    exact ⟨hne, fun c hc => Text.isAlphanum_of_mem_hexUpper hc⟩

/-- An immediate that is cut to its field fits the field. -/
theorem OperandKind.toNat_lt_of_mask {kind : OperandKind} {value : UInt32}
    (h : value &&& kind.mask = value) : value.toNat < 2 ^ kind.width := by
  have hmask : kind.mask.toNat < 2 ^ kind.width := by cases kind <;> decide
  have hand : (value &&& kind.mask).toNat = value.toNat &&& kind.mask.toNat := UInt32.toNat_and ..
  rw [h] at hand
  rw [hand]
  exact Nat.lt_of_le_of_lt Nat.and_le_right hmask

/-- A token of letters and digits has no mark in front. -/
theorem Token.not_startsWith_of_alphanum {token : Token} {mark : Char}
    (hmark : mark.isAlphanum = false) (h : ∀ c ∈ token.text.toList, c.isAlphanum = true) :
    token.startsWith mark = false := by
  cases hhead : token.text.toList.head? with
  | none => simp [Token.startsWith, hhead]
  | some c =>
    have hc := h c (List.mem_of_mem_head? hhead)
    have hne : c ≠ mark := by
      rintro rfl
      rw [hmark] at hc
      cases hc
    simp [Token.startsWith, hhead, hne]

namespace Instruction

variable {i : Instruction} {kind : OperandKind} {a : Arg} {token : Token} {args : List Arg}
  {tokens : List Token} {address : Nat} {labels : LabelTable}

/-- What an operand holds is printed to a text that is read as the same argument. -/
theorem arg_of_text (hholds : kind.Holds a) (hcut : kind.cut a = a)
    (htoken : token.content = (a.text, false)) : i.arg kind token address labels = .ok a := by
  obtain ⟨htext, hquoted⟩ := Prod.mk.inj htoken
  rw [arg, hquoted, if_neg (by decide)]
  cases a with
  | operand o =>
    cases o with
    | register r =>
      have hkind : kind.isRegister = true := hholds
      have hzero : ∀ r : Reg, r.text ≠ "0" := by decide +kernel
      rw [if_pos hkind, htext, Arg.text, Operand.text, if_neg (hzero r), Reg.parse_text]
      rfl
    | zero =>
      obtain rfl : kind = .src := hholds
      exact (if_pos rfl).trans (if_pos htext)
  | immediate value =>
    have hkind : kind.isRegister = false := hholds
    have hmark : token.startsWith '@' = false := by
      apply Token.not_startsWith_of_alphanum (by decide)
      rw [htext]
      exact (Arg.immediate value).alphanum_text.2
    have hfits : value.toNat < 2 ^ kind.width :=
      OperandKind.toNat_lt_of_mask (Arg.immediate.inj hcut)
    have hwidth : kind.width ≤ 32 := by cases kind <;> decide
    rw [if_neg (by simp [hkind]), Token.reference?, hmark, if_neg (by decide), htext, Arg.text,
      Literal.parseField_hexUpper hwidth hfits]
    rfl

/-- Printed operands are read as the arguments that they were printed for. -/
theorem args_of_texts {kinds : List OperandKind} (hlength : kinds.length = args.length)
    (h : ∀ o ∈ kinds.zip args, o.1.Holds o.2 ∧ o.1.cut o.2 = o.2)
    (htokens : tokens.map Token.content = args.map fun a => (a.text, false)) :
    i.args address labels (kinds.zip tokens) = .ok args := by
  induction kinds generalizing args tokens with
  | nil =>
    obtain rfl := List.eq_nil_of_length_eq_zero hlength.symm
    rfl
  | cons kind kinds ih =>
    cases args with
    | nil => cases hlength
    | cons a args =>
      obtain ⟨token, tokens, rfl, htoken, htokens⟩ := List.map_eq_cons_iff.mp htokens
      obtain ⟨hholds, hcut⟩ := h (kind, a) List.mem_cons_self
      have hrest := ih (Nat.succ.inj hlength) (fun o ho => h o (List.mem_cons_of_mem _ ho)) htokens
      rw [List.zip_cons_cons, Instruction.args, bind_ok_iff]
      exact ⟨a, arg_of_text hholds hcut htoken, bind_ok_iff.mpr ⟨args, hrest, rfl⟩⟩

end Instruction

end RegisterMachine
