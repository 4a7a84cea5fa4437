import RegisterMachine.Proofs.Assembly.IntegerLiteral

/-! Which tokens are operands.

An integer is meant to have at most a minus sign in front of its digits, and a register one digit
behind its letter (`WellSpelled`). The readers leave the digits to the reader of numbers, which
takes a sign of its own and any zeros in front. So an integer may have a second sign, and a register
a plus sign and zeros in front of its number; apart from these, only what is meant is read
(`operand_tokens`). -/
namespace RegisterMachine

open Numeral

/-! ### Integers -/

namespace Literal

variable {token : String} {n : Int} {p : Parts}

/-- The token is the integer in digits of a radix and the mark of the radix, with a minus sign in
front of them or no sign at all. -/
def WellSpelled (n : Int) (token : String) : Prop :=
  ∃ p : Parts, p.second = .none ∧ p.Spells token ∧ p.value = n

/-- There is a sign that is no minus sign in front. -/
def HasOtherSign (token : String) : Prop := '+' ∈ token.toList ∨ '-' ∈ token.toList.tail

instance (token : String) : Decidable (HasOtherSign token) :=
  inferInstanceAs (Decidable (_ ∨ _))

namespace Parts

theorem mem_body_iff (p : Parts) {c : Char} (hc : c = '+' ∨ c = '-') :
    c ∈ p.body ↔ c ∈ p.second.text := by
  have hdigit : ∀ d < 16, Nat.digitChar d ≠ '+' ∧ Nat.digitChar d ≠ '-' := by decide
  have hmark : ∀ c', c' = 'h' ∨ c' = 'b' → c' ≠ '+' ∧ c' ≠ '-' := by
    rintro c' (rfl | rfl) <;> decide
  refine ⟨fun h => ?_, fun h => List.mem_append_left _ (List.mem_append_left _ h)⟩
  have hnot : ∀ {c' : Char}, c' ≠ '+' ∧ c' ≠ '-' → c' ≠ c := by
    rintro c' ⟨hplus, hminus⟩ rfl
    exact hc.elim hplus hminus
  rcases List.mem_append.mp h with h | h
  · refine (List.mem_append.mp h).resolve_right fun h => ?_
    obtain ⟨d, hd, heq⟩ := mem_text_iff.mp h
    exact hnot (hdigit d (Nat.lt_of_lt_of_le (p.proper.small d hd) p.radix.base_le)) heq
  · exact absurd rfl (hnot (hmark c (Radix.mem_mark h)))

/-- The signs of a token are its first one and the second one in its body. -/
theorem hasOtherSign_iff (h : p.Spells token) : HasOtherSign token ↔ p.second ≠ .none := by
  have hother : HasOtherSign token ↔ '+' ∈ p.text ∨ '-' ∈ p.text.tail := by
    rw [HasOtherSign, ← h, ← List.map_tail, mem_map_toLower_iff (by decide),
      mem_map_toLower_iff (by decide)]
  have hplus : '+' ∈ p.text ↔ '+' ∈ p.second.text := by
    rw [← p.mem_body_iff (.inl rfl), text]
    cases p.negative with
    | true => simp
    | false => rfl
  have htail : ∀ c ∈ p.text.tail, c ∈ p.body := by
    rw [text]
    cases p.negative with
    | true => exact fun c hc => hc
    | false => exact fun c hc => List.mem_of_mem_tail hc
  rw [hother, hplus]
  cases hsecond : p.second with
  | none =>
    refine ⟨?_, fun h => absurd rfl h⟩
    rintro (h | h)
    · cases h
    · have hminus := (p.mem_body_iff (.inr rfl)).mp (htail '-' h)
      rw [hsecond] at hminus
      cases hminus
  | plus => exact ⟨fun _ => by decide, fun _ => .inl List.mem_cons_self⟩
  | minus =>
    refine ⟨fun _ => by decide, fun _ => .inr ?_⟩
    rw [text, p.first hsecond, if_pos rfl, List.tail_cons, p.mem_body_iff (.inr rfl), hsecond]
    exact List.mem_cons_self

end Parts

theorem not_hasOtherSign_of_wellSpelled (h : WellSpelled n token) : ¬HasOtherSign token := by
  obtain ⟨p, hsecond, hspells, -⟩ := h
  rw [Parts.hasOtherSign_iff hspells]
  exact fun hother => hother hsecond

theorem wellSpelled_iff (h : parse token = .ok (.int n)) :
    WellSpelled n token ↔ ¬HasOtherSign token := by
  refine ⟨not_hasOtherSign_of_wellSpelled, fun hother => ?_⟩
  obtain ⟨-, p, hspells, hvalue⟩ := parse_int_iff.mp h
  rw [Parts.hasOtherSign_iff hspells, not_not] at hother
  exact ⟨p, hother, hspells, hvalue⟩

end Literal

/-! ### Registers -/

namespace Reg

variable {token : String} {r : Reg}

/-- The token is an `r` in either case, a plus sign or none, zeros and the number of the
register. -/
def Spells (r : Reg) (plus : Bool) (zeros : Nat) (token : String) : Prop :=
  ∃ mark, (mark = 'r' ∨ mark = 'R') ∧ token.toList =
    mark :: ((if plus then ['+'] else []) ++ (List.replicate zeros '0' ++ [r.number.digitChar]))

/-- The token is an `r` in either case and the number of the register. -/
def WellSpelled (r : Reg) (token : String) : Prop := r.Spells false 0 token

theorem ofNumber?_eq_some_iff {n : Nat} : ofNumber? n = some r ↔ n = r.number := by
  constructor
  · intro h
    unfold ofNumber? at h
    split at h
    · rw [← Option.some.inj h, number]
      dsimp only
      omega
    · cases h
  · rintro rfl
    exact ofNumber?_number r

theorem parse_of_mark {mark : Char} {digits : List Char} (hmark : mark = 'r' ∨ mark = 'R')
    (htext : token.toList = mark :: digits) :
    parse token = .ok r ↔ below? 256 digits = some r.number := by
  have hnumber : (below? 256 digits).bind ofNumber? = some r ↔
      below? 256 digits = some r.number := by
    simp [Option.bind_eq_some_iff, ofNumber?_eq_some_iff]
  rw [← hnumber]
  cases hread : (below? 256 digits).bind ofNumber? <;>
    rcases hmark with rfl | rfl <;> simp [parse, htext, hread]

theorem parse_ok_iff : parse token = .ok r ↔
    ∃ mark digits, (mark = 'r' ∨ mark = 'R') ∧ token.toList = mark :: digits ∧
      below? 256 digits = some r.number := by
  constructor
  · intro hparse
    have h := hparse
    unfold parse at h
    split at h
    · rename_i digits htext
      exact ⟨'r', digits, .inl rfl, htext, (parse_of_mark (.inl rfl) htext).mp hparse⟩
    · rename_i digits htext
      exact ⟨'R', digits, .inr rfl, htext, (parse_of_mark (.inr rfl) htext).mp hparse⟩
    · cases h
  · rintro ⟨mark, digits, hmark, htext, h⟩
    exact (parse_of_mark hmark htext).mpr h

theorem parse_iff : parse token = .ok r ↔ ∃ plus zeros, r.Spells plus zeros token := by
  have hnumber : r.number < 10 := by
    have hlt := r.isLt
    rw [number]
    omega
  rw [parse_ok_iff]
  constructor
  · rintro ⟨mark, digits, hmark, htext, hbelow⟩
    obtain ⟨-, plus, ds, hds, rfl, hvalue⟩ := below?_eq_some_iff.mp hbelow
    obtain ⟨zeros, hzeros⟩ := (text_digit_iff hnumber).mp ⟨ds, hds, rfl, hvalue⟩
    exact ⟨plus, zeros, mark, hmark, hzeros ▸ htext⟩
  · rintro ⟨plus, zeros, mark, hmark, htext⟩
    obtain ⟨ds, hds, hzeros, hvalue⟩ := (text_digit_iff hnumber).mpr ⟨zeros, rfl⟩
    rw [hzeros] at htext
    refine ⟨mark, _, hmark, htext, below?_eq_some_iff.mpr ⟨by omega, plus, ds, hds, rfl, hvalue⟩⟩

theorem length_of_spells {plus : Bool} {zeros : Nat} (h : r.Spells plus zeros token) :
    token.length = 2 + zeros + if plus then 1 else 0 := by
  obtain ⟨mark, -, htext⟩ := h
  rw [← String.length_toList, htext]
  cases plus <;> simp <;> omega

theorem wellSpelled_iff (h : parse token = .ok r) : r.WellSpelled token ↔ token.length = 2 := by
  refine ⟨length_of_spells, fun hlength => ?_⟩
  obtain ⟨plus, zeros, hspells⟩ := parse_iff.mp h
  rw [length_of_spells hspells] at hlength
  cases plus with
  | true => exact absurd hlength (by simp; omega)
  | false =>
    obtain rfl : zeros = 0 := by simpa using hlength
    exact hspells

end Reg

/-- **Which tokens are operands.** A token is read as an integer exactly if its parts are those of
an integer that fits in a word, and as a register exactly if it is an `r`, a plus sign or none, zeros
and the number of the register. So it is what is meant if it has no sign but a minus sign in front,
or if it is a register of two characters, and only then. -/
theorem operand_tokens (token : String) :
    (∀ n, Literal.parse token = .ok (.int n) ↔
      Literal.InRange n ∧ ∃ p : Literal.Parts, p.Spells token ∧ p.value = n) ∧
    (∀ n, Literal.parse token = .ok (.int n) →
      (Literal.WellSpelled n token ↔ ¬Literal.HasOtherSign token)) ∧
    (∀ r, Reg.parse token = .ok r ↔ ∃ plus zeros, r.Spells plus zeros token) ∧
    (∀ r, Reg.parse token = .ok r → (r.WellSpelled token ↔ token.length = 2)) :=
  ⟨fun _ => Literal.parse_int_iff, fun _ => Literal.wellSpelled_iff, fun _ => Reg.parse_iff,
    fun _ => Reg.wellSpelled_iff⟩

/-- A second minus sign takes the first one back, and a plus sign is read over. -/
theorem second_signs_read :
    Literal.parse "--5" = .ok (.int 5) ∧ ¬Literal.WellSpelled 5 "--5" ∧
      Reg.parse "r+3" = .ok 2 ∧ ¬Reg.WellSpelled 2 "r+3" := by
  have hliteral : Literal.parse "--5" = .ok (.int 5) := ok_of_toOption (by decide +kernel)
  have hregister : Reg.parse "r+3" = .ok 2 := ok_of_toOption (by decide +kernel)
  refine ⟨hliteral, ?_, hregister, ?_⟩
  · exact fun h => Literal.not_hasOtherSign_of_wellSpelled h (by decide +kernel)
  · exact fun h => absurd (Reg.length_of_spells h) (by decide +kernel)

end RegisterMachine
