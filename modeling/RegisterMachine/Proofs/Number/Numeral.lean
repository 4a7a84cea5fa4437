import RegisterMachine.Number.Numeral
import RegisterMachine.Proofs.Text.LetterCase

/-! Digits as text, and the number that they stand for.

Digits are a list with the least significant one first, as in `Nat.ofDigits`; their text has the
most significant one in front (`text`). A text is read as a number exactly if it is the text of at
least one digit, in letters of either case, and then as the number that the digits stand for
(`natural?_eq_some_iff`). An integer may have one sign in front (`integer?_eq_some_iff`). -/
namespace RegisterMachine.Numeral

variable {radix : Nat} {digits : List Nat} {c : Char} {d n : Nat}

/-! ### Characters -/

theorem digit?_of_le (hradix : radix ≤ 16) (c : Char) :
    digit? radix c = (digit? 16 c).filter (· < radix) := by
  unfold digit?
  dsimp only
  rw [Option.filter_filter]
  congr 1
  funext n
  rw [Bool.eq_iff_iff, Bool.and_eq_true, decide_eq_true_eq, decide_eq_true_eq]
  omega

/-- A character beyond ASCII is no digit, and has no lower case. -/
theorem digit?_of_large (h : 128 ≤ c.toNat) : digit? 16 c = none ∧ c.toLower = c := by
  have hchar : c.toNat = c.val.toNat := rfl
  have hz : 'z'.val.toNat = 122 ∧ 'Z'.val.toNat = 90 ∧ '9'.val.toNat = 57 := by decide
  have habove : ∀ mark : Char, mark.val.toNat < 128 → ¬c ≤ mark := by
    intro mark hmark hle
    have hle : c.val.toNat ≤ mark.val.toNat := hle
    omega
  constructor
  · unfold digit?
    dsimp only
    rw [if_neg fun h => habove '9' (by decide) h.2, if_neg fun h => habove 'z' (by decide) h.2,
      if_neg fun h => habove 'Z' (by decide) h.2]
    rfl
  · apply Char.toLower_eq_of_not_isUpper
    intro hupper
    simp only [Char.isUpper, decide_eq_true_eq, UInt32.le_iff_toNat_le] at hupper
    omega

/-- A hexadecimal digit is written as one character, in either case of it. -/
theorem digit?_sixteen_iff : digit? 16 c = some d ↔ d < 16 ∧ c.toLower = d.digitChar := by
  have hall : ∀ n < 128, ∀ d < 16,
      (digit? 16 (Char.ofNat n) = some d ↔ (Char.ofNat n).toLower = d.digitChar) := by
    decide +kernel
  have hmarks : ∀ d < 16, d.digitChar.toNat < 128 := by decide
  by_cases hsmall : c.toNat < 128
  · have hiff := hall c.toNat hsmall
    rw [Char.ofNat_toNat] at hiff
    exact ⟨fun h => ⟨digit?_lt h, (hiff d (digit?_lt h)).mp h⟩, fun h => (hiff d h.1).mpr h.2⟩
  · obtain ⟨hnone, hlower⟩ := digit?_of_large (Nat.not_lt.mp hsmall)
    rw [hnone, hlower]
    refine ⟨nofun, fun ⟨hd, hc⟩ => ?_⟩
    have hmark := hmarks d hd
    rw [← hc] at hmark
    exact absurd hmark hsmall

theorem digit?_eq_some_iff (hradix : radix ≤ 16) :
    digit? radix c = some d ↔ d < radix ∧ c.toLower = d.digitChar := by
  rw [digit?_of_le hradix, Option.filter_eq_some_iff, digit?_sixteen_iff, decide_eq_true_eq]
  constructor
  · rintro ⟨⟨-, hc⟩, hd⟩
    exact ⟨hd, hc⟩
  · rintro ⟨hd, hc⟩
    exact ⟨⟨Nat.lt_of_lt_of_le hd hradix, hc⟩, hd⟩

/-- The case of a character does not matter. -/
theorem digit?_toLower (hradix : radix ≤ 16) (c : Char) :
    digit? radix c.toLower = digit? radix c := by
  apply Option.ext
  intro d
  rw [digit?_eq_some_iff hradix, digit?_eq_some_iff hradix, Char.toLower_toLower_eq_toLower]

/-! ### Digits -/

/-- At least one digit of the radix. -/
structure AreDigits (radix : Nat) (digits : List Nat) : Prop where
  nonempty : digits ≠ []
  small : ∀ d ∈ digits, d < radix

/-- The text of digits in lower case: the most significant one, which is the last, in front. -/
def text (digits : List Nat) : List Char := (digits.map Nat.digitChar).reverse

theorem text_cons (d : Nat) (digits : List Nat) :
    text (d :: digits) = text digits ++ [d.digitChar] :=
  List.reverse_cons

theorem text_concat (digits : List Nat) (d : Nat) :
    text (digits ++ [d]) = d.digitChar :: text digits := by
  rw [text, List.map_append, List.reverse_append]
  rfl

theorem text_eq_nil_iff : text digits = [] ↔ digits = [] := by
  rw [text, List.reverse_eq_nil_iff, List.map_eq_nil_iff]

theorem mem_text_iff : c ∈ text digits ↔ ∃ d ∈ digits, d.digitChar = c := by
  rw [text, List.mem_reverse, List.mem_map]

/-- The text of digits has no upper case. -/
theorem AreDigits.map_toLower_text (h : AreDigits radix digits) (hradix : radix ≤ 16) :
    (text digits).map Char.toLower = text digits := by
  have hall : ∀ d < 16, (Nat.digitChar d).toLower = d.digitChar := by decide
  refine (List.map_congr_left fun c hc => ?_).trans (List.map_id _)
  obtain ⟨d, hd, rfl⟩ := mem_text_iff.mp hc
  exact hall d (Nat.lt_of_lt_of_le (h.small d hd) hradix)

/-- Reading from the left is adding up from the right. -/
theorem digits?_eq_some_iff (hradix : radix ≤ 16) {high : Nat} {cs : List Char} :
    digits? radix high cs = some n ↔ ∃ digits, (∀ d ∈ digits, d < radix) ∧
      cs.map Char.toLower = text digits ∧
      n = Nat.ofDigits radix digits + radix ^ digits.length * high := by
  induction cs generalizing high with
  | nil =>
    constructor
    · intro h
      refine ⟨[], nofun, rfl, ?_⟩
      rw [Nat.ofDigits_nil, List.length_nil, pow_zero, Nat.one_mul, Nat.zero_add]
      exact (Option.some.inj h).symm
    · rintro ⟨digits, -, htext, rfl⟩
      obtain rfl := text_eq_nil_iff.mp htext.symm
      rw [Nat.ofDigits_nil, List.length_nil, pow_zero, Nat.one_mul, Nat.zero_add]
      rfl
  | cons c rest ih =>
    have hvalue : ∀ digits d, Nat.ofDigits radix (digits ++ [d]) +
        radix ^ (digits ++ [d]).length * high =
          Nat.ofDigits radix digits + radix ^ digits.length * (radix * high + d) := by
      intro digits d
      rw [Nat.ofDigits_append, Nat.ofDigits_singleton, List.length_append, List.length_singleton,
        pow_succ]
      ring
    rw [digits?, Option.bind_eq_some_iff]
    constructor
    · rintro ⟨d, hd, hrest⟩
      obtain ⟨hsmall, hc⟩ := (digit?_eq_some_iff hradix).mp hd
      obtain ⟨digits, hdigits, htext, rfl⟩ := ih.mp hrest
      refine ⟨digits ++ [d], ?_, ?_, (hvalue digits d).symm⟩
      · intro x hx
        rcases List.mem_append.mp hx with hx | hx
        · exact hdigits x hx
        · exact List.mem_singleton.mp hx ▸ hsmall
      · rw [List.map_cons, hc, htext, text_concat]
    · rintro ⟨digits, hdigits, htext, rfl⟩
      obtain rfl | ⟨front, d, rfl⟩ := List.eq_nil_or_concat' digits
      · cases htext
      · rw [text_concat, List.map_cons] at htext
        obtain ⟨hc, htext⟩ := List.cons.inj htext
        have hd := hdigits d (List.mem_append_right _ List.mem_cons_self)
        refine ⟨d, (digit?_eq_some_iff hradix).mpr ⟨hd, hc⟩, ih.mpr ⟨front, ?_, htext, ?_⟩⟩
        · exact fun x hx => hdigits x (List.mem_append_left _ hx)
        · exact hvalue front d

theorem natural?_eq_some_iff (hradix : radix ≤ 16) {cs : List Char} :
    natural? radix cs = some n ↔ ∃ digits, AreDigits radix digits ∧
      cs.map Char.toLower = text digits ∧ n = Nat.ofDigits radix digits := by
  rw [natural?]
  split
  · rename_i hempty
    rw [List.isEmpty_iff.mp hempty]
    refine ⟨nofun, ?_⟩
    rintro ⟨digits, hdigits, htext, -⟩
    exact absurd (text_eq_nil_iff.mp htext.symm) hdigits.nonempty
  · rename_i hnonempty
    rw [digits?_eq_some_iff hradix]
    constructor
    · rintro ⟨digits, hsmall, htext, hn⟩
      refine ⟨digits, ⟨?_, hsmall⟩, htext, hn⟩
      rintro rfl
      exact hnonempty (List.isEmpty_iff.mpr (List.map_eq_nil_iff.mp htext))
    · rintro ⟨digits, hdigits, htext, hn⟩
      exact ⟨digits, hdigits.small, htext, hn⟩

/-! ### Signs -/

inductive Sign where
  | none
  | plus
  | minus
  deriving DecidableEq

namespace Sign

def text : Sign → List Char
  | none => []
  | plus => ['+']
  | minus => ['-']

/-- The integer with this sign in front of its absolute value. -/
def apply : Sign → Nat → Int
  | none, n | plus, n => n
  | minus, n => -n

end Sign

theorem Sign.mem_text {sign : Sign} (h : c ∈ sign.text) : c = '+' ∨ c = '-' := by
  cases sign with
  | none => cases h
  | plus => exact .inl (List.mem_singleton.mp h)
  | minus => exact .inr (List.mem_singleton.mp h)

/-- A sign has no case. -/
theorem Sign.lower_eq_iff (sign : Sign) {cs : List Char} :
    cs.map Char.toLower = sign.text ↔ cs = sign.text := by
  refine map_toLower_eq_iff fun c hc => ?_
  rcases Sign.mem_text hc with rfl | rfl <;> decide

/-- No sign stands in front. -/
def Unsigned (cs : List Char) : Prop := ∀ c ∈ cs.head?, c ≠ '-' ∧ c ≠ '+'

/-- No digit is a sign. -/
theorem AreDigits.unsigned (h : AreDigits radix digits) (hradix : radix ≤ 16) {cs : List Char}
    (htext : cs.map Char.toLower = text digits) : Unsigned cs := by
  have hall : ∀ d < 16, Nat.digitChar d ≠ '-' ∧ Nat.digitChar d ≠ '+' := by decide
  intro c hc
  have hmem : c.toLower ∈ text digits := htext ▸ List.mem_map_of_mem (List.mem_of_mem_head? hc)
  obtain ⟨d, hd, hdigit⟩ := mem_text_iff.mp hmem
  obtain ⟨hminus, hplus⟩ := hall d (Nat.lt_of_lt_of_le (h.small d hd) hradix)
  rw [hdigit] at hminus hplus
  exact ⟨mt (toLower_eq_iff _ (by decide)).mpr hminus, mt (toLower_eq_iff _ (by decide)).mpr hplus⟩

/-- At most one sign is taken off the front. -/
theorem exists_sign (cs : List Char) :
    ∃ sign rest, cs = Sign.text sign ++ rest ∧ (sign = .none → Unsigned rest) := by
  by_cases hunsigned : Unsigned cs
  · exact ⟨.none, cs, rfl, fun _ => hunsigned⟩
  · unfold Unsigned at hunsigned
    push Not at hunsigned
    obtain ⟨c, hc, hsign⟩ := hunsigned
    obtain ⟨rest, rfl⟩ := List.head?_eq_some_iff.mp hc
    by_cases hminus : c = '-'
    · exact ⟨.minus, rest, hminus ▸ rfl, nofun⟩
    · exact ⟨.plus, rest, hsign hminus ▸ rfl, nofun⟩

/-- The sign in front of a number is the sign of the integer. -/
theorem integer?_signed (radix : Nat) {sign : Sign} {cs : List Char}
    (h : sign = .none → Unsigned cs) :
    integer? radix (sign.text ++ cs) = (natural? radix cs).map sign.apply := by
  cases sign with
  | plus | minus =>
    show Option.map _ (natural? radix cs >>= _) = _
    cases natural? radix cs <;> rfl
  | none =>
    show integer? radix cs = _
    unfold integer?
    split
    · exact absurd rfl (h rfl '-' rfl).1
    · exact absurd rfl (h rfl '+' rfl).2
    · cases natural? radix cs <;> rfl

theorem integer?_eq_some_iff (hradix : radix ≤ 16) {cs : List Char} {v : Int} :
    integer? radix cs = some v ↔ ∃ sign digits, AreDigits radix digits ∧
      cs.map Char.toLower = Sign.text sign ++ text digits ∧
      v = sign.apply (Nat.ofDigits radix digits) := by
  constructor
  · intro h
    obtain ⟨sign, rest, rfl, hunsigned⟩ := exists_sign cs
    rw [integer?_signed radix hunsigned] at h
    obtain ⟨n, hn, rfl⟩ := Option.map_eq_some_iff.mp h
    obtain ⟨digits, hdigits, htext, rfl⟩ := (natural?_eq_some_iff hradix).mp hn
    refine ⟨sign, digits, hdigits, ?_, rfl⟩
    rw [List.map_append, sign.lower_eq_iff.mpr rfl, htext]
  · rintro ⟨sign, digits, hdigits, htext, rfl⟩
    obtain ⟨front, rest, rfl, hfront, hrest⟩ := List.map_eq_append_iff.mp htext
    obtain rfl := sign.lower_eq_iff.mp hfront
    rw [integer?_signed radix fun _ => hdigits.unsigned hradix hrest,
      (natural?_eq_some_iff hradix).mpr ⟨digits, hdigits, hrest, rfl⟩]
    rfl

/-! ### Bounded numbers -/

/-- A decimal digit has no case. -/
theorem AreDigits.lower_eq_iff (h : AreDigits 10 digits) {cs : List Char} :
    cs.map Char.toLower = text digits ↔ cs = text digits := by
  have hall : ∀ d < 10, (Nat.digitChar d).isAlpha = false := by decide
  refine map_toLower_eq_iff fun c hc => ?_
  obtain ⟨d, hd, rfl⟩ := mem_text_iff.mp hc
  exact hall d (h.small d hd)

theorem below?_eq_some_iff {bound : Nat} {cs : List Char} :
    below? bound cs = some n ↔ n < bound ∧ ∃ (plus : Bool) (digits : List Nat), AreDigits 10 digits ∧
      cs = (if plus then ['+'] else []) ++ text digits ∧ n = Nat.ofDigits 10 digits := by
  have hread : ∀ rest, (natural? 10 rest).filter (· < bound) = some n ↔ n < bound ∧
      ∃ digits, AreDigits 10 digits ∧ rest = text digits ∧ n = Nat.ofDigits 10 digits := by
    intro rest
    rw [Option.filter_eq_some_iff, natural?_eq_some_iff (by decide), decide_eq_true_eq, and_comm]
    refine and_congr_right fun _ => exists_congr fun digits => and_congr_right fun hdigits => ?_
    rw [hdigits.lower_eq_iff]
  unfold below?
  split
  · rename_i rest
    rw [hread]
    refine and_congr_right fun _ => ⟨?_, ?_⟩
    · rintro ⟨digits, hdigits, rfl, hn⟩
      exact ⟨true, digits, hdigits, rfl, hn⟩
    · rintro ⟨plus, digits, hdigits, htext, hn⟩
      cases plus with
      | true => exact ⟨digits, hdigits, (List.cons.inj htext).2, hn⟩
      | false =>
        have hlower := hdigits.lower_eq_iff.mpr htext
        exact absurd rfl (hdigits.unsigned (by decide) hlower '+' rfl).2
  · rename_i hplus
    rw [hread]
    refine and_congr_right fun _ => ⟨?_, ?_⟩
    · rintro ⟨digits, hdigits, rfl, hn⟩
      exact ⟨false, digits, hdigits, rfl, hn⟩
    · rintro ⟨plus, digits, hdigits, htext, hn⟩
      cases plus with
      | true => exact absurd htext (hplus _)
      | false => exact ⟨digits, hdigits, htext, hn⟩

/-! ### Printed numbers -/

/-- A number is printed as digits. -/
theorem exists_digits (hlow : 2 ≤ radix) (n : Nat) :
    ∃ digits, AreDigits radix digits ∧ Nat.toDigits radix n = text digits ∧
      Nat.ofDigits radix digits = n := by
  induction n using Nat.strongRecOn with
  | ind n ih =>
    rw [Nat.toDigits_eq_if hlow]
    split
    · rename_i hlt
      refine ⟨[n], ⟨nofun, fun d hd => ?_⟩, rfl, Nat.ofDigits_singleton⟩
      exact List.mem_singleton.mp hd ▸ hlt
    · obtain ⟨digits, hdigits, htext, hvalue⟩ :=
        ih (n / radix) (Nat.div_lt_self (by omega) (by omega))
      refine ⟨n % radix :: digits, ⟨nofun, fun d hd => ?_⟩, ?_, ?_⟩
      · rcases List.mem_cons.mp hd with rfl | hd
        · exact Nat.mod_lt _ (by omega)
        · exact hdigits.small d hd
      · rw [htext, text_cons]
      · rw [Nat.ofDigits_cons, hvalue]
        exact Nat.mod_add_div n radix

/-- Zeros in front change nothing. -/
theorem exists_digits_padded (hlow : 2 ≤ radix) (zeros n : Nat) :
    ∃ digits, AreDigits radix digits ∧
      List.replicate zeros '0' ++ Nat.toDigits radix n = text digits ∧
      Nat.ofDigits radix digits = n := by
  obtain ⟨digits, hdigits, htext, hvalue⟩ := exists_digits hlow n
  refine ⟨digits ++ List.replicate zeros 0, ⟨?_, ?_⟩, ?_, ?_⟩
  · exact fun hempty => hdigits.nonempty (List.append_eq_nil_iff.mp hempty).1
  · intro d hd
    rcases List.mem_append.mp hd with hd | hd
    · exact hdigits.small d hd
    · rw [List.eq_of_mem_replicate hd]
      omega
  · rw [htext, text, text, List.map_append, List.reverse_append, List.map_replicate,
      List.reverse_replicate]
    rfl
  · rw [Nat.ofDigits_append_replicate_zero, hvalue]

/-- Decimal digits that stand for a number of one digit are this digit behind zeros. -/
theorem text_digit_iff {d : Nat} (hd : d < 10) {cs : List Char} :
    (∃ digits, AreDigits 10 digits ∧ cs = text digits ∧ d = Nat.ofDigits 10 digits) ↔
      ∃ zeros, cs = List.replicate zeros '0' ++ [d.digitChar] := by
  constructor
  · rintro ⟨digits, hdigits, rfl, rfl⟩
    cases digits with
    | nil => exact absurd rfl hdigits.nonempty
    | cons low rest =>
      rw [Nat.ofDigits_cons] at hd ⊢
      have hrest : Nat.ofDigits 10 rest = 0 := by omega
      have hzeros := List.eq_replicate_of_mem (Nat.digits_zero_of_eq_zero (by decide) hrest)
      refine ⟨rest.length, ?_⟩
      rw [text_cons, hrest, Nat.mul_zero, Nat.add_zero, hzeros, text, List.map_replicate,
        List.reverse_replicate, List.length_replicate]
      rfl
  · rintro ⟨zeros, rfl⟩
    obtain ⟨digits, hdigits, htext, hvalue⟩ := exists_digits_padded (by decide : 2 ≤ 10) zeros d
    rw [Nat.toDigits_of_lt_base hd] at htext
    exact ⟨digits, hdigits, htext, hvalue.symm⟩

theorem mem_toDigits (hlow : 2 ≤ radix) (h : c ∈ Nat.toDigits radix n) :
    ∃ d < radix, c = d.digitChar := by
  obtain ⟨digits, hdigits, htext, -⟩ := exists_digits hlow n
  have hc : c ∈ text digits := htext ▸ h
  obtain ⟨d, hd, rfl⟩ := mem_text_iff.mp hc
  exact ⟨d, hdigits.small d hd, rfl⟩

end RegisterMachine.Numeral
