import RegisterMachine.Assembly.Literal
import RegisterMachine.Proofs.Except
import RegisterMachine.Proofs.Number.Numeral

/-! Integers as tokens.

A token that is read as an integer consists of a minus sign or none, digits of one of three
radices and the mark of the radix behind them (`Parts`). Between the minus sign and the digits
there may be a second sign, which the reader of the digits takes. What is read is the value of the
parts if that fits in a word, with a sign or without one, and nothing else is read as an integer
(`parse_of_spells`, `parse_int_iff`). So an integer is read from each of its spellings, and for a
field exactly if it fits the field (`parse_spelling`). -/
namespace RegisterMachine.Literal

open Numeral

/-! ### Parts -/

inductive Radix where
  | decimal
  | hexadecimal
  | binary
  deriving DecidableEq

namespace Radix

def base : Radix → Nat
  | decimal => 10
  | hexadecimal => 16
  | binary => 2

/-- What stands behind the digits. -/
def mark : Radix → List Char
  | decimal => []
  | hexadecimal => ['h']
  | binary => ['b']

theorem two_le_base (radix : Radix) : 2 ≤ radix.base := by
  cases radix <;> decide

theorem mem_mark {radix : Radix} {c : Char} (h : c ∈ radix.mark) : c = 'h' ∨ c = 'b' := by
  cases radix with
  | decimal => cases h
  | hexadecimal => exact .inl (List.mem_singleton.mp h)
  | binary => exact .inr (List.mem_singleton.mp h)

theorem base_le (radix : Radix) : radix.base ≤ 16 := by
  cases radix <;> decide

end Radix

theorem splitMinus_of_head {cs : List Char} (h : cs.head? ≠ some '-') :
    splitMinus cs = (false, cs) := by
  unfold splitMinus
  split
  · exact absurd rfl h
  · rfl

/-- The parts of an integer as a token. The digits have the least significant one first. -/
structure Parts where
  radix : Radix
  negative : Bool
  /-- A sign behind the minus sign, or a plus sign: more than a literal should have. -/
  second : Sign
  digits : List Nat
  proper : AreDigits radix.base digits
  /-- A minus sign that is alone is the first one. -/
  first : second = .minus → negative = true

namespace Parts

variable (p : Parts)

/-- The second sign and the digits. -/
def front : List Char := p.second.text ++ Numeral.text p.digits

def body : List Char := p.front ++ p.radix.mark

/-- The token in lower case. -/
def text : List Char := if p.negative then '-' :: p.body else p.body

def magnitude : Int := p.second.apply (Nat.ofDigits p.radix.base p.digits)

def value : Int := if p.negative then -p.magnitude else p.magnitude

/-- The token is made of these parts, in letters of either case. -/
def Spells (token : String) : Prop := token.toList.map Char.toLower = p.text

theorem front_ne_nil : p.front ≠ [] := by
  intro h
  exact p.proper.nonempty (text_eq_nil_iff.mp (List.append_eq_nil_iff.mp h).2)

/-- What stands in front of the mark is a sign or a digit. -/
theorem not_mem_front {c : Char} (hsign : c ≠ '+' ∧ c ≠ '-')
    (hdigit : ∀ d < p.radix.base, d.digitChar ≠ c) : c ∉ p.front := by
  intro h
  rcases List.mem_append.mp h with h | h
  · rcases Sign.mem_text h with h | h
    · exact hsign.1 h
    · exact hsign.2 h
  · obtain ⟨d, hd, hc⟩ := mem_text_iff.mp h
    exact hdigit d (p.proper.small d hd) hc

theorem not_mem_body {c : Char} (hsign : c ≠ '+' ∧ c ≠ '-')
    (hdigit : ∀ d < 16, Nat.digitChar d ≠ c) (hmark : c ≠ 'h' ∧ c ≠ 'b') : c ∉ p.body := by
  intro h
  rcases List.mem_append.mp h with h | h
  · exact p.not_mem_front hsign (fun d hd => hdigit d (Nat.lt_of_lt_of_le hd p.radix.base_le)) h
  · rcases Radix.mem_mark h with h | h
    · exact hmark.1 h
    · exact hmark.2 h

theorem splitMinus_text : splitMinus p.text = (p.negative, p.body) := by
  cases hnegative : p.negative with
  | true =>
    rw [text, hnegative]
    rfl
  | false =>
    rw [text, hnegative, if_neg (by decide)]
    refine splitMinus_of_head fun h => ?_
    have hhead : p.front.head? = some '-' := by
      rw [← List.head?_append_of_ne_nil _ p.front_ne_nil]
      exact h
    cases hsecond : p.second with
    | plus =>
      rw [front, hsecond] at hhead
      cases hhead
    | minus => exact absurd (hnegative.symm.trans (p.first hsecond)) (by decide)
    | none =>
      rw [front, hsecond] at hhead
      have hlower := p.proper.map_toLower_text p.radix.base_le
      exact (p.proper.unsigned p.radix.base_le hlower '-' hhead).1 rfl

/-- Digits with a mark behind them are not marked in front, though hexadecimal ones may begin with
`0b`. -/
theorem isMarkedInFront_body : isMarkedInFront p.body = false := by
  unfold isMarkedInFront
  split
  · rename_i rest hbody
    have hx : 'x' ∉ p.body := p.not_mem_body (by decide) (by decide) (by decide)
    rw [hbody] at hx
    exact absurd (List.mem_cons_of_mem _ List.mem_cons_self) hx
  · rename_i rest hbody
    by_cases hradix : p.radix = .hexadecimal
    · have hlast : p.body.getLast? = some 'h' := by
        rw [body, hradix]
        exact List.getLast?_concat
      rw [hbody] at hlast
      cases rest with
      | nil => exact absurd hlast (by decide)
      | cons c rest =>
        rw [List.getLast?_cons_cons, List.getLast?_cons_cons] at hlast
        simp [hlast]
    · -- The `b` is no digit, so it is the mark.
      have hb : 'b' ∉ p.front := by
        refine p.not_mem_front (by decide) ?_
        cases hp : p.radix with
        | decimal | binary => decide
        | hexadecimal => exact absurd hp hradix
      obtain ⟨c, tail, hfront⟩ := List.exists_cons_of_ne_nil p.front_ne_nil
      rw [hfront] at hb
      rw [body, hfront] at hbody
      obtain ⟨-, htail⟩ := List.cons.inj hbody
      cases tail with
      | cons c' tail =>
        obtain ⟨rfl, -⟩ := List.cons.inj htail
        exact absurd (List.mem_cons_of_mem _ List.mem_cons_self) hb
      | nil =>
        have hmark : p.radix.mark = 'b' :: rest := htail
        cases hp : p.radix with
        | decimal =>
          rw [hp] at hmark
          cases hmark
        | hexadecimal => exact absurd hp hradix
        | binary =>
          rw [hp] at hmark
          obtain ⟨-, rfl⟩ := List.cons.inj hmark
          rfl
  · rfl

theorem integer?_front : integer? p.radix.base p.front = some p.magnitude := by
  refine (integer?_eq_some_iff p.radix.base_le).mpr ⟨p.second, p.digits, p.proper, ?_, rfl⟩
  rw [front, List.map_append, p.second.lower_eq_iff.mpr rfl,
    p.proper.map_toLower_text p.radix.base_le]

theorem magnitude?_body : magnitude? p.body = long? p.radix.base p.front := by
  cases hradix : p.radix with
  | hexadecimal =>
    have hlast : p.body.getLast? = some 'h' := by
      rw [body, hradix]
      exact List.getLast?_concat
    rw [magnitude?, hlast, body, hradix]
    exact congrArg (long? 16) List.dropLast_concat
  | binary =>
    have hlast : p.body.getLast? = some 'b' := by
      rw [body, hradix]
      exact List.getLast?_concat
    rw [magnitude?, hlast, body, hradix]
    exact congrArg (long? 2) List.dropLast_concat
  | decimal =>
    have hbody : p.body = p.front := by
      rw [body, hradix]
      exact List.append_nil _
    have hdigit : ∀ c, (∀ d < 10, Nat.digitChar d ≠ c) → c ≠ '+' ∧ c ≠ '-' → c ∉ p.body := by
      intro c hdigit hsign
      rw [hbody]
      refine p.not_mem_front hsign ?_
      rw [hradix]
      exact hdigit
    have hpoint : p.body.contains '.' = false := by
      simpa using hdigit '.' (by decide) (by decide)
    unfold magnitude?
    split
    · rename_i hlast
      exact absurd (List.mem_of_getLast? hlast) (hdigit 'h' (by decide) (by decide))
    · rename_i hlast
      exact absurd (List.mem_of_getLast? hlast) (hdigit 'b' (by decide) (by decide))
    · rw [hpoint, if_neg (by decide), hbody]
      rfl

end Parts

/-! ### Reading -/

/-- The integer fits in a word, with a sign or without one. -/
def InRange (n : Int) : Prop := -2 ^ 31 ≤ n ∧ n ≤ 2 ^ 32 - 1

instance (n : Int) : Decidable (InRange n) := inferInstanceAs (Decidable (_ ∧ _))

theorem inRange_iff {n : Int} :
    Int32.minValue.toInt ≤ n ∧ n < UInt32.size ↔ InRange n := by
  have hmin : Int32.minValue.toInt = -2 ^ 31 := by decide
  have hsize : (UInt32.size : Int) = 2 ^ 32 := rfl
  rw [hmin, hsize, InRange]
  omega

variable {p : Parts} {token : String} {n : Int} {cs : List Char}

theorem long?_eq_some_iff {radix : Nat} {literal : Literal} : long? radix cs = some literal ↔
    ∃ n, integer? radix cs = some n ∧ -2 ^ 63 ≤ n ∧ n ≤ 2 ^ 63 - 1 ∧ literal = .int n := by
  have hmin : Int64.minValue.toInt = -2 ^ 63 := by decide
  have hmax : Int64.maxValue.toInt = 2 ^ 63 - 1 := by decide
  rw [long?, Option.map_eq_some_iff]
  constructor
  · rintro ⟨n, hn, rfl⟩
    obtain ⟨hread, hfits⟩ := Option.filter_eq_some_iff.mp hn
    rw [decide_eq_true_eq, hmin, hmax] at hfits
    exact ⟨n, hread, hfits.1, hfits.2, rfl⟩
  · rintro ⟨n, hread, hlow, hhigh, rfl⟩
    refine ⟨n, Option.filter_eq_some_iff.mpr ⟨hread, ?_⟩, rfl⟩
    rw [decide_eq_true_eq, hmin, hmax]
    exact ⟨hlow, hhigh⟩

theorem long?_eq_some_int_iff {radix : Nat} : long? radix cs = some (.int n) ↔
    integer? radix cs = some n ∧ -2 ^ 63 ≤ n ∧ n ≤ 2 ^ 63 - 1 := by
  rw [long?_eq_some_iff]
  constructor
  · rintro ⟨n', hread, hlow, hhigh, heq⟩
    obtain rfl := int.inj heq
    exact ⟨hread, hlow, hhigh⟩
  · rintro ⟨hread, hlow, hhigh⟩
    exact ⟨n, hread, hlow, hhigh, rfl⟩

/-- The sign in front is applied in 64 bits. That is exact but for the least integer, and there
neither what is meant nor what comes out fits in a word. -/
theorem signed_int (negative : Bool) (hlow : -2 ^ 63 ≤ n) (hhigh : n ≤ 2 ^ 63 - 1) :
    ∃ k, (if negative then negate (.int n) else .int n) = .int k ∧
      (InRange k ∨ InRange (if negative then -n else n) → k = if negative then -n else n) := by
  cases negative with
  | false => exact ⟨n, rfl, fun _ => rfl⟩
  | true =>
    have hturned : (-Int64.ofInt n).toInt = (-n).bmod (2 ^ 64) := by
      rw [Int64.toInt_neg, Int64.toInt_ofInt_of_le (by omega) (by omega)]
    refine ⟨(-n).bmod (2 ^ 64), congrArg int hturned, ?_⟩
    by_cases hleast : n = -2 ^ 63
    · subst hleast
      rintro (hrange | hrange)
      · exact absurd hrange (by decide)
      · exact absurd hrange (by decide)
    · exact fun _ => Int.bmod_eq_of_le (by omega) (by omega)

/-- What is read of a token of these parts: their value, if it fits in a word. -/
theorem parse_of_spells (h : p.Spells token) {literal : Literal} :
    parse token = .ok literal ↔ literal = .int p.value ∧ InRange p.value := by
  have hmagnitude : p.magnitude = p.value ∨ p.magnitude = -p.value := by
    unfold Parts.value
    split
    · exact .inr (Int.neg_neg _).symm
    · exact .inl rfl
  rw [parse, h, Parts.splitMinus_text]
  simp only [Parts.isMarkedInFront_body, Bool.false_eq_true, if_false]
  cases hread : magnitude? p.body with
  | none =>
    refine ⟨nofun, fun ⟨_, hrange⟩ => ?_⟩
    unfold InRange at hrange
    rw [Parts.magnitude?_body] at hread
    have hlong := long?_eq_some_iff.mpr
      ⟨p.magnitude, p.integer?_front, by omega, by omega, rfl⟩
    exact absurd (hread.symm.trans hlong) (by simp)
  | some literal' =>
    rw [Parts.magnitude?_body] at hread
    obtain ⟨n, hn, hlow, hhigh, rfl⟩ := long?_eq_some_iff.mp hread
    obtain rfl := Option.some.inj (p.integer?_front.symm.trans hn)
    obtain ⟨k, hsigned, hexact⟩ := signed_int p.negative hlow hhigh
    have hexact : InRange k ∨ InRange p.value → k = p.value := hexact
    simp only [hsigned, inRange_iff]
    split
    · rename_i hrange
      obtain rfl := hexact (.inl hrange)
      exact ⟨fun h => ⟨(Except.ok.inj h).symm, hrange⟩, fun h => congrArg _ h.1.symm⟩
    · rename_i hrange
      exact ⟨nofun, fun h => absurd (hexact (.inr h.2) ▸ h.2) hrange⟩

theorem long?_of_magnitude? {body : List Char} (h : magnitude? body = some (.int n)) :
    ∃ radix front, body = front ++ Radix.mark radix ∧ long? radix.base front = some (.int n) := by
  unfold magnitude? at h
  split at h
  · rename_i hlast
    obtain ⟨front, rfl⟩ := List.getLast?_eq_some_iff.mp hlast
    rw [List.dropLast_concat] at h
    exact ⟨.hexadecimal, front, rfl, h⟩
  · rename_i hlast
    obtain ⟨front, rfl⟩ := List.getLast?_eq_some_iff.mp hlast
    rw [List.dropLast_concat] at h
    exact ⟨.binary, front, rfl, h⟩
  · split at h
    · obtain ⟨d, -, hfloat⟩ := Option.map_eq_some_iff.mp h
      cases hfloat
    · exact ⟨.decimal, body, (List.append_nil _).symm, h⟩

/-- An integer in lower case, behind its first sign, has parts. -/
theorem exists_parts (negative : Bool) {body : List Char} (hlower : body.map Char.toLower = body)
    (hfirst : negative = false → body.head? ≠ some '-') (h : magnitude? body = some (.int n)) :
    ∃ p : Parts, p.negative = negative ∧ p.body = body ∧ p.magnitude = n := by
  obtain ⟨radix, front, rfl, hlong⟩ := long?_of_magnitude? h
  have hinteger := (long?_eq_some_int_iff.mp hlong).1
  obtain ⟨sign, digits, hdigits, htext, rfl⟩ := (integer?_eq_some_iff radix.base_le).mp hinteger
  have hfront : front.map Char.toLower = front := by
    rw [List.map_append] at hlower
    exact (List.append_inj hlower (List.length_map ..)).1
  obtain rfl : front = sign.text ++ text digits := hfront.symm.trans htext
  refine ⟨⟨radix, negative, sign, digits, hdigits, ?_⟩, rfl, rfl, rfl⟩
  rintro rfl
  cases negative with
  | true => rfl
  | false => exact absurd rfl (hfirst rfl)

/-- An integer is read from what stands behind its first sign. -/
theorem magnitude?_of_parse {negative : Bool} {body : List Char}
    (hsplit : splitMinus (token.toList.map Char.toLower) = (negative, body))
    (h : parse token = .ok (.int n)) :
    InRange n ∧ ∃ m, magnitude? body = some (.int m) ∧ n = if negative then -m else m := by
  rw [parse, hsplit] at h
  dsimp only at h
  split at h
  · cases h
  · cases hread : magnitude? body with
    | none =>
      rw [hread] at h
      cases h
    | some literal =>
      rw [hread] at h
      dsimp only at h
      cases literal with
      | float bits => cases negative <;> cases h
      | int m =>
        obtain ⟨radix, front, -, hlong⟩ := long?_of_magnitude? hread
        obtain ⟨-, hlow, hhigh⟩ := long?_eq_some_int_iff.mp hlong
        obtain ⟨k, hsigned, hexact⟩ := signed_int negative hlow hhigh
        simp only [hsigned, inRange_iff] at h
        by_cases hrange : InRange k
        · rw [if_pos hrange] at h
          obtain rfl := int.inj (Except.ok.inj h)
          exact ⟨hrange, m, rfl, hexact (.inl hrange)⟩
        · rw [if_neg hrange] at h
          cases h

/-- Integers in range, spelled by their parts, are all that is read as an integer. -/
theorem parse_int_iff :
    parse token = .ok (.int n) ↔ InRange n ∧ ∃ p : Parts, p.Spells token ∧ p.value = n := by
  constructor
  · intro h
    have hlower : (token.toList.map Char.toLower).map Char.toLower =
        token.toList.map Char.toLower := by
      rw [List.map_map]
      exact congrArg (List.map · _) (funext Char.toLower_toLower_eq_toLower)
    by_cases hminus : (token.toList.map Char.toLower).head? = some '-'
    · obtain ⟨body, hbody⟩ := List.head?_eq_some_iff.mp hminus
      have hsplit : splitMinus (token.toList.map Char.toLower) = (true, body) := by
        rw [hbody]
        rfl
      rw [hbody] at hlower
      obtain ⟨hrange, m, hread, rfl⟩ := magnitude?_of_parse hsplit h
      obtain ⟨p, hnegative, rfl, rfl⟩ :=
        exists_parts true (List.cons.inj hlower).2 nofun hread
      refine ⟨hrange, p, ?_, ?_⟩
      · rw [Parts.Spells, hbody, Parts.text, hnegative, if_pos rfl]
      · rw [Parts.value, hnegative]
    · obtain ⟨hrange, m, hread, rfl⟩ := magnitude?_of_parse (splitMinus_of_head hminus) h
      obtain ⟨p, hnegative, hbody, rfl⟩ := exists_parts false hlower (fun _ => hminus) hread
      refine ⟨hrange, p, ?_, ?_⟩
      · rw [Parts.Spells, Parts.text, hnegative, if_neg (by decide), hbody]
      · rw [Parts.value, hnegative, if_neg (by decide)]
  · rintro ⟨hrange, p, hspells, rfl⟩
    exact (parse_of_spells hspells).mpr ⟨rfl, hrange⟩

/-! ### Integers and fields -/

theorem parseInt_ok_iff : parseInt token = .ok n ↔ parse token = .ok (.int n) := by
  rw [parseInt, bind_ok_iff]
  constructor
  · rintro ⟨literal, hliteral, h⟩
    cases literal with
    | float bits => cases h
    | int value =>
      obtain rfl := Except.ok.inj h
      exact hliteral
  · exact fun h => ⟨_, h, rfl⟩

/-- An integer is read for a field if it is within the range of the field, and cut to it. -/
theorem parseField_ok_iff {width : Nat} {value : UInt32} (hwidth : width ≤ 32) :
    parseField width token = .ok value ↔ ∃ n, parse token = .ok (.int n) ∧
      -2 ^ (width - 1) ≤ n ∧ n ≤ 2 ^ width - 1 ∧ (value.toNat : Int) = n % 2 ^ width := by
  have hlowest : (-(1 <<< (width - 1) : Nat) : Int) = -2 ^ (width - 1) := by
    rw [Nat.one_shiftLeft]
    norm_cast
  have hsize : ((1 <<< width : Nat) : Int) = 2 ^ width := by
    rw [Nat.one_shiftLeft]
    norm_cast
  have hcut : ∀ n : Int, ((UInt32.ofInt (n % 2 ^ width)).toNat : Int) = n % 2 ^ width := by
    intro n
    have hpow : (2 : Int) ^ width ≤ 2 ^ 32 := pow_le_pow_right₀ (by decide) hwidth
    have hpositive : (0 : Int) < 2 ^ width := by positivity
    have hnonneg := Int.emod_nonneg n hpositive.ne'
    have hlt := Int.emod_lt_of_pos n hpositive
    rw [UInt32.ofInt, UInt32.toNat_ofNat']
    omega
  rw [parseField, bind_ok_iff]
  simp only [parseInt_ok_iff, hlowest, hsize]
  constructor
  · rintro ⟨n, hn, h⟩
    by_cases hrange : -2 ^ (width - 1) ≤ n ∧ n < 2 ^ width
    · rw [if_pos hrange] at h
      rw [← Except.ok.inj h]
      exact ⟨n, hn, hrange.1, by omega, hcut n⟩
    · rw [if_neg hrange] at h
      cases h
  · rintro ⟨n, hn, hlow, hhigh, hvalue⟩
    refine ⟨n, hn, ?_⟩
    rw [if_pos ⟨hlow, by omega⟩, Except.ok.injEq, ← UInt32.toNat_inj]
    exact Int.ofNat_inj.mp ((hcut n).trans hvalue.symm)

/-! ### Spellings -/

/-- The digits of an integer in a radix, with zeros in front of them, behind a minus sign if it is
negative and in front of the mark of the radix. Letters are in lower case. -/
def spelling (radix : Radix) (zeros : Nat) (n : Int) : List Char :=
  (if n < 0 then ['-'] else []) ++
    (List.replicate zeros '0' ++ Nat.toDigits radix.base n.natAbs ++ radix.mark)

theorem spells_of_spelling {radix : Radix} {zeros : Nat}
    (h : token.toList.map Char.toLower = spelling radix zeros n) :
    ∃ p : Parts, p.Spells token ∧ p.value = n := by
  obtain ⟨digits, hdigits, htext, hvalue⟩ :=
    exists_digits_padded radix.two_le_base zeros n.natAbs
  refine ⟨⟨radix, decide (n < 0), .none, digits, hdigits, nofun⟩, ?_, ?_⟩
  · rw [spelling, htext] at h
    rw [Parts.Spells, h]
    by_cases hnegative : n < 0
    · simp [Parts.text, Parts.body, Parts.front, Sign.text, hnegative]
    · simp [Parts.text, Parts.body, Parts.front, Sign.text, hnegative]
  · simp only [Parts.value, Parts.magnitude, hvalue, Sign.apply, decide_eq_true_eq]
    omega

/-- **Every integer has its three spellings.** In decimal, hexadecimal or binary digits, with any
zeros in front and in letters of either case, an integer is read as itself if it fits in a word, with
a sign or without one, and for a field, modulo its size, if it fits in the field; otherwise nothing
is read. -/
theorem parse_spelling {radix : Radix} {zeros : Nat}
    (h : token.toList.map Char.toLower = spelling radix zeros n) :
    (∀ literal, parse token = .ok literal ↔
      literal = .int n ∧ -2 ^ 31 ≤ n ∧ n ≤ 2 ^ 32 - 1) ∧
    ∀ width value, 1 ≤ width → width ≤ 32 → (parseField width token = .ok value ↔
      -2 ^ (width - 1) ≤ n ∧ n ≤ 2 ^ width - 1 ∧ (value.toNat : Int) = n % 2 ^ width) := by
  obtain ⟨p, hspells, rfl⟩ := spells_of_spelling h
  refine ⟨fun literal => parse_of_spells hspells, fun width value hpositive hwidth => ?_⟩
  rw [parseField_ok_iff hwidth]
  simp only [parse_of_spells hspells, int.injEq]
  constructor
  · rintro ⟨n, ⟨rfl, -⟩, hfits⟩
    exact hfits
  · rintro ⟨hlow, hhigh, hvalue⟩
    have hlowest : (2 : Int) ^ (width - 1) ≤ 2 ^ 31 := pow_le_pow_right₀ (by decide) (by omega)
    have hhighest : (2 : Int) ^ width ≤ 2 ^ 32 := pow_le_pow_right₀ (by decide) hwidth
    refine ⟨p.value, ⟨rfl, ?_, ?_⟩, hlow, hhigh, hvalue⟩
    · omega
    · omega

/-- Hexadecimal digits that begin like a marked radix and hold the mark of another one. -/
theorem parse_spelling_marked :
    parse "-0B12h" = .ok (.int (-2834)) ∧ parseField 13 "-0B12h" = .ok 5358 := by
  have h : "-0B12h".toList.map Char.toLower = spelling .hexadecimal 1 (-2834) := by decide +kernel
  obtain ⟨hparse, hfield⟩ := parse_spelling h
  exact ⟨(hparse _).mpr (by decide), (hfield 13 5358 (by decide) (by decide)).mpr (by decide)⟩

end RegisterMachine.Literal
