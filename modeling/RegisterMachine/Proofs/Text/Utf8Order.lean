import Mathlib.Tactic.SplitIfs
import RegisterMachine.Text.Utf8

/-! The order of texts is the order of their bytes.

Texts are compared by code points, from the left. Their UTF-8 encodings are in the same
order, because those of two characters differ in a byte, and there as the code points do
(`utf8EncodeChar_lt`). -/
namespace RegisterMachine.Text

theorem utf8_eq (text : String) : utf8 text = text.toList.flatMap String.utf8EncodeChar := by
  have hbytes : text.toByteArray = text.toList.utf8Encode := by
    rw [← String.toByteArray_ofList, String.ofList_toList]
  rw [utf8, String.toUTF8_eq_toByteArray, hbytes]
  simp [List.utf8Encode]

/-- Numbers are in the order of their leading digits, or of the last one if those agree. -/
theorem lt_of_digits {m n : Nat} (h : m < n) :
    m / 64 < n / 64 ∨ m / 64 = n / 64 ∧ m % 64 < n % 64 := by
  omega

/-- The encodings of two characters differ in a byte, whatever follows them. -/
theorem utf8EncodeChar_lt {c d : Char} (h : c < d) (front back : List UInt8) :
    String.utf8EncodeChar c ++ front < String.utf8EncodeChar d ++ back := by
  have hlt : c.val.toNat < d.val.toNat := h
  have hbound : d.val.toNat < 0x110000 := by
    rcases d.valid with hvalid | hvalid <;> omega
  unfold String.utf8EncodeChar
  dsimp only
  generalize c.val.toNat = m at *
  generalize d.val.toNat = n at *
  have hlow := lt_of_digits hlt
  -- the bytes carry the digits to the base 64, so all are said by quotients by 64
  have hquotients : ∀ k : Nat, k / 4096 = k / 64 / 64 ∧ k / 262144 = k / 64 / 64 / 64 := by omega
  simp only [hquotients]
  split_ifs <;>
    simp only [List.cons_append, List.nil_append, List.cons_lt_cons_iff, UInt8.lt_iff_toNat_lt,
      ← UInt8.toNat_inj, UInt8.toNat_ofNat'] <;>
    simp (disch := omega) only [Nat.mod_eq_of_lt] <;>
    omega

theorem flatMap_lt {front back : List Char} (h : front < back) :
    front.flatMap String.utf8EncodeChar < back.flatMap String.utf8EncodeChar := by
  induction front generalizing back with
  | nil =>
    cases back with
    | nil => exact absurd h (List.lt_irrefl _)
    | cons d back =>
      obtain ⟨b, rest, hd⟩ := List.exists_cons_of_ne_nil (@String.utf8EncodeChar_ne_nil d)
      simp [List.flatMap_cons, hd]
  | cons c front ih =>
    cases back with
    | nil => exact absurd h (List.not_lt_nil _)
    | cons d back =>
      rw [List.flatMap_cons, List.flatMap_cons]
      rcases List.cons_lt_cons_iff.mp h with hlt | ⟨rfl, hlt⟩
      · exact utf8EncodeChar_lt hlt _ _
      · exact List.append_left_lt (ih hlt)

/-- The order of texts is the order of their encodings. -/
theorem utf8_lt_iff {a b : String} : utf8 a < utf8 b ↔ a < b := by
  have hmono : ∀ {a b : String}, a < b → utf8 a < utf8 b := by
    intro a b h
    rw [utf8_eq, utf8_eq]
    exact flatMap_lt (String.lt_iff.mp h)
  constructor
  · intro h
    apply Classical.byContradiction
    intro hnot
    by_cases hgreater : b < a
    · exact List.lt_asymm h (hmono hgreater)
    · obtain rfl : a = b := Std.Trichotomous.trichotomous a b hnot hgreater
      exact List.lt_irrefl _ h
  · exact hmono

end RegisterMachine.Text
