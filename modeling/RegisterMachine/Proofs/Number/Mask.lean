/-! Words cut by masks: which bits are within a mask, and which lie apart from it. -/
namespace RegisterMachine

theorem or_and (a b m : UInt32) : (a ||| b) &&& m = a &&& m ||| b &&& m :=
  UInt32.toBitVec_inj.mp BitVec.and_or_distrib_right

theorem and_or (m a b : UInt32) : m &&& (a ||| b) = m &&& a ||| m &&& b :=
  UInt32.toBitVec_inj.mp BitVec.and_or_distrib_left

/-- Bits within `s` have nothing in common with what lies apart from `s`. -/
theorem and_eq_zero_of_within {a s m : UInt32} (ha : a &&& s = a) (hs : s &&& m = 0) :
    a &&& m = 0 := by
  rw [← ha, UInt32.and_assoc, hs, UInt32.and_zero]

theorem within_trans {a s t : UInt32} (ha : a &&& s = a) (hs : s &&& t = s) : a &&& t = a := by
  rw [← ha, UInt32.and_assoc, hs]

theorem and_not_of_within {a s : UInt32} (ha : a &&& s = a) : a &&& ~~~s = 0 :=
  and_eq_zero_of_within ha UInt32.and_not_self

theorem within_or_left (a b : UInt32) : a &&& (a ||| b) = a := by
  apply UInt32.toBitVec_inj.mp
  apply BitVec.eq_of_getLsbD_eq
  intro k _
  simp only [UInt32.toBitVec_and, UInt32.toBitVec_or, BitVec.getLsbD_and, BitVec.getLsbD_or]
  cases a.toBitVec.getLsbD k with
  | false => rfl
  | true => rfl

theorem within_or_right (a b : UInt32) : b &&& (a ||| b) = b := by
  rw [UInt32.or_comm]
  exact within_or_left b a

theorem and_of_and_not {a s : UInt32} (h : a &&& ~~~s = 0) : a &&& s = a := by
  have hsplit : a &&& s ||| a &&& ~~~s = a := by
    rw [← and_or, UInt32.or_not_self, UInt32.and_neg_one]
  rw [h, UInt32.or_zero] at hsplit
  exact hsplit

theorem and_not_of_apart {a s : UInt32} (h : a &&& s = 0) : a &&& ~~~s = a := by
  apply and_of_and_not
  rw [UInt32.not_not]
  exact h

/-- Clearing bits changes nothing apart from them. -/
theorem and_not_and_of_apart {a s m : UInt32} (h : s &&& m = 0) : a &&& ~~~s &&& m = a &&& m := by
  rw [UInt32.and_comm] at h
  rw [UInt32.and_assoc, UInt32.and_comm (~~~s), and_not_of_apart h]

/-- Bits that are moved down, cut and moved back stand where they stood. -/
theorem and_shiftLeft_of_shiftRight (word m : UInt32) {shift : UInt32} (hshift : shift < 32) :
    (word >>> shift &&& m) <<< shift = word &&& m <<< shift := by
  have hmod : (shift.toBitVec % 32).toNat = shift.toNat := by
    have hlt : shift.toNat < 32 := UInt32.lt_iff_toNat_lt.mp hshift
    simpa using hlt
  apply UInt32.toBitVec_inj.mp
  apply BitVec.eq_of_getLsbD_eq
  intro k hk
  simp only [UInt32.toBitVec_shiftLeft, UInt32.toBitVec_shiftRight, UInt32.toBitVec_and,
    BitVec.shiftLeft_eq', BitVec.ushiftRight_eq', hmod, BitVec.getLsbD_and,
    BitVec.getLsbD_shiftLeft, BitVec.getLsbD_ushiftRight]
  by_cases hlow : k < shift.toNat
  · simp [hlow]
  · have hplace : shift.toNat + (k - shift.toNat) = k := by omega
    simp only [hplace, hk, hlow, decide_true, decide_false, Bool.not_false, Bool.true_and]

/-- Of a single bit a word has nothing or all. -/
theorem and_one_shiftLeft (word : UInt32) {shift : UInt32} (hshift : shift < 32)
    (h : word &&& 1 <<< shift ≠ 0) : word &&& 1 <<< shift = 1 <<< shift := by
  have hlow : word >>> shift &&& 1 = 0 ∨ word >>> shift &&& 1 = 1 := by
    have hmod : (word >>> shift &&& 1).toNat = (word >>> shift).toNat % 2 := by
      rw [UInt32.toNat_and]
      exact Nat.and_two_pow_sub_one_eq_mod _ 1
    rcases Nat.mod_two_eq_zero_or_one (word >>> shift).toNat with hzero | hone
    · exact .inl (UInt32.toNat_inj.mp (hmod.trans hzero))
    · exact .inr (UInt32.toNat_inj.mp (hmod.trans hone))
  rw [← and_shiftLeft_of_shiftRight word 1 hshift] at h ⊢
  rcases hlow with hlow | hlow
  · rw [hlow, UInt32.zero_shiftLeft] at h
    exact absurd rfl h
  · rw [hlow]

end RegisterMachine
