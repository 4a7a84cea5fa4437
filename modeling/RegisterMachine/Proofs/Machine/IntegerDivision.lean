import RegisterMachine.Proofs.Machine.Allocation
import RegisterMachine.Proofs.Machine.Division

/-! Dividing integers.

The remainder of a quotient that is rounded down lies between zero and the divisor, which makes it
the only one (`FloorRemainder.iff_between`, `FloorRemainder.eq_fmod`). The processor's remainder
belongs to the quotient that is cut towards zero. It is as small, but has the sign of the dividend,
and adding the divisor once mends that (`FloorRemainder.corrected`). No such sum overflows, so the
floor modulo of words is the mathematical one (`floorRemainder_floorMod`). A quotient does, that of
the least integer by minus one, and is cut to its 32 bits (`toUInt32_div`). What an instruction
computes is all that its step does to the machine (`computation_step`), and
`integer_division_exact` puts both together. -/
namespace RegisterMachine

namespace Arithmetic

/-- `r` is what the division of `x` by `y` leaves if its quotient is rounded down. -/
structure FloorRemainder (x y r : ℤ) : Prop where
  divides : y ∣ x - r
  small : |r| < |y|
  sign : r = 0 ∨ r.sign = y.sign

namespace FloorRemainder

variable {x y r : ℤ}

/-- The remainder lies between zero and the divisor. -/
theorem iff_between : FloorRemainder x y r ↔ y ∣ x - r ∧ (0 ≤ r ∧ r < y ∨ y < r ∧ r ≤ 0) := by
  have hbetween : |r| < |y| ∧ (r = 0 ∨ r.sign = y.sign) ↔ 0 ≤ r ∧ r < y ∨ y < r ∧ r ≤ 0 := by
    rcases lt_trichotomy y 0 with hneg | rfl | hpos
    · rw [abs_of_neg hneg, abs_lt, Int.sign_eq_neg_one_of_neg hneg, Int.sign_eq_neg_one_iff_neg]
      omega
    · have hnonneg := abs_nonneg r
      rw [abs_zero]
      omega
    · rw [abs_of_pos hpos, abs_lt, Int.sign_eq_one_of_pos hpos, Int.sign_eq_one_iff_pos]
      omega
  rw [← hbetween]
  exact ⟨fun h => ⟨h.divides, h.small, h.sign⟩,
    fun ⟨hdivides, hsmall, hsign⟩ => ⟨hdivides, hsmall, hsign⟩⟩

/-- There is no other remainder. -/
theorem eq_fmod (h : FloorRemainder x y r) : r = x.fmod y := by
  obtain ⟨⟨q, hq⟩, hbetween⟩ := iff_between.mp h
  have hx : r + y * q = x := by rw [← hq, add_sub_cancel]
  rcases hbetween with ⟨hlow, hhigh⟩ | ⟨hlow, hhigh⟩
  · exact ((Int.fdiv_fmod_unique (hlow.trans_lt hhigh)).mpr ⟨hx, hlow, hhigh⟩).2.symm
  · exact ((Int.fdiv_fmod_unique' (hlow.trans_le hhigh)).mpr ⟨hx, hlow, hhigh⟩).2.symm

/-- A remainder that is small enough, whatever its sign, needs the divisor once at most. -/
theorem corrected (hdivides : y ∣ x - r) (hsmall : r.natAbs < y.natAbs) :
    FloorRemainder x y (if r ≠ 0 ∧ (r < 0) ≠ (y < 0) then r + y else r) := by
  rw [iff_between]
  split
  · rename_i hsigns
    rw [ne_eq (r < 0), eq_iff_iff] at hsigns
    -- the signs differ, so the sum is on the divisor's side of zero and still smaller
    refine ⟨?_, by omega⟩
    rw [← sub_sub]
    exact dvd_sub_self_right.mpr hdivides
  · rename_i hsigns
    rw [ne_eq (r < 0), eq_iff_iff] at hsigns
    exact ⟨hdivides, by omega⟩

end FloorRemainder

/-! ### Words -/

variable {x y : Int32}

theorem toInt_add_of_fits (h : Fits (x.toInt + y.toInt)) : (x + y).toInt = x.toInt + y.toInt := by
  obtain ⟨hlow, hhigh⟩ := h
  rw [Int32.toInt_add]
  exact Int.bmod_eq_of_le_mul_two (by omega) (by omega)

theorem toInt_floorMod (x y : Int32) : (floorMod x y).toInt =
    let r := x.toInt.tmod y.toInt
    if r ≠ 0 ∧ (r < 0) ≠ (y.toInt < 0) then r + y.toInt else r := by
  have hsigns : x % y ≠ 0 ∧ (x % y < 0) ≠ (y < 0) ↔ x.toInt.tmod y.toInt ≠ 0 ∧
      (x.toInt.tmod y.toInt < 0) ≠ (y.toInt < 0) := by
    rw [ne_eq, ← Int32.toInt_inj, Int32.lt_iff_toInt_lt, Int32.lt_iff_toInt_lt, Int32.toInt_mod]
    rfl
  unfold floorMod
  dsimp only
  split
  · rename_i h
    rw [if_pos (hsigns.mp h), toInt_add_of_fits (fits_add h.2), Int32.toInt_mod]
  · rename_i h
    rw [if_neg (mt hsigns.mpr h), Int32.toInt_mod]

theorem floorRemainder_floorMod (hy : y ≠ 0) :
    FloorRemainder x.toInt y.toInt (floorMod x y).toInt := by
  have hsmall : (x.toInt.tmod y.toInt).natAbs < y.toInt.natAbs := by
    rw [Int.natAbs_tmod]
    exact Nat.mod_lt _ (Int.natAbs_pos.mpr (toInt_ne_zero hy))
  rw [toInt_floorMod]
  exact FloorRemainder.corrected Int.dvd_self_sub_tmod hsmall

theorem toUInt32_ofInt (n : ℤ) : (Int32.ofInt n).toUInt32 = UInt32.ofInt n := by
  apply UInt32.toNat_inj.mp
  rw [UInt32.ofInt, UInt32.toNat_ofNat']
  show (BitVec.ofInt 32 n).toNat = _
  rw [BitVec.toNat_ofInt]
  omega

/-- The quotient is cut to 32 bits, whether it has more of them or not. -/
theorem toUInt32_div (x y : Int32) : (x / y).toUInt32 = UInt32.ofInt (x.toInt.tdiv y.toInt) := by
  have hquotient : Int32.ofInt (x.toInt.tdiv y.toInt) = x / y := by
    rw [Int32.ofInt_eq_iff_bmod_eq_toInt, Int32.toInt_div]
  rw [← hquotient, toUInt32_ofInt]

end Arithmetic

namespace Machine

variable {m m' : Machine} {d : Decoded} {rd : Reg} {value : UInt32}
  {answer : Except Interrupt UInt32}

/-! ### Instructions that compute a word -/

/-- The step assigns this word to the register. Behind the interrupts of the host, nothing else has
changed but the program counter. -/
structure Assigns (m : Machine) (rd : Reg) (value : UInt32) : Prop where
  answer : m.step.answer = .ok .running
  stored : m.step.machine.context.registers.get rd = value
  rest : ∃ m', m.Arrives m' ∧ m.step.machine = m'.advance.assign rd value

theorem plan_of_result (h : Arithmetic.result d.instruction (m.context.read (d.operand 1))
    (m.context.read (d.operand 2)) = some answer) :
    m.plan d = onContext (answer.map fun value => m.context.assign (d.reg 0) value) := by
  cases hi : d.instruction <;> rw [hi] at h
  -- an instruction that the plan names itself has no result
  all_goals
    first
      | (simp only [plan, hi, h]; done)
      | cases h

theorem assigns_of_plan (h : m.Arrives m') (hd : m'.Executes d)
    (hplan : m'.advance.plan d = .ok (.context (m'.advance.context.assign rd value))) :
    m.Assigns rd value := by
  have hperform : m'.advance.perform (.context (m'.advance.context.assign rd value)) =
      (m'.advance.assign rd value).done :=
    congrArg done (modifyContext_congr rfl)
  have hrunning : (m'.advance.assign rd value).halted = false :=
    (h.onlyEnters.trans m'.onlyEnters_advance).halted.trans h.running
  obtain ⟨hstep, hanswer⟩ := step_of_perform h hd hplan hperform hrunning
  refine ⟨hanswer, ?_, m', h, hstep⟩
  rw [hstep, assign, context_modifyContext]
  exact Vector.getElem_set_self _

/-- What the instruction computes from the registers before the step is assigned, or raised if it is
an interrupt. -/
theorem computation_step (hnext : m.upcoming = some d)
    (hresult : Arithmetic.result d.instruction (m.context.read (d.operand 1))
      (m.context.read (d.operand 2)) = some answer) :
    match answer with
    | .ok value => m.Assigns (d.reg 0) value
    | .error i => m.Refuses i := by
  obtain ⟨m', harrives, hexecutes⟩ := executes_of_upcoming hnext
  have hagrees : m.Agrees m'.advance := harrives.agrees.trans m'.agrees_advance
  rw [← read_of_agrees hagrees, ← read_of_agrees hagrees] at hresult
  have hplan := plan_of_result hresult
  cases answer with
  | ok value => exact assigns_of_plan harrives hexecutes hplan
  | error i => exact refuses_of_plan harrives hexecutes hplan

/-! ### Instructions that divide integers -/

theorem division_step {f : Int32 → Int32 → Int32} (hnext : m.upcoming = some d)
    (hresult : ∀ x y, Arithmetic.result d.instruction x y = some (Arithmetic.division f x y)) :
    if m.context.read (d.operand 2) = 0 then m.Refuses .divideByZero
    else m.Assigns (d.reg 0)
      (Arithmetic.integer2 f (m.context.read (d.operand 1)) (m.context.read (d.operand 2))) := by
  have hresult := hresult (m.context.read (d.operand 1)) (m.context.read (d.operand 2))
  by_cases hzero : m.context.read (d.operand 2) = 0
  · rw [Arithmetic.division, if_pos hzero] at hresult
    rw [if_pos hzero]
    exact computation_step hnext hresult
  · rw [Arithmetic.division, if_neg hzero] at hresult
    rw [if_neg hzero]
    exact computation_step hnext hresult

/-- **Integer division is exact.** The floor modulo of 32-bit integers is the mathematical floor
remainder, also where the remainder of the processor has to be corrected. `MODINT` stores it and
`DIVINT` the quotient, cut towards zero and to 32 bits, whatever the operands; a divisor of zero
raises a fault instead. -/
theorem integer_division_exact :
    (∀ x y : Int32, y ≠ 0 →
      Arithmetic.FloorRemainder x.toInt y.toInt (Arithmetic.floorMod x y).toInt ∧
        (Arithmetic.floorMod x y).toInt = x.toInt.fmod y.toInt) ∧
      ∀ (m : Machine) (d : Decoded), m.upcoming = some d →
        let x := m.context.read (d.operand 1)
        let y := m.context.read (d.operand 2)
        (d.instruction = .modInt →
          if y = 0 then m.Refuses .divideByZero
          else m.Assigns (d.reg 0) (Arithmetic.floorMod x.toInt32 y.toInt32).toUInt32) ∧
        (d.instruction = .divInt →
          if y = 0 then m.Refuses .divideByZero
          else m.Assigns (d.reg 0) (UInt32.ofInt (x.toInt32.toInt.tdiv y.toInt32.toInt))) := by
  refine ⟨fun x y hy => ?_, fun m d hnext => ⟨fun hmod => ?_, fun hdiv => ?_⟩⟩
  · have hfloor : Arithmetic.FloorRemainder x.toInt y.toInt (Arithmetic.floorMod x y).toInt :=
      Arithmetic.floorRemainder_floorMod hy
    exact ⟨hfloor, hfloor.eq_fmod⟩
  · have hresult : ∀ x y, Arithmetic.result d.instruction x y =
        some (Arithmetic.division Arithmetic.floorMod x y) := fun x y => by rw [hmod]; rfl
    exact division_step hnext hresult
  · have hresult : ∀ x y, Arithmetic.result d.instruction x y =
        some (Arithmetic.division (· / ·) x y) := fun x y => by rw [hdiv]; rfl
    have hstep := division_step hnext hresult
    rw [Arithmetic.integer2, Arithmetic.toUInt32_div] at hstep
    exact hstep

/-- The smallest machine, about to divide one by the least integer, and then that by minus one. -/
def dividing : Machine :=
  (((((blank ⟨512, 1, false, false, 0⟩).act (.loadSource
    "inc r1; loadwordi r2, 80000000h; dec r3; modint r4, r1, r2; divint r5, r2, r3;")).act
    .step).act .step).act .step).act .step

theorem integer_division_exact_extremes :
    Arithmetic.FloorRemainder 1 (-2 ^ 31) (-2147483647) ∧
      dividing.Assigns 3 (UInt32.ofInt (-2147483647)) ∧
      (dividing.act .step).Assigns 4 (UInt32.ofInt (2 ^ 31)) := by
  let after : Machine := dividing.act .step
  have hnext : dividing.upcoming.map (fun d => (d.instruction, d.reg 0,
        dividing.context.read (d.operand 1), dividing.context.read (d.operand 2))) =
          some (.modInt, 3, 1, 0x80000000) ∧
      after.upcoming.map (fun d => (d.instruction, d.reg 0,
        after.context.read (d.operand 1), after.context.read (d.operand 2))) =
          some (.divInt, 4, 0x80000000, 0xFFFFFFFF) := by decide +kernel
  simp only [Option.map_eq_some_iff, Prod.mk.injEq] at hnext
  obtain ⟨⟨d, hd, hi, hrd, hx, hy⟩, d', hd', hi', hrd', hx', hy'⟩ := hnext
  have hfloor := (integer_division_exact.1 1 Int32.minValue (by decide)).1
  have hmodulo := (integer_division_exact.2 dividing d hd).1 hi
  have hquotient := (integer_division_exact.2 after d' hd').2 hi'
  rw [hrd, hx, hy, if_neg (by decide)] at hmodulo
  rw [hrd', hx', hy', if_neg (by decide)] at hquotient
  exact ⟨hfloor, hmodulo, hquotient⟩

end Machine

end RegisterMachine
