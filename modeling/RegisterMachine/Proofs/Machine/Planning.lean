import RegisterMachine.Proofs.Machine.Step

/-! Which instruction plans which effect.

Most instructions plan an effect on the active context. Each of the others plans one kind of
effect, and no effect but that on the active context is planned by two kinds of instruction:
`Effect.From` is the inventory, and `plan_from` checks it once for each way of planning. What
an effect can change is then known from the instruction. -/
namespace RegisterMachine

/-- The instruction stores a value. -/
def Instruction.isStore : Instruction → Bool
  | .storeByte | .storeHword | .storeWord | .storeByteI | .storeHwordI | .storeWordIMem => true
  | _ => false

/-- The effect is one that this instruction plans in this context. -/
def Effect.From (c : Context) (d : Decoded) : Effect → Prop
  | .context _ => True
  | .halt => d.instruction = .halt
  | .write _ _ _ => d.instruction.isStore = true ∨ d.instruction = .memcpy
  | .allocate _ _ cleared => d.instruction = if cleared then .calloc else .malloc
  | .release _ => d.instruction = .free
  | .switch id => d.instruction = .ctxsw ∧ id < ContextTable.limit ∧
    id = (c.read (d.operand 0)).toNat
  | .yield => d.instruction = .yield
  | .draw _ .word => d.instruction = .rndi
  | .draw _ .float => d.instruction = .rnd
  | .readByte _ => d.instruction = .getchar
  | .writeByte _ => d.instruction = .putchar
  | .callDevice slot _ => d.instruction = .call ∧ slot = d.imm
  | .ignore _ => d.instruction = .int

namespace Machine

/-- Whatever is planned, it is an effect of this kind. -/
def Plans (P : Effect → Prop) (plan : Except Stop Effect) : Prop := ∀ e, plan = .ok e → P e

variable {P : Effect → Prop} {m : Machine} {e : Effect} {d : Decoded}

theorem plans_ok (h : P e) : Plans P (.ok e) := by
  rintro _ ⟨⟩
  exact h

theorem plans_error (stop : Stop) : Plans P (.error stop) := nofun

theorem plans_onContext (h : ∀ c, P (.context c)) (x : Except Interrupt Context) :
    Plans P (onContext x) := by
  intro e hok
  obtain ⟨c, -, rfl⟩ := map_ok_iff.mp (mapError_ok_iff.mp hok)
  exact h c

theorem plans_planLoad (h : ∀ c, P (.context c)) (m : Machine) (rd : Reg)
    (device address : UInt32) (width : Nat) : Plans P (m.planLoad rd device address width) := by
  intro e hok
  obtain ⟨space, -, hok⟩ := bind_ok_iff.mp hok
  obtain ⟨value, -, hok⟩ := bind_ok_iff.mp hok
  exact Except.ok.inj hok ▸ h _

theorem plans_planStore (h : ∀ device start bytes, P (.write device start bytes)) (m : Machine)
    (device address : UInt32) (width : Nat) (value : UInt32) :
    Plans P (m.planStore device address width value) := by
  intro e hok
  obtain ⟨space, -, hok⟩ := bind_ok_iff.mp hok
  obtain ⟨start, -, hok⟩ := bind_ok_iff.mp hok
  exact Except.ok.inj hok ▸ h _ _ _

theorem plans_planCopy (h : ∀ device start bytes, P (.write device start bytes)) (m : Machine)
    (toDevice fromDevice count source target : UInt32) :
    Plans P (m.planCopy toDevice fromDevice count source target) := by
  intro e hok
  obtain ⟨space, -, hok⟩ := bind_ok_iff.mp hok
  obtain ⟨bytes, -, hok⟩ := bind_ok_iff.mp hok
  obtain ⟨space', -, hok⟩ := bind_ok_iff.mp hok
  obtain ⟨start, -, hok⟩ := bind_ok_iff.mp hok
  exact Except.ok.inj hok ▸ h _ _ _

theorem plans_planAllocation {cleared : Bool} (h : ∀ rd size, P (.allocate rd size cleared))
    (m : Machine) (rd : Reg) (size : UInt32) : Plans P (m.planAllocation rd size cleared) := by
  rw [planAllocation]
  cases m.allocator.request size.toNat with
  | ok b => exact plans_ok (h rd size)
  | error e => exact plans_error _

theorem plans_planRelease (h : ∀ b, P (.release b)) (m : Machine) (address size : UInt32) :
    Plans P (m.planRelease address size) := by
  rw [planRelease]
  cases wordAlign size.toNat with
  | none => exact plans_error _
  | some aligned =>
    dsimp only
    split
    · exact plans_ok (h _)
    · exact plans_error _

theorem plans_planInterrupt (h : ∀ vector, P (.ignore vector)) (vector : UInt32) :
    Plans P (planInterrupt vector) := by
  rw [planInterrupt]
  split
  · exact plans_error _
  · cases Interrupt.ofIndex? vector.toNat with
    | none => exact plans_ok (h vector)
    | some i => exact plans_error _

theorem plans_planSize (h : ∀ c, P (.context c)) (m : Machine) (rd : Reg) (device : UInt32) :
    Plans P (m.planSize rd device) := by
  rw [planSize]
  split
  · exact plans_ok (h _)
  · intro e hok
    obtain ⟨space, -, hok⟩ := bind_ok_iff.mp hok
    exact Except.ok.inj hok ▸ h _

/-- An instruction plans effects of its own kind only. -/
theorem plan_from (m : Machine) (d : Decoded) : Plans (Effect.From m.context d) (m.plan d) := by
  have hcontext : ∀ c, Effect.From m.context d (.context c) := fun _ => trivial
  cases hi : d.instruction <;> simp only [plan, hi, Arithmetic.result]
  case call =>
    split
    · exact plans_ok ⟨hi, rfl⟩
    · exact plans_error _
  case ctxsw =>
    split
    · rename_i hlt
      exact plans_ok ⟨hi, hlt, rfl⟩
    · exact plans_error _
  case halt | yield | getchar | putchar | rndi | rnd => exact plans_ok hi
  case cmp | cmpIf | cmpFi | cmpFf | push | pushWordI | pop | popWordI | ret | jsr | jsrI =>
    exact plans_onContext hcontext _
  case loadByte | loadHword | loadWord | loadWordIMem => exact plans_planLoad hcontext m _ _ _ _
  case storeByte | storeHword | storeWord | storeByteI | storeHwordI | storeWordIMem =>
    exact plans_planStore (fun _ _ _ => .inl (by rw [hi]; rfl)) m _ _ _ _
  case memcpy => exact plans_planCopy (fun _ _ _ => .inr hi) m _ _ _ _ _
  case malloc | calloc => exact plans_planAllocation (fun _ _ => hi) m _ _
  case free => exact plans_planRelease (fun _ => hi) m _ _
  case memSize => exact plans_planSize hcontext m _ _
  case int => exact plans_planInterrupt (fun _ => hi) _
  -- what is left assigns registers or jumps, some of it with a result that may be a fault
  all_goals
    first
      | exact plans_ok (hcontext _)
      | exact plans_onContext hcontext _

/-- Only a `CALL` calls a device, and it calls the one that its immediate names. -/
theorem plan_callDevice {slot argument : UInt32} (h : m.plan d = .ok (.callDevice slot argument)) :
    d.instruction = .call ∧ slot = d.imm :=
  m.plan_from d _ h

/-- Only a `CTXSW` changes to another context, to the one that its operand names. -/
theorem plan_switch {id : Nat} (h : m.plan d = .ok (.switch id)) :
    d.instruction = .ctxsw ∧ id < ContextTable.limit ∧
      id = (m.context.read (d.operand 0)).toNat :=
  m.plan_from d _ h

end Machine
end RegisterMachine
