import RegisterMachine.Proofs.Machine.ContextTable
import RegisterMachine.Proofs.Machine.Reachable

/-! What instructions make of contexts.

Programs are arbitrary words: they store, jump, switch contexts, allocate, release
and fault as they please. Whatever an instruction plans for the active context leaves
the call stack, pushes one word or pops one (`Context.Planned`). So it is tame
(`Context.Tame`): it pushes nothing into the reserve of the call stack, and a flag it
sets is the result of a comparison. One instruction may add a context, whose
reserve is free. So `ContextTable.Evolves` says what becomes of all contexts, and
`evolves_cycle` proves it of the fetch and execution of any word. Only the delivery
of an interrupt is not of this kind, since it pushes into the reserve if need be. -/
namespace RegisterMachine

/-- The stack holds more words than its capacity, the last of them in the reserve. -/
def CallStack.Overfull (s : CallStack) : Prop := s.capacity < s.size

/-- The stack holds no more words than its capacity and the reserve. -/
def CallStack.WithinReserve (s : CallStack) : Prop := s.size ≤ s.capacity + CallStack.reserve

theorem CallStack.withinReserve_of_not_overfull {s : CallStack} (h : ¬s.Overfull) :
    s.WithinReserve :=
  Nat.le_add_right_of_le (Nat.not_lt.mp h)

/-- The delivery of an interrupt pushes into the reserve only where there is room. -/
theorem CallStack.withinReserve_pushReserved {s s' : CallStack} {word : UInt32}
    (h : s.pushReserved? word = some s') : s'.WithinReserve := by
  unfold pushReserved? at h
  split at h
  · rename_i hroom
    obtain rfl := Option.some.inj h
    exact Nat.succ_le_of_lt hroom
  · exact absurd h (by simp)

namespace Context

/-- The flag is the result of a comparison. -/
def FlagInRange (c : Context) : Prop := c.flag = -1 ∨ c.flag = 0 ∨ c.flag = 1

/-- All that an instruction makes of the stack and the flag: it pushes nothing into the reserve. -/
structure Tame (c c' : Context) : Prop where
  capacity : c'.stack.capacity = c.stack.capacity
  size : c'.stack.Overfull → c'.stack.size ≤ c.stack.size
  flag : c.FlagInRange → c'.FlagInRange

variable {c c' c'' : Context}

theorem Tame.trans (h : c.Tame c') (h' : c'.Tame c'') : c.Tame c'' where
  capacity := h'.capacity.trans h.capacity
  size hfull := by
    have hsize := h'.size hfull
    have hcapacity := h'.capacity
    refine Nat.le_trans hsize (h.size ?_)
    unfold CallStack.Overfull at *
    omega
  flag hflag := h'.flag (h.flag hflag)

theorem flagInRange_of_same (hflag : c'.flag = c.flag) (h : c.FlagInRange) : c'.FlagInRange := by
  unfold FlagInRange
  rw [hflag]
  exact h

theorem tame_of_same (hstack : c'.stack = c.stack) (hflag : c'.flag = c.flag) : c.Tame c' where
  capacity := by rw [hstack]
  size _ := by rw [hstack]
  flag := flagInRange_of_same hflag

theorem Tame.refl (c : Context) : c.Tame c := tame_of_same rfl rfl

/-! ### What is planned for the active context -/

/-- All that an instruction can plan for the active context: it leaves the call stack as it is,
pushes one word or pops one. -/
inductive Planned (c c' : Context) : Prop
  | keeps (hstack : c'.stack = c.stack) (hflag : c.FlagInRange → c'.FlagInRange)
  | pushes (word : UInt32) (hpush : c.stack.push word = .ok c'.stack) (hflag : c'.flag = c.flag)
  | pops (word : UInt32) (hpop : c.stack.pop = .ok (word, c'.stack)) (hflag : c'.flag = c.flag)

theorem planned_of_same (hstack : c'.stack = c.stack) (hflag : c'.flag = c.flag) : c.Planned c' :=
  .keeps hstack (flagInRange_of_same hflag)

theorem planned_push {word : UInt32} (h : c.push word = .ok c') : c.Planned c' := by
  obtain ⟨stack, hpush, rfl⟩ := map_ok_iff.mp h
  exact .pushes word hpush rfl

theorem planned_call {target : UInt32} (h : c.call target = .ok c') : c.Planned c' := by
  obtain ⟨pushed, hpushed, rfl⟩ := map_ok_iff.mp h
  obtain ⟨stack, hpush, rfl⟩ := map_ok_iff.mp hpushed
  exact .pushes c.pc hpush rfl

/-- What is popped may go anywhere but to the stack and the flag. -/
theorem planned_pop {word : UInt32} {popped : Context} (h : c.pop = .ok (word, popped))
    (hstack : c'.stack = popped.stack) (hflag : c'.flag = popped.flag) : c.Planned c' := by
  obtain ⟨⟨top, stack⟩, hpop, heq⟩ := map_ok_iff.mp h
  obtain ⟨rfl, rfl⟩ := Prod.mk.inj heq
  exact .pops top (hstack ▸ hpop) hflag

theorem planned_compareInt (c : Context) (x y : Int32) :
    c.Planned { c with flag := Arithmetic.compareInt x y } := by
  refine .keeps rfl fun _ => ?_
  show Arithmetic.compareInt x y = -1 ∨ _ = 0 ∨ _ = 1
  unfold Arithmetic.compareInt
  split
  · exact .inl rfl
  · split
    · exact .inr (.inl rfl)
    · exact .inr (.inr rfl)

theorem planned_compareFloat {x y : Float} {flag : Int}
    (h : Arithmetic.compareFloat x y = .ok flag) : c.Planned { c with flag } := by
  refine .keeps rfl fun _ => ?_
  show flag = -1 ∨ flag = 0 ∨ flag = 1
  unfold Arithmetic.compareFloat at h
  split at h
  · exact .inl (Except.ok.inj h).symm
  · split at h
    · exact .inr (.inl (Except.ok.inj h).symm)
    · split at h
      · exact .inr (.inr (Except.ok.inj h).symm)
      · exact absurd h (by simp)

theorem Planned.tame (h : c.Planned c') : c.Tame c' := by
  cases h with
  | keeps hstack hflag => exact ⟨by rw [hstack], fun _ => by rw [hstack], hflag⟩
  | pushes word hpush hflag =>
    unfold CallStack.push at hpush
    split at hpush
    · rename_i hlt
      have hstack := (Except.ok.inj hpush).symm
      refine ⟨by rw [hstack], fun hfull => ?_, flagInRange_of_same hflag⟩
      rw [hstack] at hfull
      have hfull : c.stack.capacity < c.stack.size + 1 := hfull
      omega
    · exact absurd hpush (by simp)
  | pops word hpop hflag =>
    unfold CallStack.pop at hpop
    split at hpop
    · exact absurd hpop (by simp)
    · rename_i top rest hwords
      obtain ⟨-, hstack⟩ := Prod.mk.inj (Except.ok.inj hpop)
      refine ⟨by rw [← hstack], fun _ => ?_, flagInRange_of_same hflag⟩
      rw [← hstack]
      show rest.length ≤ c.stack.words.length
      rw [hwords]
      exact Nat.le_succ _

/-! ### What a context is like -/

/-- The flag is in range and the reserve of the stack is free. -/
structure Modest (c : Context) : Prop where
  flag : c.FlagInRange
  stack : ¬c.stack.Overfull

/-- The flag is in range and the stack holds no more than its reserve beyond its capacity. -/
structure Sane (c : Context) : Prop where
  flag : c.FlagInRange
  stack : c.stack.size ≤ c.stack.capacity + CallStack.reserve

theorem Modest.tame (h : c.Modest) (ht : c.Tame c') : c'.Modest where
  flag := ht.flag h.flag
  stack hfull := by
    have hsize := ht.size hfull
    have hcapacity := ht.capacity
    refine h.stack ?_
    unfold CallStack.Overfull at *
    omega

theorem Tame.withinReserve (ht : c.Tame c') (h : c.stack.WithinReserve) :
    c'.stack.WithinReserve := by
  by_cases hfull : c'.stack.Overfull
  · have hsize := ht.size hfull
    have hcapacity := ht.capacity
    unfold CallStack.WithinReserve at *
    omega
  · exact CallStack.withinReserve_of_not_overfull hfull

/-- A context that is about to run a program. -/
theorem modest_entered (capacity : Nat) (entry origin : UInt32) :
    Modest { fresh capacity with pc := entry, st := origin } where
  flag := .inr (.inl rfl)
  stack := Nat.not_lt_zero capacity

theorem modest_fresh (capacity : Nat) : (fresh capacity).Modest := modest_entered capacity 0 0

/-- A property of contexts that nothing but the edit of a host takes away: no tame change does, nor
the delivery of an interrupt, and a fresh context has it. -/
structure Lasting (P : Context → Prop) : Prop where
  modest : ∀ {c}, c.Modest → P c
  tame : ∀ {c c'}, P c → c.Tame c' → P c'
  pushReserved : ∀ {c word stack} target, P c → c.stack.pushReserved? word = some stack →
    P { c with stack, pc := target }

theorem lasting_withinReserve : Lasting fun c => c.stack.WithinReserve where
  modest h := CallStack.withinReserve_of_not_overfull h.stack
  tame h ht := ht.withinReserve h
  pushReserved _ _ hpush := CallStack.withinReserve_pushReserved hpush

theorem lasting_sane : Lasting Sane where
  modest h := ⟨h.flag, lasting_withinReserve.modest h⟩
  tame h ht := ⟨ht.flag h.flag, ht.withinReserve h.stack⟩
  pushReserved _ h hpush := ⟨h.flag, CallStack.withinReserve_pushReserved hpush⟩

end Context

namespace ContextTable

/-- All that anything but the delivery of an interrupt makes of a table: the capacity of new stacks
is the same, the contexts stay numbered, and each of them is a tame change of one that was there or
has a free reserve. -/
structure Evolves (t t' : ContextTable) : Prop where
  capacity : t'.stackCapacity = t.stackCapacity
  numbered : t.Numbered → t'.Numbered
  contexts : t.Numbered → ∀ id c', t'.get? id = some c' →
    c'.Modest ∨ ∃ c, t.get? id = some c ∧ c.Tame c'

/-- No stack is filled further into its reserve. -/
def KeepsWithin (t t' : ContextTable) : Prop :=
  ∀ id c', t'.get? id = some c' → c'.stack.Overfull →
    ∃ c, t.get? id = some c ∧ c'.stack.capacity = c.stack.capacity ∧ c'.stack.size ≤ c.stack.size

/-- The contexts are numbered, and all of them have a property. -/
structure Each (P : Context → Prop) (t : ContextTable) : Prop where
  numbered : t.Numbered
  contexts : ∀ id c, t.get? id = some c → P c

/-- The contexts are numbered, and all of them are sane. -/
structure Sane (t : ContextTable) : Prop where
  numbered : t.Numbered
  contexts : ∀ id c, t.get? id = some c → c.Sane

variable {t t' t'' : ContextTable} {id : Nat} {P : Context → Prop}

theorem sane_iff_each : t.Sane ↔ t.Each Context.Sane :=
  ⟨fun h => ⟨h.numbered, h.contexts⟩, fun h => ⟨h.numbered, h.contexts⟩⟩

theorem Evolves.refl (t : ContextTable) : t.Evolves t :=
  ⟨rfl, fun h => h, fun _ _ c hc => .inr ⟨c, hc, .refl c⟩⟩

theorem Evolves.trans (h : t.Evolves t') (h' : t'.Evolves t'') : t.Evolves t'' where
  capacity := h'.capacity.trans h.capacity
  numbered ht := h'.numbered (h.numbered ht)
  contexts ht id c'' hc'' := by
    rcases h'.contexts (h.numbered ht) id c'' hc'' with hmodest | ⟨c', hc', htame'⟩
    · exact .inl hmodest
    · rcases h.contexts ht id c' hc' with hmodest | ⟨c, hc, htame⟩
      · exact .inl (hmodest.tame htame')
      · exact .inr ⟨c, hc, htame.trans htame'⟩

theorem evolves_modify {f : Context → Context} (h : t.current.Tame (f t.current)) :
    t.Evolves (t.modify f) where
  capacity := rfl
  numbered ht := ht.congr (t.ids_modify f)
  contexts ht id c' hc' := by
    rw [get?_modify ht.distinct] at hc'
    split at hc'
    · rename_i hid
      obtain rfl := Option.some.inj hc'
      exact .inr ⟨t.current, hid ▸ get?_activeId ht.distinct, h⟩
    · exact .inr ⟨c', hc', .refl c'⟩

theorem evolves_ensure (h : t.ensure id = .ok t') : t.Evolves t' where
  capacity := by rcases ensure_ok h with ⟨-, ⟨-, rfl⟩ | ⟨-, rfl⟩⟩ <;> rfl
  numbered ht := ht.ensure h
  contexts _ other c' hc' := by
    rcases get?_of_ensure h hc' with hold | rfl
    · exact .inr ⟨c', hold, .refl c'⟩
    · exact .inl (Context.modest_fresh _)

theorem evolves_activate (t : ContextTable) (id : Nat) : t.Evolves (t.activate id) where
  capacity := by
    unfold activate
    split <;> rfl
  numbered ht := ht.congr (t.ids_activate id)
  contexts _ other c' hc' := .inr ⟨c', (t.get?_activate other id).symm.trans hc', .refl c'⟩

theorem evolves_switch {created : Bool} (h : t.switch id = .ok (created, t')) : t.Evolves t' := by
  obtain ⟨ensured, hensured, rfl⟩ := switch_ok h
  exact (evolves_ensure hensured).trans (evolves_activate ensured id)

theorem evolves_set {c : Context} (hid : id ∈ t.ids) (hc : c.Modest) : t.Evolves (t.set id c) where
  capacity := rfl
  numbered ht := ht.congr (t.ids_set id c)
  contexts _ other c' hc' := by
    rw [get?_set hid] at hc'
    split at hc'
    · exact .inl (Option.some.inj hc' ▸ hc)
    · exact .inr ⟨c', hc', .refl c'⟩

theorem Evolves.keepsWithin (h : t.Evolves t') (ht : t.Numbered) : t.KeepsWithin t' := by
  intro id c' hc' hfull
  rcases h.contexts ht id c' hc' with hmodest | ⟨c, hc, htame⟩
  · exact absurd hfull hmodest.stack
  · exact ⟨c, hc, htame.capacity, htame.size hfull⟩

theorem Each.evolves (h : t.Each P) (hP : Context.Lasting P) (ht : t.Evolves t') :
    t'.Each P where
  numbered := ht.numbered h.numbered
  contexts id c' hc' := by
    rcases ht.contexts h.numbered id c' hc' with hmodest | ⟨c, hc, htame⟩
    · exact hP.modest hmodest
    · exact hP.tame (h.contexts id c hc) htame

theorem Each.modify (h : t.Each P) {f : Context → Context} (hf : P (f t.current)) :
    (t.modify f).Each P where
  numbered := h.numbered.congr (t.ids_modify f)
  contexts id c hc := by
    rw [get?_modify h.numbered.distinct] at hc
    split at hc
    · exact Option.some.inj hc ▸ hf
    · exact h.contexts id c hc

theorem Each.current (h : t.Each P) : P t.current :=
  h.contexts t.activeId t.current (get?_activeId h.numbered.distinct)

theorem each_create (hP : Context.Lasting P) (stackCapacity : Nat) :
    (create stackCapacity).Each P where
  numbered := numbered_create stackCapacity
  contexts id c hc := by
    obtain ⟨slot, hslot, rfl⟩ := Option.map_eq_some_iff.mp hc
    obtain rfl := Array.mem_singleton.mp (Array.mem_of_find?_eq_some hslot)
    exact hP.modest (Context.modest_fresh stackCapacity)

theorem sane_create (stackCapacity : Nat) : (create stackCapacity).Sane :=
  sane_iff_each.mpr (each_create Context.lasting_sane stackCapacity)

end ContextTable

namespace Machine
open Context

/-- If this plan is an effect on the active context, that is one which can be planned. -/
def PlansOn (c : Context) (plan : Except Stop Effect) : Prop :=
  ∀ c', plan = .ok (.context c') → c.Planned c'

/-- If this plan is an effect on the active context, that is tame. -/
def Tames (c : Context) (plan : Except Stop Effect) : Prop :=
  ∀ c', plan = .ok (.context c') → c.Tame c'

variable {c : Context}

theorem plansOn_context {c' : Context} (h : c.Planned c') : PlansOn c (.ok (.context c')) := by
  rintro _ heq
  obtain rfl := Effect.context.inj (Except.ok.inj heq)
  exact h

theorem plansOn_onContext {x : Except Interrupt Context} (h : ∀ c', x = .ok c' → c.Planned c') :
    PlansOn c (onContext x) := by
  intro c' heq
  obtain ⟨c'', hx, heq⟩ := map_ok_iff.mp (mapError_ok_iff.mp heq)
  exact Effect.context.inj heq ▸ h c'' hx

theorem plansOn_onContext_map {α : Type} {x : Except Interrupt α} {f : α → Context}
    (h : ∀ a, x = .ok a → c.Planned (f a)) : PlansOn c (onContext (x.map f)) :=
  plansOn_onContext fun c' heq => by
    obtain ⟨a, hx, rfl⟩ := map_ok_iff.mp heq
    exact h a hx

theorem plansOn_assign (c : Context) (rd : Reg) (value : UInt32) :
    PlansOn c (.ok (.context (c.assign rd value))) :=
  plansOn_context (planned_of_same rfl rfl)

theorem plansOn_planLoad (m : Machine) (rd : Reg) (device address : UInt32) (width : Nat) :
    PlansOn m.context (m.planLoad rd device address width) := by
  intro c' h
  obtain ⟨space, -, h⟩ := bind_ok_iff.mp h
  obtain ⟨value, -, h⟩ := bind_ok_iff.mp h
  exact plansOn_assign _ _ _ c' h

theorem plansOn_planStore (m : Machine) (device address : UInt32) (width : Nat) (value : UInt32) :
    PlansOn m.context (m.planStore device address width value) := by
  intro c' h
  obtain ⟨space, -, h⟩ := bind_ok_iff.mp h
  obtain ⟨start, -, h⟩ := bind_ok_iff.mp h
  exact absurd h (by simp)

theorem plansOn_planCopy (m : Machine) (toDevice fromDevice count source target : UInt32) :
    PlansOn m.context (m.planCopy toDevice fromDevice count source target) := by
  intro c' h
  obtain ⟨space, -, h⟩ := bind_ok_iff.mp h
  obtain ⟨bytes, -, h⟩ := bind_ok_iff.mp h
  obtain ⟨space', -, h⟩ := bind_ok_iff.mp h
  obtain ⟨start, -, h⟩ := bind_ok_iff.mp h
  exact absurd h (by simp)

theorem plansOn_planAllocation (m : Machine) (rd : Reg) (size : UInt32) (cleared : Bool) :
    PlansOn m.context (m.planAllocation rd size cleared) := by
  intro c'
  rw [planAllocation]
  cases m.allocator.request size.toNat <;> simp

theorem plansOn_planRelease (m : Machine) (address size : UInt32) :
    PlansOn m.context (m.planRelease address size) := by
  intro c'
  rw [planRelease]
  cases wordAlign size.toNat with
  | none => simp
  | some aligned =>
    dsimp only
    split <;> simp

theorem plansOn_planInterrupt (c : Context) (vector : UInt32) :
    PlansOn c (planInterrupt vector) := by
  intro c'
  unfold planInterrupt
  split
  · simp
  · cases Interrupt.ofIndex? vector.toNat <;> simp

theorem plansOn_planSize (m : Machine) (rd : Reg) (device : UInt32) :
    PlansOn m.context (m.planSize rd device) := by
  intro c' h
  unfold planSize at h
  split at h
  · exact plansOn_assign _ _ _ c' h
  · obtain ⟨space, -, h⟩ := bind_ok_iff.mp h
    exact plansOn_assign _ _ _ c' h

/-- Whether or not a jump is taken, only the program counter changes. -/
theorem plansOn_jumpIf (c : Context) (taken : Bool) (target : UInt32) :
    PlansOn c (.ok (.context (if taken then c.jump target else c))) := by
  cases taken <;> exact plansOn_context (planned_of_same rfl rfl)

/-- Whatever an instruction plans for the active context can be planned. -/
theorem plansOn_plan (m : Machine) (d : Decoded) : PlansOn m.context (m.plan d) := by
  cases hi : d.instruction <;> simp only [plan, hi, Arithmetic.result]
  case halt | rndi | rnd | yield | getchar | putchar => exact nofun
  case ctxsw | call => split <;> exact nofun
  case jz | jnz | jgt | jls => exact plansOn_jumpIf _ _ _
  case cmp => exact plansOn_onContext_map fun _ h => Except.ok.inj h ▸ planned_compareInt _ _ _
  case cmpIf | cmpFi | cmpFf => exact plansOn_onContext_map fun _ h => planned_compareFloat h
  case push | pushWordI => exact plansOn_onContext fun _ => planned_push
  case pop | popWordI | ret => exact plansOn_onContext_map fun _ h => planned_pop h rfl rfl
  case jsr | jsrI => exact plansOn_onContext fun _ => planned_call
  case loadByte | loadHword | loadWord | loadWordIMem => exact plansOn_planLoad m _ _ _ _
  case storeByte | storeHword | storeWord | storeByteI | storeHwordI | storeWordIMem =>
    exact plansOn_planStore m _ _ _ _
  case memcpy => exact plansOn_planCopy m _ _ _ _ _
  case malloc | calloc => exact plansOn_planAllocation m _ _ _
  case free => exact plansOn_planRelease m _ _
  case memSize => exact plansOn_planSize m _ _
  case int => exact plansOn_planInterrupt _ _
  -- what is left assigns registers or jumps, some of it with a result that may be a fault
  all_goals
    first
      | exact plansOn_context (planned_of_same rfl rfl)
      | exact plansOn_onContext_map fun _ _ => planned_of_same rfl rfl

/-- Whatever an instruction plans for the active context is tame. -/
theorem tames_plan (m : Machine) (d : Decoded) : Tames m.context (m.plan d) :=
  fun c' h => (m.plansOn_plan d c' h).tame

/-! ### Steps -/

variable {m m' : Machine}

theorem evolves_switchContext {id : Nat} {events : List Event}
    (h : m.switchContext id = .ok (m', events)) : m.contexts.Evolves m'.contexts := by
  obtain ⟨⟨created, contexts⟩, hswitch, heq⟩ := map_ok_iff.mp h
  obtain ⟨rfl, -⟩ := Prod.mk.inj heq
  exact ContextTable.evolves_switch hswitch

theorem evolves_modifyContext {f : Context → Context} (h : m.context.Tame (f m.context)) :
    m.contexts.Evolves (m.modifyContext f).contexts :=
  ContextTable.evolves_modify h

theorem evolves_assign (m : Machine) (rd : Reg) (value : UInt32) :
    m.contexts.Evolves (m.assign rd value).contexts :=
  evolves_modifyContext (tame_of_same rfl rfl)

/-- All that an effect makes of the contexts: a switch changes to another one, and any other effect
leaves them, replaces the active one or assigns a register of it. -/
theorem contexts_perform (m : Machine) (e : Effect) :
    (∃ id, e = .switch id) ∨ (m.perform e).machine.contexts = m.contexts ∨
      (∃ c, e = .context c ∧ (m.perform e).machine.contexts = m.contexts.modify fun _ => c) ∨
      ∃ rd value, (m.perform e).machine.contexts = m.contexts.modify fun c => c.assign rd value := by
  cases e with
  | switch id => exact .inl ⟨id, rfl⟩
  | context c => exact .inr (.inr (.inl ⟨c, rfl, rfl⟩))
  | halt | yield | ignore _ => exact .inr (.inl rfl)
  | write device start bytes =>
    refine .inr (.inl ?_)
    simp only [perform, overwrite, done]
    split
    · rfl
    · split <;> rfl
  | allocate rd size cleared =>
    cases cleared with
    | true =>
      simp only [perform, allocateCleared, if_true]
      split
      · exact .inr (.inr (.inr ⟨rd, _, rfl⟩))
      · exact .inr (.inl rfl)
    | false =>
      simp only [perform, allocate, Bool.false_eq_true, if_false]
      split
      · exact .inr (.inr (.inr ⟨rd, _, rfl⟩))
      · exact .inr (.inl rfl)
  | release b =>
    simp only [perform]
    split <;> exact .inr (.inl rfl)
  | draw rd kind => cases kind <;> exact .inr (.inr (.inr ⟨rd, _, rfl⟩))
  | readByte rd =>
    simp only [perform, readByte]
    split
    · exact .inr (.inr (.inr ⟨rd, _, rfl⟩))
    · exact .inr (.inl rfl)
  | writeByte b =>
    simp only [perform, writeByte]
    split <;> exact .inr (.inl rfl)
  | callDevice slot argument =>
    simp only [perform, callDevice]
    split <;> exact .inr (.inl rfl)

theorem evolves_perform (m : Machine) {e : Effect} (h : ∀ c, e = .context c → m.context.Tame c) :
    m.contexts.Evolves (m.perform e).machine.contexts := by
  rcases m.contexts_perform e with ⟨id, rfl⟩ | heq | ⟨c, he, heq⟩ | ⟨rd, value, heq⟩
  · simp only [perform]
    split
    · rename_i m' events hok
      exact evolves_switchContext hok
    · exact .refl _
  · exact heq ▸ .refl _
  · exact heq ▸ ContextTable.evolves_modify (h c he)
  · exact heq ▸ evolves_assign m rd value

theorem evolves_execute (m : Machine) (d : Decoded) :
    m.contexts.Evolves (m.execute d).machine.contexts := by
  by_cases hholds : d.condition.holds m.context.flag = true
  · rw [execute, if_pos hholds]
    cases hplan : m.plan d with
    | error stop => exact .refl _
    | ok e => exact evolves_perform m fun c he => tames_plan m d c (hplan.trans (congrArg _ he))
  · rw [execute, if_neg hholds]
    exact .refl _

/-- An instruction, with its fetch, evolves the contexts. -/
theorem evolves_cycle (m : Machine) : m.contexts.Evolves m.cycle.machine.contexts := by
  have hadvance : m.contexts.Evolves m.advance.contexts :=
    evolves_modifyContext (tame_of_same rfl rfl)
  rw [cycle]
  cases m.fetch with
  | error i => exact .refl _
  | ok word =>
    dsimp only
    cases decode word with
    | none => exact hadvance
    | some d => exact hadvance.trans (evolves_execute _ d)

end Machine
end RegisterMachine
