import RegisterMachine.Proofs.Machine.Invariant
import RegisterMachine.Proofs.Machine.Planning

/-! Contexts are isolated.

Every part of a step but one works on the active context, so it changes that one alone
(`OnlyActive`). The exception is an executed `CTXSW`: it leaves the context that is active
with the program counter behind it, adds the other context if it is missing, and makes it
the active one (`step_of_switches`). Nothing else changes which context is active, and
so a context that was left is found again as it was, whatever runs in the meantime
(`step_isolated`). -/
namespace RegisterMachine.Machine

variable {m m' m'' : Machine} {id : Nat}

/-! ### The active context alone -/

/-- Of all contexts at most the active one has changed, and it is the active one still. -/
def OnlyActive (m m' : Machine) : Prop := ∃ f, m'.contexts = m.contexts.modify f

theorem onlyActive_of_same (h : m'.contexts = m.contexts) : m.OnlyActive m' :=
  ⟨id, h.trans m.contexts.modify_id.symm⟩

theorem OnlyActive.refl (m : Machine) : m.OnlyActive m := onlyActive_of_same rfl

theorem OnlyActive.trans (h : m.OnlyActive m') (h' : m'.OnlyActive m'') : m.OnlyActive m'' := by
  obtain ⟨f, hf⟩ := h
  obtain ⟨g, hg⟩ := h'
  exact ⟨fun c => g (f c), by rw [hg, hf, ContextTable.modify_modify]⟩

theorem OnlyActive.activeId (h : m.OnlyActive m') :
    m'.contexts.activeId = m.contexts.activeId := by
  obtain ⟨f, hf⟩ := h
  rw [hf, ContextTable.activeId_modify]

theorem OnlyActive.stackCapacity (h : m.OnlyActive m') :
    m'.contexts.stackCapacity = m.contexts.stackCapacity := by
  obtain ⟨f, hf⟩ := h
  rw [hf]
  rfl

theorem OnlyActive.ids (h : m.OnlyActive m') : m'.contexts.ids = m.contexts.ids := by
  obtain ⟨f, hf⟩ := h
  rw [hf, ContextTable.ids_modify]

theorem OnlyActive.get? (h : m.OnlyActive m') (hm : m.contexts.Numbered)
    (hid : id ≠ m.contexts.activeId) : m'.contexts.get? id = m.contexts.get? id := by
  obtain ⟨f, hf⟩ := h
  rw [hf, ContextTable.get?_modify hm.distinct, if_neg hid]

theorem onlyActive_raise (m : Machine) (i : Interrupt) : m.OnlyActive (m.raise i).machine := by
  rcases m.contexts_raise i with heq | ⟨target, stack, -, heq⟩
  · exact onlyActive_of_same heq
  · exact ⟨_, heq⟩

theorem onlyActive_deliver (m : Machine) (batch : List Interrupt) :
    m.OnlyActive (m.deliver batch).machine :=
  related_deliver OnlyActive.refl OnlyActive.trans onlyActive_raise m batch

theorem onlyActive_settle (p : Progress) : p.machine.OnlyActive (settle p).machine :=
  related_settle OnlyActive.refl onlyActive_raise p

theorem onlyActive_perform (m : Machine) {e : Effect} (he : ∀ id, e ≠ .switch id) :
    m.OnlyActive (m.perform e).machine := by
  rcases m.contexts_perform e with ⟨id, heq⟩ | heq | ⟨c, -, heq⟩ | ⟨rd, value, heq⟩
  · exact absurd heq (he id)
  · exact onlyActive_of_same heq
  · exact ⟨_, heq⟩
  · exact ⟨_, heq⟩

theorem onlyActive_advance (m : Machine) : m.OnlyActive m.advance :=
  ⟨fun c => { c with pc := c.pc + 4 }, rfl⟩

theorem onlyActive_of_arrives (h : m.Arrives m') : m.OnlyActive m' := by
  obtain ⟨-, control, batch, -, -, rfl⟩ := h
  exact onlyActive_deliver { m with control } batch

/-! ### Switching -/

/-- The machine executes a `CTXSW` to a context with a valid number. -/
structure AtSwitch (m : Machine) (id : Nat) : Prop where
  executes : ∃ d, m.Executes d ∧ d.instruction = .ctxsw ∧
    (m.context.read (d.operand 0)).toNat = id
  below : id < ContextTable.limit

/-- A cycle that executes no `CTXSW`, or one that fails, works on the active context. -/
theorem onlyActive_cycle (hswitch : ∀ id, ¬m.AtSwitch id) : m.OnlyActive m.cycle.machine := by
  refine related_cycle OnlyActive.refl OnlyActive.trans m.onlyActive_advance fun d e hd hplan => ?_
  refine onlyActive_perform _ fun id he => ?_
  obtain ⟨hctxsw, hlt, hid⟩ := plan_switch (hplan.trans (congrArg _ he))
  rw [m.read_advance] at hid
  exact hswitch id ⟨⟨d, hd, hctxsw, hid.symm⟩, hlt⟩

/-- A cycle that executes a `CTXSW` switches behind it. -/
theorem cycle_of_atSwitch (h : m.AtSwitch id) :
    ∃ created contexts, m.advance.contexts.switch id = .ok (created, contexts) ∧
      (settle m.cycle).machine.contexts = contexts := by
  obtain ⟨⟨d, hd, hctxsw, hid⟩, hlt⟩ := h
  obtain ⟨created, contexts, hswitch⟩ := m.advance.contexts.exists_switch hlt
  refine ⟨created, contexts, hswitch, ?_⟩
  have hplan : m.advance.plan d = .ok (.switch id) := by
    simp only [plan, hctxsw, m.read_advance, hid]
    exact if_pos hlt
  have hperform : (m.advance.perform (.switch id)).stop = none ∧
      (m.advance.perform (.switch id)).machine.contexts = contexts := by
    simp only [perform, switchContext, hswitch, Except.map, and_self]
  rw [hd.settle_cycle, hplan]
  show (settle (m.advance.perform (.switch id))).machine.contexts = contexts
  rw [settle, hperform.1]
  exact hperform.2

/-- A step of the machine executes a `CTXSW` to a context with a valid number, on the machine `m'`
that the delivery of what the host raised makes of it. -/
structure Switches (m m' : Machine) (id : Nat) : Prop where
  arrives : m.Arrives m'
  atSwitch : m'.AtSwitch id

/-- What a `CTXSW` makes of the contexts. The one that is left has the program counter behind it and
no other one changes; the new one is active and is added if it is missing, with everything zero and
the configured stack capacity. -/
structure SwitchOutcome (m m' : Machine) (id : Nat) : Prop where
  active : m.step.machine.contexts.activeId = id
  left : m.step.machine.contexts.get? m.contexts.activeId =
    some { m'.context with pc := m'.context.pc + 4 }
  known : id ∈ m.contexts.ids → m.step.machine.contexts.ids = m.contexts.ids
  missing : id ∉ m.contexts.ids → m.step.machine.contexts.ids = m.contexts.ids ++ [id] ∧
    m.step.machine.contexts.get? id = some (.fresh m.config.stackSize)

theorem onlyActive_step (hswitch : ∀ m' id, ¬m.Switches m' id) : m.OnlyActive m.step.machine := by
  rcases m.step_cases with ⟨m', harrives, heq⟩ | heq | ⟨control, batch, -, heq⟩
  · rw [heq]
    refine (onlyActive_of_arrives harrives).trans (.trans ?_ (onlyActive_settle _))
    exact onlyActive_cycle fun id hat => hswitch m' id ⟨harrives, hat⟩
  · rw [heq]
    exact .refl m
  · rw [heq]
    exact onlyActive_deliver { m with control } batch

/-- Behind the delivery and the fetch a step that switches only ensures and activates. -/
theorem step_of_switches (h : m.Switches m' id) :
    ∃ ensured, m'.advance.contexts.ensure id = .ok ensured ∧
      m.step.machine.contexts = ensured.activate id := by
  obtain ⟨created, contexts, hswitch, hcontexts⟩ := cycle_of_atSwitch h.atSwitch
  obtain ⟨ensured, hensured, rfl⟩ := ContextTable.switch_ok hswitch
  exact ⟨ensured, hensured, by rw [step_of_arrives h.arrives, hcontexts]⟩

theorem onlyActive_of_switches (h : m.Switches m' id) : m.OnlyActive m'.advance :=
  (onlyActive_of_arrives h.arrives).trans m'.onlyActive_advance

theorem outcome_of_switches (hm : m.contexts.Numbered)
    (hcapacity : m.contexts.stackCapacity = m.config.stackSize) (h : m.Switches m' id) :
    m.SwitchOutcome m' id := by
  have honly := onlyActive_of_switches h
  have hcurrent : m'.advance.contexts.get? m.contexts.activeId =
      some { m'.context with pc := m'.context.pc + 4 } := by
    have hnumbered : m'.advance.contexts.Numbered := hm.congr honly.ids
    rw [← honly.activeId, ContextTable.get?_activeId hnumbered.distinct]
    exact congrArg some (context_modifyContext m' _)
  obtain ⟨ensured, hensured, hstep⟩ := step_of_switches h
  constructor
  · rw [hstep, ContextTable.activeId_activate (ContextTable.mem_of_ensure hensured)]
  · rw [hstep, ContextTable.get?_activate]
    exact ContextTable.get?_ensure hensured hcurrent
  · intro hknown
    rw [← honly.ids] at hknown
    rw [hstep, ContextTable.ids_activate, ← honly.ids]
    rcases ContextTable.ensure_ok hensured with ⟨-, ⟨-, rfl⟩ | ⟨hnew, -⟩⟩
    · rfl
    · exact absurd hknown hnew
  · intro hmissing
    rw [← honly.ids] at hmissing
    rw [hstep, ContextTable.ids_activate, ContextTable.get?_activate, ← honly.ids]
    rcases ContextTable.ensure_ok hensured with ⟨-, ⟨hold, -⟩ | ⟨-, rfl⟩⟩
    · exact absurd hold hmissing
    · rw [ContextTable.get?_add hmissing, if_pos rfl, honly.stackCapacity, hcapacity]
      exact ⟨ContextTable.ids_add _ id, rfl⟩

/-- A step leaves every context but the active one as it is. -/
theorem get?_step (hm : m.contexts.Numbered) {c : Context} (hid : id ≠ m.contexts.activeId)
    (hget : m.contexts.get? id = some c) : m.step.machine.contexts.get? id = some c := by
  by_cases hswitch : ∃ m' other, m.Switches m' other
  · obtain ⟨m', other, h⟩ := hswitch
    obtain ⟨ensured, hensured, hstep⟩ := step_of_switches h
    rw [hstep, ContextTable.get?_activate]
    apply ContextTable.get?_ensure hensured
    rw [(onlyActive_of_switches h).get? hm hid, hget]
  · rw [(onlyActive_step fun m' other h => hswitch ⟨m', other, h⟩).get? hm hid, hget]

/-! ### Runs -/

/-- The host loads a program or switches contexts itself. -/
def HostAction.SetsContexts : HostAction → Prop
  | .loadSource _ | .load _ | .loadInto _ _ | .switchContext _ => True
  | _ => False

/-- What a host does without loading and switching changes the active context at most. -/
theorem onlyActive_act (m : Machine) {action : HostAction} (hsets : ¬action.SetsContexts)
    (hstep : action ≠ .step) : m.OnlyActive (m.act action) := by
  cases action with
  | loadSource _ | load _ | loadInto _ _ | switchContext _ => exact absurd trivial hsets
  | step => exact absurd rfl hstep
  | editContext f => exact ⟨f, rfl⟩
  | setVector i handler =>
    simp only [act]
    split
    · rename_i m' hset
      obtain ⟨memory, -, rfl⟩ := map_ok_iff.mp hset
      exact onlyActive_of_same rfl
    · exact .refl m
  | attach _ _ | writeMemory _ _ =>
    simp only [act]
    split <;> exact onlyActive_of_same rfl
  | detach _ | setConsole _ | setClock _ => exact onlyActive_of_same rfl
  | pause | resume | terminate | setYieldSuspends _ | raise _ => exact onlyActive_of_same rfl

theorem get?_act (hm : m.contexts.Numbered) {action : HostAction} (hsets : ¬action.SetsContexts)
    {c : Context} (hid : id ≠ m.contexts.activeId) (hget : m.contexts.get? id = some c) :
    (m.act action).contexts.get? id = some c := by
  by_cases hstep : action = .step
  · subst hstep
    exact get?_step hm hid hget
  · rw [(m.onlyActive_act hsets hstep).get? hm hid, hget]

/-- A context that is not active stays as it is until it is. -/
theorem get?_run (hm : m.contexts.Numbered) {actions : List HostAction}
    (hsets : ∀ action ∈ actions, ¬action.SetsContexts) {c : Context}
    (hid : ∀ k < actions.length, ((actions.take k).foldl act m).contexts.activeId ≠ id)
    (hget : m.contexts.get? id = some c) :
    (actions.foldl act m).contexts.get? id = some c := by
  induction actions generalizing m with
  | nil => exact hget
  | cons action rest ih =>
    have hfirst : id ≠ m.contexts.activeId := (hid 0 (Nat.zero_lt_succ _)).symm
    refine ih (numbered_act hm action)
      (fun other hother => hsets other (List.mem_cons_of_mem _ hother)) ?_
      (get?_act hm (hsets action List.mem_cons_self) hfirst hget)
    intro k hk
    exact hid (k + 1) (Nat.succ_lt_succ hk)

theorem numbered_run (hm : m.contexts.Numbered) (actions : List HostAction) :
    (actions.foldl act m).contexts.Numbered := by
  induction actions generalizing m with
  | nil => exact hm
  | cons action rest ih => exact ih (numbered_act hm action)

/-! ### The configured capacity -/

theorem stackCapacity_act (m : Machine) (action : HostAction) :
    (m.act action).contexts.stackCapacity = m.contexts.stackCapacity := by
  by_cases hstep : action = .step
  · subst hstep
    exact related_step (R := fun m m' => m'.contexts.stackCapacity = m.contexts.stackCapacity)
      (fun _ => rfl) (fun h h' => h'.trans h) (fun m i => (m.onlyActive_raise i).stackCapacity)
      (fun _ _ _ _ => rfl) (fun m => m.evolves_cycle.capacity) m
  · by_cases hedit : action.EditsContext
    · cases action with
      | editContext f => rfl
      | _ => exact absurd hedit id
    · exact (m.evolves_act hedit hstep).capacity

theorem ReachableBy.stackCapacity {allowed : HostAction → Prop} (h : ReachableBy allowed m) :
    m.contexts.stackCapacity = m.config.stackSize := by
  induction h with
  | create hcreate =>
    rw [contexts_create hcreate, config_create hcreate]
    rfl
  | @act m hm action haction ih => rw [stackCapacity_act, (m.follows_act action).config, ih]

/-! ### Isolation -/

/-- **Contexts are isolated.** A step of a reachable machine changes no context but the active one.
Unless it executes a `CTXSW` with a valid number, it also adds none and leaves the same one active.
If it does, the context that is left is found again as it was left when it next becomes active,
whatever the host does in the meantime but load programs and switch contexts itself. -/
theorem step_isolated (hreach : m.Reachable) :
    (∀ id c, id ≠ m.contexts.activeId → m.contexts.get? id = some c →
      m.step.machine.contexts.get? id = some c) ∧
    ((∀ m' id, ¬m.Switches m' id) → m.step.machine.contexts.ids = m.contexts.ids ∧
      m.step.machine.contexts.activeId = m.contexts.activeId) ∧
    ∀ m' id, m.Switches m' id → m.SwitchOutcome m' id ∧
      ∀ actions : List HostAction, (∀ action ∈ actions, ¬action.SetsContexts) →
        (∀ k < actions.length, ((actions.take k).foldl act m.step.machine).contexts.activeId ≠
          m.contexts.activeId) →
        let later := actions.foldl act m.step.machine
        let left : Context := { m'.context with pc := m'.context.pc + 4 }
        later.contexts.get? m.contexts.activeId = some left ∧
          (later.contexts.activeId = m.contexts.activeId → later.context = left) := by
  have hnumbered := hreach.numbered
  refine ⟨fun id c hid hget => get?_step hnumbered hid hget, fun hswitch => ?_, ?_⟩
  · have honly := onlyActive_step hswitch
    exact ⟨honly.ids, honly.activeId⟩
  · intro m' id h
    have houtcome := outcome_of_switches hnumbered hreach.stackCapacity h
    refine ⟨houtcome, fun actions hsets hid => ?_⟩
    intro later left
    have hafter : m.step.machine.contexts.Numbered := numbered_step hnumbered
    have hleft : later.contexts.get? m.contexts.activeId = some left :=
      get?_run hafter hsets hid houtcome.left
    refine ⟨hleft, fun hagain => ?_⟩
    have hcurrent : later.contexts.get? later.contexts.activeId = some later.context :=
      ContextTable.get?_activeId (numbered_run hafter actions).distinct
    rw [hagain, hleft] at hcurrent
    exact (Option.some.inj hcurrent).symm

/-- The smallest machine, about to switch to a context that it does not have yet. -/
def switching : Machine :=
  ((blank ⟨512, 1, false, false, 0⟩).act (.loadSource "loadbytei r1, 7; ctxsw r1;")).act .step

theorem step_isolated_switching : switching.step.machine.contexts.ids = [0, 7] ∧
    switching.step.machine.contexts.get? 7 = some (.fresh 1) ∧
    switching.step.machine.contexts.get? 0 = some { switching.context with pc := 104 } := by
  have hcreate : Machine.create ⟨512, 1, false, false, 0⟩ =
      .ok (blank ⟨512, 1, false, false, 0⟩, []) := rfl
  have hreach : switching.Reachable :=
    .act (.act (.create hcreate) (.loadSource "loadbytei r1, 7; ctxsw r1;") trivial) .step trivial
  have hstate : switching.halted = false ∧ switching.control = .idle ∧
      switching.contexts.ids = [0] ∧ switching.contexts.activeId = 0 ∧
      switching.context.pc = 100 ∧ switching.config.stackSize = 1 := by decide +kernel
  obtain ⟨hrunning, hcontrol, hids, hactive, hpc, hsize⟩ := hstate
  have hfetch : (switching.fetch.toOption.bind decode).map (fun d =>
      (d.instruction, d.condition, switching.context.read (d.operand 0))) =
        some (.ctxsw, .always, 7) := by decide +kernel
  obtain ⟨d, hd, heq⟩ := Option.map_eq_some_iff.mp hfetch
  obtain ⟨word, hword, hdecode⟩ := Option.bind_eq_some_iff.mp hd
  obtain ⟨hctxsw, hcondition, hoperand⟩ : d.instruction = .ctxsw ∧ d.condition = .always ∧
      switching.context.read (d.operand 0) = 7 := by simpa using heq
  have hswitches : switching.Switches switching 7 := by
    refine ⟨⟨hrunning, switching.control, [], by rw [hcontrol]; rfl, rfl, rfl⟩, ?_, by decide⟩
    exact ⟨d, ⟨⟨word, ok_of_toOption hword, hdecode⟩, by rw [hcondition]; rfl⟩, hctxsw,
      by rw [hoperand]; rfl⟩
  have houtcome := ((step_isolated hreach).2.2 switching 7 hswitches).1
  have hmissing := houtcome.missing (by rw [hids]; decide)
  have hleft := houtcome.left
  rw [hids, hsize] at hmissing
  rw [hactive, hpc] at hleft
  exact ⟨hmissing.1, hmissing.2, hleft⟩

end RegisterMachine.Machine
