import RegisterMachine.Proofs.Machine.Evolution

/-! What holds of every machine that its host only asks for things.

The delivery of an interrupt pushes one word, into the reserve of a call stack if
need be; everything else only evolves the contexts. What both keep, a step keeps,
and so does every action of a host but one that edits a context itself. Together
with what `Sound` knows of main memory and the allocator this is `Invariant`, and
`invariant_of_actions` proves it after any actions. -/
namespace RegisterMachine.Machine

variable {m m' : Machine} {P : Context → Prop}

/-! ### Delivery -/

/-- To raise an interrupt is to leave the contexts or to call its handler from the active one. -/
theorem contexts_raise (m : Machine) (i : Interrupt) :
    (m.raise i).machine.contexts = m.contexts ∨
      ∃ target stack, m.context.stack.pushReserved? m.context.pc = some stack ∧
        (m.raise i).machine.contexts =
          m.contexts.modify fun c => { c with stack, pc := target } := by
  rcases m.raise_cases i with ⟨_, _, heq, -⟩ | ⟨target, stack, -, hpush, heq⟩
  · rw [heq]
    exact .inl rfl
  · rw [heq]
    exact .inr ⟨target, stack, hpush, rfl⟩

theorem numbered_raise (h : m.contexts.Numbered) (i : Interrupt) :
    (m.raise i).machine.contexts.Numbered := by
  rcases m.contexts_raise i with heq | ⟨target, stack, -, heq⟩
  · exact heq ▸ h
  · exact heq ▸ h.congr (ContextTable.ids_modify _ _)

theorem each_raise (hP : Context.Lasting P) (h : m.contexts.Each P) (i : Interrupt) :
    (m.raise i).machine.contexts.Each P := by
  rcases m.contexts_raise i with heq | ⟨target, stack, hpush, heq⟩
  · exact heq ▸ h
  · exact heq ▸ h.modify (hP.pushReserved target h.current hpush)

theorem numbered_deliver (h : m.contexts.Numbered) (batch : List Interrupt) :
    (m.deliver batch).machine.contexts.Numbered :=
  related_deliver (R := fun m m' => m.contexts.Numbered → m'.contexts.Numbered) (fun _ h => h)
    (fun h h' hm => h' (h hm)) (fun _ i h => numbered_raise h i) m batch h

theorem numbered_step (h : m.contexts.Numbered) : m.step.machine.contexts.Numbered :=
  related_step (R := fun m m' => m.contexts.Numbered → m'.contexts.Numbered) (fun _ h => h)
    (fun h h' hm => h' (h hm)) (fun _ i h => numbered_raise h i) (fun _ _ _ _ h => h)
    (fun m => m.evolves_cycle.numbered) m h

theorem each_step (hP : Context.Lasting P) (h : m.contexts.Each P) :
    m.step.machine.contexts.Each P :=
  related_step (R := fun m m' => m.contexts.Each P → m'.contexts.Each P) (fun _ h => h)
    (fun h h' hm => h' (h hm)) (fun _ i h => each_raise hP h i) (fun _ _ _ _ h => h)
    (fun m h => h.evolves hP m.evolves_cycle) m h

/-! ### Loading -/

theorem contexts_place (m : Machine) (p : Program) : (m.place p).1.contexts = m.contexts := by
  obtain ⟨allocator, memory, heq⟩ := m.place_changes p
  rw [heq]

theorem evolves_loadInto (m : Machine) (id : Nat) (p : Program) :
    m.contexts.Evolves (m.loadInto id p).1.contexts := by
  rcases m.loadInto_cases id p with heq | ⟨contexts, placed, hensure, rfl, hloaded⟩
  · rw [heq]
    exact .refl _
  · have hensured : m.contexts.Evolves contexts := ContextTable.evolves_ensure hensure
    have hplaced := contexts_place { m with contexts } p
    rcases hloaded with heq | heq <;> rw [heq]
    · exact hplaced ▸ hensured
    · rw [hplaced]
      exact hensured.trans (ContextTable.evolves_set (ContextTable.mem_of_ensure hensure)
        (Context.modest_entered _ p.entry p.origin))

theorem evolves_loadSource (m : Machine) (source : String) :
    m.contexts.Evolves (m.loadSource source).1.contexts := by
  rw [loadSource, loadSourceInto]
  cases m.assemble source with
  | error e => exact .refl _
  | ok p => exact m.evolves_loadInto _ p

theorem contexts_install (m : Machine) (assembled : Except LoadError Program) :
    (m.install assembled).1.contexts = m.contexts := by
  rcases m.install_cases assembled with heq | ⟨p, -, heq | heq⟩ <;> rw [heq]
  · exact m.contexts_place p
  · obtain ⟨memory, hset⟩ := (m.place p).1.setVectors_changes p Interrupt.faults
    rw [hset]
    exact m.contexts_place p

theorem contexts_installHandlers (m : Machine) : m.installHandlers.1.contexts = m.contexts := by
  rw [installHandlers, contexts_install]

theorem contexts_create {config : Config} {events : List Event}
    (h : Machine.create config = .ok (m, events)) :
    m.contexts = .create config.stackSize := by
  obtain ⟨-, hblank | hinstalled⟩ := create_ok h
  · rw [hblank]
    rfl
  · rw [hinstalled]
    exact contexts_installHandlers (blank config)

/-! ### What a host does -/

/-- The host changes a context itself. -/
def HostAction.EditsContext : HostAction → Prop
  | .editContext _ => True
  | _ => False

theorem evolves_act (m : Machine) {action : HostAction} (hedit : ¬action.EditsContext)
    (hstep : action ≠ .step) : m.contexts.Evolves (m.act action).contexts := by
  cases action with
  | loadSource source => exact m.evolves_loadSource source
  | load p => exact m.evolves_loadInto _ p
  | loadInto id p => exact m.evolves_loadInto id p
  | switchContext id =>
    simp only [act]
    split
    · rename_i m' events hok
      exact evolves_switchContext hok
    · exact .refl _
  | setVector i handler =>
    simp only [act]
    split
    · rename_i m' hset
      obtain ⟨memory, -, rfl⟩ := map_ok_iff.mp hset
      exact .refl _
    · exact .refl _
  | attach _ _ | writeMemory _ _ =>
    simp only [act]
    split <;> exact .refl _
  | editContext f => exact absurd trivial hedit
  | step => exact absurd rfl hstep
  | detach _ | setConsole _ | setClock _ => exact .refl _
  | pause | resume | terminate | setYieldSuspends _ | raise _ => exact .refl _

theorem numbered_act (h : m.contexts.Numbered) (action : HostAction) :
    (m.act action).contexts.Numbered := by
  by_cases hstep : action = .step
  · subst hstep
    exact numbered_step h
  · by_cases hedit : action.EditsContext
    · cases action with
      | editContext f => exact h.congr (ContextTable.ids_modify _ f)
      | _ => exact absurd hedit id
    · exact (m.evolves_act hedit hstep).numbered h

/-- If the host changes a context itself, it leaves this property to it. -/
def HostAction.Keeps (P : Context → Prop) : HostAction → Prop
  | .editContext f => ∀ c, P c → P (f c)
  | _ => True

theorem HostAction.keeps_of_not_edits {action : HostAction} (h : ¬action.EditsContext) :
    action.Keeps P := by
  cases action with
  | editContext f => exact absurd trivial h
  | _ => trivial

theorem each_act (hP : Context.Lasting P) (h : m.contexts.Each P) {action : HostAction}
    (hkeeps : action.Keeps P) : (m.act action).contexts.Each P := by
  by_cases hstep : action = .step
  · subst hstep
    exact each_step hP h
  · by_cases hedit : action.EditsContext
    · cases action with
      | editContext f => exact h.modify (hkeeps _ h.current)
      | _ => exact absurd hedit id
    · exact h.evolves hP (m.evolves_act hedit hstep)

theorem ReachableBy.numbered {allowed : HostAction → Prop} (h : ReachableBy allowed m) :
    m.contexts.Numbered := by
  induction h with
  | create hcreate => exact contexts_create hcreate ▸ ContextTable.numbered_create _
  | act hm action haction ih => exact numbered_act ih action

/-- What lasts, and the edits of the host keep, every context of a reachable machine has. -/
theorem ReachableBy.each (hP : Context.Lasting P) (h : ReachableBy (HostAction.Keeps P) m) :
    m.contexts.Each P := by
  induction h with
  | create hcreate => exact contexts_create hcreate ▸ ContextTable.each_create hP _
  | act hm action haction ih => exact each_act hP ih haction

/-! ### The invariant -/

/-- A step of the machine delivers an interrupt: one that the host raised, or the one that stopped
the instruction. -/
def Delivers (m : Machine) : Prop :=
  ∃ control batch, m.control.checkpoint = .proceed control batch ∧
    (batch ≠ [] ∨ ∃ i, ({ m with control }.deliver batch).machine.cycle.stop = some (.interrupt i))

/-- A step that delivers nothing fills no stack further into its reserve. -/
theorem keepsWithin_step (h : m.contexts.Numbered) (hquiet : ¬m.Delivers) :
    m.contexts.KeepsWithin m.step.machine.contexts := by
  have hsame : m.contexts.KeepsWithin m.contexts :=
    (ContextTable.Evolves.refl m.contexts).keepsWithin h
  by_cases hhalted : m.halted = true
  · rw [step, if_pos hhalted]
    exact hsame
  · rw [step, if_neg hhalted]
    cases hcheckpoint : m.control.checkpoint with
    | suspended => exact hsame
    | terminate => exact hsame
    | proceed control batch =>
      obtain rfl : batch = [] :=
        not_not.mp fun hbatch => hquiet ⟨control, batch, hcheckpoint, .inl hbatch⟩
      have hstop : ∀ i, { m with control }.cycle.stop ≠ some (.interrupt i) :=
        fun i hi => hquiet ⟨control, [], hcheckpoint, .inr ⟨i, hi⟩⟩
      have hcycle : m.contexts.KeepsWithin { m with control }.cycle.machine.contexts :=
        ({ m with control }.evolves_cycle).keepsWithin h
      have hsettle :
          (settle { m with control }.cycle).machine = { m with control }.cycle.machine := by
        rw [settle]
        split
        · rfl
        · rfl
        · rename_i i hi
          exact absurd hi (hstop i)
      simp only [deliver, machine_conclude, hsettle]
      exact hcycle

/-- The size of main memory is the configured one; the allocator manages what lies behind the
vectors, in blocks that are not empty, ascend and do not overlap; the contexts are numbered and
sane, and the active one is among them. -/
structure Invariant (config : Config) (m : Machine) : Prop where
  memory : m.memory.size = config.memorySize
  region : m.allocator.origin = vectorsEnd ∧ m.allocator.limit = m.memory.size
  inside : ∀ b ∈ m.allocator.blocks,
    b.start < b.stop ∧ vectorsEnd ≤ b.start ∧ b.stop ≤ m.memory.size
  ascending : m.allocator.blocks.Pairwise fun b c => b.start < c.start ∧ ¬b.Overlaps c
  contexts : m.contexts.Sane
  active : m.contexts.activeId ∈ m.contexts.ids

theorem invariant_of_sound {config : Config} (h : m.Sound) (hcontexts : m.contexts.Sane)
    (hconfig : m.config = config) : Invariant config m where
  memory := hconfig ▸ h.memory
  region := ⟨h.origin, h.limit⟩
  inside b hb := by
    obtain ⟨hstart, hstop⟩ := h.orderly.inside b hb
    exact ⟨h.orderly.apart.start_lt_stop hb, h.origin ▸ hstart, h.limit ▸ hstop⟩
  ascending := h.orderly.apart.ascending
  contexts := hcontexts
  active := m.contexts.activeId_mem

theorem each_run (hP : Context.Lasting P) (h : m.contexts.Each P) {actions : List HostAction}
    (hactions : ∀ action ∈ actions, action.Keeps P) : (actions.foldl act m).contexts.Each P := by
  induction actions generalizing m with
  | nil => exact h
  | cons action rest ih =>
    exact ih (each_act hP h (hactions action List.mem_cons_self))
      fun other hother => hactions other (List.mem_cons_of_mem _ hother)

theorem sane_run (h : m.contexts.Sane) {actions : List HostAction}
    (hactions : ∀ action ∈ actions, ¬action.EditsContext) : (actions.foldl act m).contexts.Sane :=
  ContextTable.sane_iff_each.mpr <|
    each_run Context.lasting_sane (ContextTable.sane_iff_each.mp h)
      fun action haction => HostAction.keeps_of_not_edits (hactions action haction)

theorem follows_run (m : Machine) (actions : List HostAction) :
    m.Follows (actions.foldl act m) := by
  induction actions generalizing m with
  | nil => exact .refl m
  | cons action rest ih => exact (m.follows_act action).trans (ih _)

theorem config_create {config : Config} {events : List Event}
    (h : Machine.create config = .ok (m, events)) : m.config = config := by
  obtain ⟨-, hblank | hinstalled⟩ := create_ok h
  · rw [hblank]
    rfl
  · rw [hinstalled]
    exact (follows_installHandlers _).config

/-- **What programs and hosts cannot break.** A machine is created and its host does anything, with
any success, but edit a context itself. Then the invariant holds. No further action but a step takes
a call stack above its capacity, or further above it; no instruction of a step does, whatever was
delivered before it; and so a step does only if it delivers an interrupt. -/
theorem invariant_of_actions {config : Config} {created : Machine} {events : List Event}
    (hcreate : Machine.create config = .ok (created, events)) (actions : List HostAction)
    (hactions : ∀ action ∈ actions, ¬action.EditsContext) :
    let m := actions.foldl act created
    Invariant config m ∧
      (∀ action : HostAction, ¬action.EditsContext → action ≠ .step →
        m.contexts.KeepsWithin (m.act action).contexts) ∧
      (∀ control batch, m.control.checkpoint = .proceed control batch →
        let delivered := ({ m with control }.deliver batch).machine
        delivered.contexts.KeepsWithin delivered.cycle.machine.contexts) ∧
      (¬m.Delivers → m.contexts.KeepsWithin m.step.machine.contexts) := by
  intro m
  have hfollows : created.Follows m := created.follows_run actions
  have hsane : m.contexts.Sane :=
    sane_run (contexts_create hcreate ▸ ContextTable.sane_create _) hactions
  have hconfig : m.config = config := hfollows.config.trans (config_create hcreate)
  refine ⟨invariant_of_sound ((sound_create hcreate).follows hfollows) hsane hconfig, ?_, ?_, ?_⟩
  · intro action hedit hstep
    exact (m.evolves_act hedit hstep).keepsWithin hsane.numbered
  · intro control batch _ delivered
    have hnumbered : delivered.contexts.Numbered :=
      numbered_deliver (m := { m with control }) hsane.numbered batch
    exact delivered.evolves_cycle.keepsWithin hnumbered
  · exact keepsWithin_step hsane.numbered

/-- A key is pressed on a machine whose stacks hold one word. -/
theorem invariant_of_keyPress :
    Machine.create ⟨512, 1, false, false, 0⟩ = .ok (blank ⟨512, 1, false, false, 0⟩, []) ∧
      let actions : List HostAction := [.setVector .keyPress 30, .raise .keyPress, .step]
      (∀ action ∈ actions, ¬action.EditsContext) ∧
        Invariant ⟨512, 1, false, false, 0⟩
          (actions.foldl act (blank ⟨512, 1, false, false, 0⟩)) := by
  have hcreate :
      Machine.create ⟨512, 1, false, false, 0⟩ = .ok (blank ⟨512, 1, false, false, 0⟩, []) :=
    create_of_plain rfl rfl
  have hactions : ∀ action ∈ [HostAction.setVector .keyPress 30, .raise .keyPress, .step],
      ¬action.EditsContext := by
    simp [HostAction.EditsContext]
  exact ⟨hcreate, hactions, (invariant_of_actions hcreate _ hactions).1⟩

end RegisterMachine.Machine
