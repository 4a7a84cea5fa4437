import RegisterMachine.Proofs.Machine.SharedControl
import RegisterMachine.Proofs.Machine.Step

/-! Machines that have stopped.

The host terminates a machine, or a `HALT` halts it; either way a step does nothing from then
on (`Rests`). Nothing takes a termination back: the flag tells of it whatever the host asks
for later, so every checkpoint finds it, and finds it before a pause and before the interrupts
that are queued (`Control.Ended`). The halted flag is cleared by a load that succeeds and by
nothing else. Both are kept by each action of the host, and so by every run of them
(`stops_for_good`). -/
namespace RegisterMachine

namespace Control

variable {c : Control}

/-- The control is terminated, and its flag tells of it. -/
structure Ended (c : Control) : Prop where
  terminated : c.terminated = true
  attention : c.attention = true

theorem needsAttention_of_terminated (h : c.terminated = true) : c.needsAttention = true := by
  simp [needsAttention, h]

theorem ended_terminate (c : Control) : c.terminate.Ended :=
  ⟨rfl, needsAttention_of_terminated (c := { c with terminated := true }) rfl⟩

/-- Host threads and the machine may do what they like, in any order. -/
theorem Ended.run (h : c.Ended) (actions : List Action) : (c.run actions).Ended where
  terminated := terminated_run h.terminated actions
  attention := by
    have hattention : c.attention = c.needsAttention :=
      h.attention.trans (needsAttention_of_terminated h.terminated).symm
    rw [attention_run hattention]
    exact needsAttention_of_terminated (terminated_run h.terminated actions)

theorem Ended.checkpoint (h : c.Ended) : c.checkpoint = .terminate := by
  rw [Control.checkpoint, if_pos h.attention, inspect, if_pos h.terminated]

end Control

namespace Machine

open Control

variable {m m' : Machine}

/-! ### Rest -/

/-- A step of the machine gives this status and nothing else: no instruction is executed, no
interrupt is delivered, and nothing changes. -/
structure Rests (m : Machine) (status : Status) : Prop where
  step : m.step = ⟨m, .ok status, []⟩
  idle : ∀ m', ¬m.Arrives m'

theorem rests_of_halted (h : m.halted = true) : m.Rests .halted where
  step := by rw [Machine.step, if_pos h]
  idle _ harrives := absurd (h.symm.trans harrives.running) (by simp)

theorem rests_of_ended (h : m.control.Ended) :
    m.Rests (if m.halted then .halted else .terminated) := by
  by_cases hhalted : m.halted = true
  · rw [if_pos hhalted]
    exact rests_of_halted hhalted
  · rw [if_neg hhalted]
    refine ⟨by rw [Machine.step, if_neg hhalted, h.checkpoint], fun m' harrives => ?_⟩
    obtain ⟨control, batch, hproceed, -⟩ := harrives.delivered
    exact absurd (h.checkpoint.symm.trans hproceed) (by simp)

/-! ### Loads -/

/-- The action loads a program, and succeeds. -/
def LoadsBy (m : Machine) : HostAction → Prop
  | .loadSource source => ∃ p, (m.loadSource source).2.1 = .ok p
  | .load p => (m.load p).2.1 = .ok ()
  | .loadInto id p => (m.loadInto id p).2.1 = .ok ()
  | _ => False

/-- None of these actions, one after the other, loads a program. -/
def NeverLoads (m : Machine) : List HostAction → Prop
  | [] => True
  | action :: rest => ¬m.LoadsBy action ∧ (m.act action).NeverLoads rest

theorem act_loadSource (m : Machine) (source : String) : m.act (.loadSource source) =
    match m.assemble source with
    | .error _ => m
    | .ok p => m.act (.load p) := by
  simp only [act, loadSource, loadSourceInto, load]
  cases m.assemble source <;> rfl

theorem loadsBy_loadSource (m : Machine) (source : String) : m.LoadsBy (.loadSource source) ↔
    ∃ p, m.assemble source = .ok p ∧ m.LoadsBy (.load p) := by
  simp only [LoadsBy, loadSource, loadSourceInto, load]
  cases m.assemble source with
  | error e => simp
  | ok p =>
    simp only [map_ok_iff, Except.ok.injEq, exists_eq_left']
    constructor
    · rintro ⟨p', answer, hok, -⟩
      exact hok
    · exact fun hok => ⟨p, (), hok, rfl⟩

/-- A load leaves the control as it is. It clears the halted flag if it succeeds and leaves it if
it fails. -/
theorem loadInto_keeps (m : Machine) (id : Nat) (p : Program) :
    (m.loadInto id p).1.control = m.control ∧
      ((m.loadInto id p).2.1 = .ok () ∧ (m.loadInto id p).1.halted = false ∨
        ¬(m.loadInto id p).2.1 = .ok () ∧ (m.loadInto id p).1.halted = m.halted) := by
  rw [loadInto]
  cases m.contexts.ensure id with
  | error e => exact ⟨rfl, .inr ⟨by simp, rfl⟩⟩
  | ok contexts =>
    obtain ⟨allocator, memory, hplaced⟩ := place_changes { m with contexts } p
    dsimp only
    split
    · rename_i placed e hplace
      rw [hplace] at hplaced
      obtain rfl := hplaced
      exact ⟨rfl, .inr ⟨by simp, rfl⟩⟩
    · rename_i placed hplace
      rw [hplace] at hplaced
      obtain rfl := hplaced
      exact ⟨rfl, .inl ⟨rfl, rfl⟩⟩

/-! ### One action -/

/-- What an action of the host asks of the control. -/
def HostAction.requests : HostAction → List Control.Action
  | .pause => [.call 0 .pause]
  | .resume => [.call 0 .resume]
  | .terminate => [.call 0 .terminate]
  | .setYieldSuspends suspends => [.call 0 (.setYieldSuspends suspends)]
  | .raise i => [.call 0 (.raise i)]
  | _ => []

/-- What an action of the host makes of the control and of the halted flag, if it is no step. -/
structure Served (m : Machine) (action : HostAction) : Prop where
  control : (m.act action).control = m.control.run action.requests
  halted : m.LoadsBy action ∧ (m.act action).halted = false ∨
    ¬m.LoadsBy action ∧ (m.act action).halted = m.halted

theorem served_load (m : Machine) (p : Program) : m.Served (.load p) := by
  obtain ⟨hcontrol, hhalted⟩ := m.loadInto_keeps m.contexts.activeId p
  exact ⟨hcontrol, hhalted⟩

theorem served_of_ne_step (m : Machine) {action : HostAction} (h : action ≠ .step) :
    m.Served action := by
  cases action with
  | step => exact absurd rfl h
  | load p => exact m.served_load p
  | loadInto id p =>
    obtain ⟨hcontrol, hhalted⟩ := m.loadInto_keeps id p
    exact ⟨hcontrol, hhalted⟩
  | loadSource source =>
    have hact := m.act_loadSource source
    have hloads := m.loadsBy_loadSource source
    cases hassemble : m.assemble source with
    | error e =>
      rw [hassemble] at hact
      refine ⟨by rw [hact]; rfl, .inr ⟨?_, by rw [hact]⟩⟩
      simp [hloads, hassemble]
    | ok p =>
      have hp : m.LoadsBy (.loadSource source) ↔ m.LoadsBy (.load p) := by
        simp [hloads, hassemble]
      rw [hassemble] at hact
      obtain ⟨hcontrol, hhalted⟩ := m.served_load p
      refine ⟨by rw [hact]; exact hcontrol, ?_⟩
      rw [hact, hp]
      exact hhalted
  | switchContext number =>
    obtain ⟨contexts, heq⟩ := m.act_switchContext number
    exact ⟨by rw [heq]; rfl, .inr ⟨fun h => h, by rw [heq]⟩⟩
  | setVector i handler =>
    obtain ⟨memory, heq⟩ := m.act_setVector i handler
    exact ⟨by rw [heq]; rfl, .inr ⟨fun h => h, by rw [heq]⟩⟩
  | attach _ _ | writeMemory _ _ =>
    refine ⟨?_, .inr ⟨fun h => h, ?_⟩⟩ <;> simp only [act] <;> split <;> rfl
  | detach _ | setConsole _ | editContext _ | setClock _ => exact ⟨rfl, .inr ⟨fun h => h, rfl⟩⟩
  | pause | resume | terminate | setYieldSuspends _ | raise _ => exact ⟨rfl, .inr ⟨fun h => h, rfl⟩⟩

/-- Nothing that a host does takes a termination back. -/
theorem ended_act (h : m.control.Ended) (action : HostAction) : (m.act action).control.Ended := by
  by_cases hstep : action = .step
  · subst hstep
    show m.step.machine.control.Ended
    rw [(rests_of_ended h).step]
    exact h
  · rw [(m.served_of_ne_step hstep).control]
    exact h.run action.requests

/-- A halted machine stays halted unless a program is loaded. -/
theorem halted_act (h : m.halted = true) {action : HostAction} (hloads : ¬m.LoadsBy action) :
    (m.act action).halted = true := by
  by_cases hstep : action = .step
  · subst hstep
    show m.step.machine.halted = true
    rw [(rests_of_halted h).step]
    exact h
  · rcases (m.served_of_ne_step hstep).halted with ⟨hload, -⟩ | ⟨-, hhalted⟩
    · exact absurd hload hloads
    · exact hhalted.trans h

/-- A machine that is loaded runs again. -/
theorem halted_of_loadsBy {action : HostAction} (h : m.LoadsBy action) :
    (m.act action).halted = false := by
  have hstep : action ≠ .step := by
    rintro rfl
    exact h
  rcases (m.served_of_ne_step hstep).halted with ⟨-, hhalted⟩ | ⟨hload, -⟩
  · exact hhalted
  · exact absurd h hload

/-! ### Runs -/

theorem ended_run (h : m.control.Ended) (actions : List HostAction) :
    (actions.foldl act m).control.Ended := by
  induction actions generalizing m with
  | nil => exact h
  | cons action rest ih => exact ih (ended_act h action)

theorem halted_run (h : m.halted = true) {actions : List HostAction}
    (hloads : m.NeverLoads actions) : (actions.foldl act m).halted = true := by
  induction actions generalizing m with
  | nil => exact h
  | cons action rest ih => exact ih (halted_act h hloads.1) hloads.2

/-! ### The two ways to stop -/

/-- The next step executes a `HALT`. -/
def ReachesHalt (m : Machine) : Prop :=
  ∃ m' d, m.Arrives m' ∧ m'.Executes d ∧ d.instruction = .halt

theorem step_of_reachesHalt (h : m.ReachesHalt) :
    m.step.machine.halted = true ∧ m.step.answer = .ok .halted := by
  obtain ⟨m', d, harrives, hd, hhalt⟩ := h
  obtain ⟨hmachine, hanswer⟩ := hd.halts hhalt
  have hhalted : (settle m'.cycle).machine.halted = true := by rw [hmachine]
  obtain ⟨hrunning, control, batch, hcheckpoint, hdelivered, rfl⟩ := harrives
  rw [step_of_proceed hrunning hcheckpoint rfl, hdelivered]
  unfold conclude
  dsimp only
  rw [hanswer]
  exact ⟨hhalted, congrArg Except.ok (if_pos hhalted)⟩

/-- **A machine that has stopped does nothing.** Once its host has terminated it, whatever the
host does later, a step finds the machine terminated, or halted if it is halted at that moment,
and does nothing. Once it has executed a `HALT`, a step finds it halted and does nothing, whatever
the host does but load a program; a load ends that. -/
theorem stops_for_good (m : Machine) (later : List HostAction) :
    let terminated : Machine := later.foldl act (m.act .terminate)
    let halted : Machine := later.foldl act m.step.machine
    terminated.Rests (if terminated.halted then .halted else .terminated) ∧
      (m.ReachesHalt → m.step.answer = .ok .halted ∧
        (m.step.machine.NeverLoads later → halted.Rests .halted ∧
          ∀ load, halted.LoadsBy load → (halted.act load).halted = false)) := by
  intro terminated halted
  refine ⟨rests_of_ended (ended_run m.control.ended_terminate later), fun hhalt => ?_⟩
  obtain ⟨hhalted, hanswer⟩ := step_of_reachesHalt hhalt
  refine ⟨hanswer, fun hloads => ?_⟩
  exact ⟨rests_of_halted (halted_run hhalted hloads), fun load => halted_of_loadsBy⟩

/-- The smallest machine, about to execute a `HALT`. -/
def halting : Machine := (blank ⟨512, 1, false, false, 0⟩).act (.loadSource "halt;")

/-- It is still halted when its host has raised an interrupt, paused it, terminated it and let it
take a step, and found no room for another program where the first one is. -/
theorem stops_for_good_halting : halting.step.answer = .ok .halted ∧
    ([.raise .keyPress, .pause, .terminate, .step, .load ⟨96, 96, none, [0], .empty⟩].foldl act
      halting.step.machine).Rests .halted := by
  have hstate : halting.halted = false ∧ halting.control = .idle := by decide +kernel
  obtain ⟨hrunning, hcontrol⟩ := hstate
  obtain ⟨d, hd, hhalt⟩ : ∃ d, halting.Executes d ∧ d.instruction = .halt :=
    exists_executes (by decide +kernel)
  have hreaches : halting.ReachesHalt :=
    ⟨halting, d, ⟨hrunning, halting.control, [], by rw [hcontrol]; rfl, rfl, rfl⟩, hd, hhalt⟩
  have hstops := (stops_for_good halting
    [.raise .keyPress, .pause, .terminate, .step, .load ⟨96, 96, none, [0], .empty⟩]).2 hreaches
  -- the first program stands where the second one is to go
  have hrefused : (([.raise .keyPress, .pause, .terminate, .step].foldl act
      halting.step.machine).load ⟨96, 96, none, [0], .empty⟩).2.1.toOption = none := by
    decide +kernel
  refine ⟨hstops.1, (hstops.2 ⟨id, id, id, id, fun hload => ?_, trivial⟩).1⟩
  have hload := congrArg Except.toOption hload
  exact absurd (hrefused.symm.trans hload) nofun

end Machine
end RegisterMachine
