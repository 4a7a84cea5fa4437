import RegisterMachine.Proofs.Machine.FatalError
import RegisterMachine.Proofs.Machine.Stopped

/-! What a machine does after a failure.

A failure is answered to the host and is kept nowhere: the machine that a failing step leaves is
not halted, and its host has no requests left (`ready_of_failure`). So the next step is a cycle
like any other. It does nothing only if it fails in its turn before anything has changed, where
the program counter is no address to fetch from and the fault of that cannot be delivered
(`Stuck`): every other cycle executes an instruction, or moves the program counter or the stack. A
run can also fail in the flush of the console at its end, and then the machine has stopped
before. -/
namespace RegisterMachine.Machine

variable {m m' : Machine} {i : Interrupt} {f : Failure}

/-! ### Machines that do nothing -/

/-- However many steps the machine takes, it executes no instruction, and memory, contexts,
allocator, generator and console stay as they are. -/
def Inert (m : Machine) : Prop :=
  ∀ n, let later := (fun m : Machine => m.step.machine)^[n] m
    (∀ m' d, later.Arrives m' → ¬m'.Executes d) ∧ later.memory = m.memory ∧
      later.contexts = m.contexts ∧ later.allocator = m.allocator ∧
      later.generator = m.generator ∧ later.console = m.console

/-- Nothing can be fetched, and the fault of that cannot be delivered. -/
def Stuck (m : Machine) : Prop :=
  ∃ i f, m.fetch = .error i ∧ (m.raise i).answer = .error f

theorem inert_of_still (hstep : m.step.machine = m)
    (hnone : ∀ m' d, m.Arrives m' → ¬m'.Executes d) : m.Inert := by
  intro n
  have hlater : (fun m : Machine => m.step.machine)^[n] m = m := Function.iterate_fixed hstep n
  dsimp only
  rw [hlater]
  exact ⟨hnone, rfl, rfl, rfl, rfl, rfl⟩

theorem inert_of_rests {status : Status} (h : m.Rests status) : m.Inert :=
  inert_of_still (by rw [h.step]) fun m' _ harrives => absurd harrives (h.idle m')

/-! ### Raising a fault -/

/-- A fault is delivered, which leaves one more word on the stack, or it leaves the machine as it
is. -/
theorem raise_fault (h : m.Sound) (hfault : i.isFault = true) :
    (∃ pc, m.raise i =
      ⟨m.faulted m.devices pc (m.context.pc :: m.context.stack.words), .ok (), []⟩) ∨
    ∃ f, m.raise i = ⟨m, .error f, []⟩ := by
  obtain ⟨v, hvector⟩ := vector_ok h i
  by_cases hv : v = 0
  · subst hv
    rw [raise_without_handler hvector, if_pos hfault]
    exact .inr ⟨_, rfl⟩
  · by_cases hroom : m.context.stack.size < m.context.stack.capacity + 2
    · exact .inl ⟨_, raise_handled hvector hv hroom⟩
    · exact .inr ⟨_, raise_full hvector hv (Nat.not_lt.mp hroom)⟩

theorem isFault_of_fetch (h : m.Sound) (hfetch : m.fetch = .error i) : i.isFault = true := by
  by_cases hpc : m.RejectsPc
  · unfold RejectsPc at hpc
    unfold fetch at hfetch
    dsimp only at hfetch
    split at hfetch
    · cases hfetch
      rfl
    · split at hfetch
      · cases hfetch
        rfl
      · rw [if_pos (by omega)] at hfetch
        cases hfetch
        rfl
  · rw [fetch_eq h hpc] at hfetch
    cases hfetch

/-! ### What a failing step leaves -/

/-- What stops an instruction is no `YIELD` and no `HALT`. -/
theorem sameControl_cycle (hstop : m.cycle.stop ≠ none) : m.SameControl m.cycle.machine := by
  refine related_cycle SameControl.refl SameControl.trans ⟨rfl, rfl⟩ fun d e hexecutes hplan => ?_
  have hperform : (m.advance.perform e).stop ≠ none := by
    rw [hexecutes.cycle.2, hplan] at hstop
    exact hstop
  refine sameControl_perform m.advance ?_ ?_
  · rintro rfl
    exact hperform rfl
  · rintro rfl
    exact hperform rfl

theorem sameControl_settle_cycle (hfails : (settle m.cycle).answer = .error f) :
    m.SameControl (settle m.cycle).machine := by
  have hstop : m.cycle.stop ≠ none := by
    intro hnone
    rw [settle, hnone] at hfails
    cases hfails
  exact (sameControl_cycle hstop).trans (sameControl_settle _)

/-- It runs, and its host asks for nothing. -/
theorem ready_of_failure (h : m.Sound) (hfails : m.step.answer = .error f) :
    m.step.machine.Ready := by
  obtain ⟨hrunning, control, batch, hcheckpoint, hcases⟩ := step_error hfails
  have hstanding : ({ m with control } : Machine).SameControl m.step.machine := by
    have hdelivery := sameControl_deliver { m with control } batch
    rcases hcases with ⟨-, hmachine⟩ | ⟨-, hsettled, hmachine⟩
    · rw [hmachine]
      exact hdelivery
    · rw [hmachine]
      exact hdelivery.trans (sameControl_settle_cycle hsettled)
  refine ⟨h.follows m.follows_step, hstanding.halted.trans hrunning, ?_⟩
  rw [hstanding.control]
  exact Control.quiet_of_proceed hcheckpoint h.attention

/-! ### The step behind it -/

theorem inert_of_stuck (h : m.Ready) (hstuck : m.Stuck) : m.Inert := by
  obtain ⟨i, f, hfetch, hraise⟩ := hstuck
  have hmachine : (m.raise i).machine = m := by
    rcases raise_fault h.sound (isFault_of_fetch h.sound hfetch) with ⟨pc, heq⟩ | ⟨f', heq⟩
    · rw [heq] at hraise
      cases hraise
    · rw [heq]
  refine inert_of_still ?_ ?_
  · rw [step_of_ready h, machine_conclude, cycle, hfetch]
    exact hmachine
  · intro m' d harrives hexecutes
    obtain rfl := (arrives_of_ready h).mp harrives
    obtain ⟨word, hword, -⟩ := hexecutes.fetched
    rw [hfetch] at hword
    cases hword

theorem contexts_faulted_ne {devices : DeviceTable} {pc : UInt32} {words : List UInt32}
    (h : words ≠ m'.context.stack.words) : (m.faulted devices pc words).contexts ≠ m'.contexts := by
  intro hsame
  have hcontext : (m.faulted devices pc words).context = m'.context :=
    congrArg ContextTable.current hsame
  rw [context_faulted] at hcontext
  exact h (congrArg (fun c => c.stack.words) hcontext)

/-- A word that is fetched and not executed moves the program counter, and if it is illegal, the
fault may put a word on the stack. -/
theorem moves_of_fetch {word : UInt32} (h : m.Ready) (hfetch : m.fetch = .ok word)
    (hnone : ∀ d, ¬m.Executes d) : m.step.machine.contexts ≠ m.contexts := by
  have hadvance : m.advance.contexts ≠ m.contexts := by
    intro hsame
    have hcontext : m.advance.context = m.context := congrArg ContextTable.current hsame
    rw [context_advance] at hcontext
    have hpc := congrArg Context.pc hcontext
    simp at hpc
  rw [step_of_ready h, machine_conclude, cycle, hfetch]
  dsimp only
  cases hdecode : decode word with
  | none =>
    have hsound : m.advance.Sound := h.sound.follows m.follows_advance
    show (m.advance.raise .illegalOpcode).machine.contexts ≠ m.contexts
    rcases raise_fault hsound (i := .illegalOpcode) rfl with ⟨pc, heq⟩ | ⟨f, heq⟩
    · rw [heq, context_advance]
      exact contexts_faulted_ne (List.cons_ne_self _ _)
    · rw [heq]
      exact hadvance
  | some d =>
    have hunmet : ¬d.condition.holds m.context.flag = true :=
      fun hholds => hnone d ⟨⟨word, hfetch, hdecode⟩, hholds⟩
    have hexecute : m.advance.execute d = m.advance.done := by
      rw [execute, flag_advance, if_neg hunmet]
    dsimp only
    rw [hexecute]
    exact hadvance

/-- So a machine that runs does nothing only if it is stuck. -/
theorem inert_iff_stuck (h : m.Ready) : m.Inert ↔ m.Stuck := by
  refine ⟨fun hinert => ?_, inert_of_stuck h⟩
  have hnone : ∀ d, ¬m.Executes d := fun d => (hinert 0).1 m d ((arrives_of_ready h).mpr rfl)
  have hcontexts : m.step.machine.contexts = m.contexts := (hinert 1).2.2.1
  cases hfetch : m.fetch with
  | ok word => exact absurd hcontexts (moves_of_fetch h hfetch hnone)
  | error i =>
    rcases raise_fault h.sound (isFault_of_fetch h.sound hfetch) with ⟨pc, heq⟩ | ⟨f, heq⟩
    · have hmoved : m.step.machine = (m.raise i).machine := by
        rw [step_of_ready h, machine_conclude, cycle, hfetch]
        rfl
      rw [hmoved, heq] at hcontexts
      exact absurd hcontexts (contexts_faulted_ne (List.cons_ne_self _ _))
    · exact ⟨i, f, hfetch, by rw [heq]⟩

/-! ### Runs -/

/-- A step says that the machine is halted or terminated only if it is. -/
theorem stopped_of_answer (h : m.Sound) {status : Status} (hanswer : m.step.answer = .ok status)
    (hstatus : status = .halted ∨ status = .terminated) :
    m.step.machine.halted = true ∨ m.step.machine.control.Ended := by
  have hconclude : ∀ r : Report Unit, (conclude r).answer = .ok status →
      (conclude r).machine.halted = true := by
    intro r hr
    rw [machine_conclude]
    rw [conclude] at hr
    cases hr' : r.answer with
    | error f => simp [hr'] at hr
    | ok _ =>
      rw [hr'] at hr
      by_contra hrunning
      have hstatus' : Status.running = status := by simpa [hrunning] using hr
      rw [← hstatus'] at hstatus
      simp at hstatus
  by_cases hhalted : m.halted = true
  · rw [step, if_pos hhalted]
    exact .inl hhalted
  · rw [step, if_neg hhalted, Control.checkpoint_eq h.attention] at hanswer ⊢
    by_cases hterminated : m.control.terminated = true
    · rw [if_pos hterminated]
      refine .inr ⟨hterminated, h.attention.trans ?_⟩
      exact Control.needsAttention_of_terminated hterminated
    · rw [if_neg hterminated] at hanswer ⊢
      by_cases hpaused : m.control.isPaused = true
      · rw [if_pos hpaused] at hanswer
        obtain rfl := Except.ok.inj hanswer
        simp at hstatus
      · rw [if_neg hpaused] at hanswer ⊢
        dsimp only at hanswer ⊢
        split at hanswer
        · exact .inl (hconclude _ hanswer)
        · exact .inl (hconclude _ hanswer)

theorem finish_eq (m : Machine) (reason : ExitReason) (reported : Array Event) :
    (m.finish reason reported).1 = m ∧ ∀ f, (m.finish reason reported).2.1 = .failed f →
      ∃ error, m.console.flush = .error error ∧ f = .stream error := by
  rw [finish, close]
  cases m.console.flush with
  | ok _ => exact ⟨rfl, fun f h => by cases h⟩
  | error e => exact ⟨rfl, fun f h => ⟨e, rfl, (Outcome.failed.inj h).symm⟩⟩

/-- A run fails in one of its steps, or the machine has stopped and the console is not flushed. -/
theorem runFrom_failure (h : m.Sound) {reported : Array Event} {limit : Nat}
    (hfails : (m.runFrom reported limit).2.1 = .failed f) :
    let after := (m.runFrom reported limit).1
    (∃ m' : Machine, m'.Sound ∧ m'.step.answer = .error f ∧ after = m'.step.machine) ∨
      (after.halted = true ∨ after.control.Ended) ∧
        ∃ error, after.console.flush = .error error ∧ f = .stream error := by
  induction limit generalizing m reported with
  | zero => cases hfails
  | succ limit ih =>
    have hsound : m.step.machine.Sound := h.follows m.follows_step
    rw [runFrom] at hfails ⊢
    dsimp only at hfails ⊢
    cases hanswer : m.step.answer with
    | error f' =>
      simp only [hanswer] at hfails ⊢
      obtain rfl := Outcome.failed.inj hfails
      exact .inl ⟨m, h, hanswer, rfl⟩
    | ok status =>
      simp only [hanswer] at hfails ⊢
      cases status with
      | running => exact ih hsound hfails
      | suspended => cases hfails
      | halted =>
        have hstopped := stopped_of_answer h hanswer (.inl rfl)
        obtain ⟨hmachine, hflush⟩ := finish_eq m.step.machine .halted (reported ++ m.step.events)
        rw [hmachine]
        exact .inr ⟨hstopped, hflush f hfails⟩
      | terminated =>
        have hstopped := stopped_of_answer h hanswer (.inr rfl)
        obtain ⟨hmachine, hflush⟩ :=
          finish_eq m.step.machine .terminated (reported ++ m.step.events)
        rw [hmachine]
        exact .inr ⟨hstopped, hflush f hfails⟩

/-- **A failure does not stop the machine.** What a failing step of a reachable machine leaves runs,
with no requests of its host: the next step is a cycle like any other, and however many follow,
they do nothing exactly if the machine is stuck. A run that fails leaves such a machine too, unless
it had come to its end and only the console was not flushed; then the machine has stopped, and
does nothing. -/
theorem inert_after_failure (hreach : m.Reachable) :
    (∀ f, m.step.answer = .error f →
      m.step.machine.Ready ∧ (m.step.machine.Inert ↔ m.step.machine.Stuck)) ∧
    ∀ limit f, (m.run limit).2.1 = .failed f →
      let after := (m.run limit).1
      after.Ready ∧ (after.Inert ↔ after.Stuck) ∨
        (after.halted = true ∨ after.control.terminated = true) ∧ after.Inert ∧
          ∃ error, after.console.flush = .error error ∧ f = .stream error := by
  have hstep : ∀ {m : Machine} {f : Failure}, m.Sound → m.step.answer = .error f →
      m.step.machine.Ready ∧ (m.step.machine.Inert ↔ m.step.machine.Stuck) := by
    intro m f h hfails
    have hready := ready_of_failure h hfails
    exact ⟨hready, inert_iff_stuck hready⟩
  refine ⟨fun f => hstep hreach.sound, fun limit f hfails => ?_⟩
  rcases runFrom_failure hreach.sound hfails with ⟨m', h, hanswer, heq⟩ | ⟨hstopped, herror⟩
  · rw [run, heq]
    exact .inl (hstep h hanswer)
  · refine .inr ?_
    rcases hstopped with hhalted | hended
    · exact ⟨.inl hhalted, inert_of_rests (rests_of_halted hhalted), herror⟩
    · exact ⟨.inr hended.terminated, inert_of_rests (rests_of_ended hended), herror⟩

/-- A machine without a program and without handlers fails, and does nothing from then on. -/
theorem inert_after_failure_blank :
    let m := blank ⟨512, 1, false, false, 0⟩
    m.step.answer = .error (.unhandled .segmentationFault 0) ∧ m.step.machine.Inert ∧
      (m.run 1).1.Inert := by
  intro m
  have hreach : m.Reachable := .create (create_of_plain rfl rfl)
  obtain ⟨hstep, hrun⟩ := inert_after_failure hreach
  have hfails : m.step.answer = .error (.unhandled .segmentationFault 0) := by decide +kernel
  have hruns : (m.run 1).2.1 = .failed (.unhandled .segmentationFault 0) := by decide +kernel
  have hstuck : m.step.machine.Stuck :=
    ⟨.segmentationFault, .unhandled .segmentationFault 0, by decide +kernel, by decide +kernel⟩
  have hinert := (hstep _ hfails).2.mpr hstuck
  refine ⟨hfails, hinert, ?_⟩
  rcases hrun 1 _ hruns with ⟨-, hiff⟩ | ⟨-, hinert', -⟩
  · exact hiff.mpr ⟨.segmentationFault, .unhandled .segmentationFault 0, by decide +kernel,
      by decide +kernel⟩
  · exact hinert'

/-- A call of a device that is not there, and an instruction behind it. -/
def callingOn : Machine :=
  (blank ⟨512, 1, false, false, 0⟩).act (.loadSource "call r1, 7; inc r1; halt;")

/-- The call fails, and the next step executes the instruction behind it. -/
theorem callingOn_goes_on :
    callingOn.Reachable ∧ callingOn.step.answer = .error (.unattached 7) ∧
      callingOn.step.machine.step.answer = .ok .running ∧
      callingOn.step.machine.context.registers.get 0 = 0 ∧
      callingOn.step.machine.step.machine.context.registers.get 0 = 1 ∧
      ¬callingOn.step.machine.Inert := by
  have hruns : callingOn.step.answer = .error (.unattached 7) ∧
      callingOn.step.machine.step.answer = .ok .running ∧
      callingOn.step.machine.context.registers.get 0 = 0 ∧
      callingOn.step.machine.step.machine.context.registers.get 0 = 1 := by decide +kernel
  obtain ⟨hfails, hgoes, hbefore, hbehind⟩ := hruns
  refine ⟨.act (.create (create_of_plain rfl rfl)) _ trivial, hfails, hgoes, hbefore, hbehind,
    fun hinert => ?_⟩
  have hcontexts : callingOn.step.machine.step.machine.contexts =
      callingOn.step.machine.contexts := (hinert 1).2.2.1
  have hcontext : callingOn.step.machine.step.machine.context = callingOn.step.machine.context :=
    congrArg ContextTable.current hcontexts
  rw [hcontext, hbefore] at hbehind
  exact absurd hbehind (by decide)

end RegisterMachine.Machine
