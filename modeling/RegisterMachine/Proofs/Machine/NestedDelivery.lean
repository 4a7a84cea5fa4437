import RegisterMachine.Proofs.Machine.CallStack

/-! Interrupts that are delivered together.

What the host has raised is delivered before the next instruction, one interrupt after the other.
Each delivery pushes the program counter that the one before it has set, so that the handlers come
to lie inside of each other (`deliver_nested`): the last one runs first, and each returns to the
one that was delivered before it, down to the instruction that was interrupted
(`Unwinds.words`). -/
namespace RegisterMachine.Machine

variable {m m' : Machine} {batch : List Interrupt} {visits : List UInt32}

/-! ### Delivering a batch -/

/-- The handlers that a batch calls, in its order. -/
def handlers (m : Machine) (batch : List Interrupt) : List UInt32 := batch.filterMap m.handler?

/-- What the handlers of a batch interrupt: the place where the machine stands, and each handler but
the last one. -/
def passed (m : Machine) (batch : List Interrupt) : List UInt32 :=
  (m.context.pc :: m.handlers batch).dropLast

/-- The machine at the last handler, with all that it has passed on the call stack. -/
def nested (m : Machine) (batch : List Interrupt) : Machine :=
  m.faulted m.devices ((m.handlers batch).getLastD m.context.pc)
    ((m.passed batch).reverse ++ m.context.stack.words)

/-- Each interrupt of the batch has a handler or is a signal, and the handlers have room on the call
stack with its reserve. -/
structure Deliverable (m : Machine) (batch : List Interrupt) : Prop where
  handled : ∀ i ∈ batch, m.handler? i = none → i.isFault = false
  room : m.context.stack.size + (m.handlers batch).length ≤ m.context.stack.capacity + 2

/-- The handlers are entered in the order of the batch, each from the one before it. -/
theorem deliver_nested (h : m.Sound) (hbatch : m.Deliverable batch) :
    (m.deliver batch).answer = .ok () ∧ (m.deliver batch).machine = m.nested batch := by
  induction batch generalizing m with
  | nil => exact ⟨rfl, m.faulted_self.symm⟩
  | cons i rest ih =>
    obtain ⟨hhandled, hroom⟩ := hbatch
    obtain ⟨hi, hrest⟩ := List.forall_mem_cons.mp hhandled
    obtain ⟨v, hvector⟩ := vector_ok h i
    have hhandler := handler?_of_vector hvector
    rw [deliver]
    by_cases hv : v = 0
    · -- a signal that nothing handles is dropped
      rw [if_pos hv] at hhandler
      have hhandlers : m.handlers (i :: rest) = m.handlers rest := List.filterMap_cons_none hhandler
      rw [hhandlers] at hroom
      subst hv
      rw [raise_without_handler hvector, if_neg (by simp [hi hhandler])]
      simp only [nested, passed, hhandlers]
      exact ih h ⟨hrest, hroom⟩
    · rw [if_neg hv] at hhandler
      have hhandlers : m.handlers (i :: rest) = v * 4 :: m.handlers rest :=
        List.filterMap_cons_some hhandler
      rw [hhandlers, List.length_cons] at hroom
      rw [raise_handled hvector hv (by omega)]
      dsimp only
      -- the handler is what the next interrupt interrupts
      let entered := m.faulted m.devices (v * 4) (m.context.pc :: m.context.stack.words)
      have hcontext : entered.context = { m.context with
          pc := v * 4
          stack := { m.context.stack with words := m.context.pc :: m.context.stack.words } } :=
        context_faulted ..
      have hsound : entered.Sound := h.follows (follows_of_same rfl rfl rfl rfl)
      have hroom' : entered.context.stack.size + (entered.handlers rest).length ≤
          entered.context.stack.capacity + 2 := by
        rw [hcontext]
        show m.context.stack.size + 1 + (m.handlers rest).length ≤ m.context.stack.capacity + 2
        omega
      obtain ⟨hanswer, hmachine⟩ := ih hsound ⟨hrest, hroom'⟩
      refine ⟨hanswer, hmachine.trans ?_⟩
      rw [nested, nested, passed, passed, hhandlers, hcontext, faulted_faulted, List.getLastD_cons,
        List.dropLast_cons_of_ne_nil (List.cons_ne_nil _ _), List.reverse_cons, List.append_assoc]
      rfl

/-- Nothing but the queue and its flag changes besides what is delivered. -/
theorem arrives_of_pending (h : m.Sound) (hrunning : m.halted = false)
    (hterminated : m.control.terminated = false) (hpaused : m.control.isPaused = false)
    (hpending : m.Deliverable m.control.pending) :
    m.Arrives m' ↔ m' =
      { m.nested m.control.pending with
        control := { m.control with pending := [], attention := false } } := by
  let noted : Machine :=
    { m with control := { m.control with pending := [], attention := false } }
  have hcheckpoint : m.control.checkpoint = .proceed noted.control m.control.pending := by
    rw [Control.checkpoint_eq h.attention, if_neg (by simp [hterminated]),
      if_neg (by simp [hpaused])]
  have hnoted : noted.Sound :=
    h.follows (m.follows_control (attention_checkpoint hcheckpoint))
  obtain ⟨hanswer, hmachine⟩ :=
    deliver_nested (m := noted) hnoted ⟨hpending.handled, hpending.room⟩
  constructor
  · rintro ⟨-, control, batch, hproceed, -, rfl⟩
    obtain ⟨rfl, rfl⟩ := Checkpoint.proceed.inj (hcheckpoint.symm.trans hproceed)
    exact hmachine
  · rintro rfl
    exact ⟨hrunning, _, _, hcheckpoint, hanswer, hmachine.symm⟩

/-! ### Returning from the handlers -/

/-- One after the other, a handler executes a `RETURN` that finds the call stack as the handler has
found it. Between the two anything may happen. The machine stands at the beginning of the first
handler, and each `RETURN` goes to one of these addresses, where the next handler begins. -/
inductive Unwinds : Machine → List UInt32 → Machine → Prop
  | nil (m : Machine) : Unwinds m [] m
  | ret {m s r last : Machine} {d : Decoded} {visits : List UInt32} (harrives : s.Arrives r)
    (hfound : r.context.stack.words = m.context.stack.words) (hd : r.Executes d)
    (hret : d.instruction = .ret) (hrest : Unwinds s.step.machine visits last) :
    Unwinds m (s.step.machine.context.pc :: visits) last

/-- The addresses are the words on the stack, from the top, and the last one is where it ends. -/
theorem Unwinds.words {last : Machine} {front below : List UInt32} (h : m.Unwinds visits last)
    (hwords : m.context.stack.words = front ++ below) (hlength : visits.length = front.length) :
    visits = front ∧ last.context.stack.words = below ∧
      last.context.pc = visits.getLastD m.context.pc := by
  induction h generalizing front with
  | nil m =>
    obtain rfl := List.eq_nil_of_length_eq_zero hlength.symm
    exact ⟨rfl, hwords, rfl⟩
  | @ret m s r last d visits harrives hfound hd hret hrest ih =>
    obtain ⟨a, front, rfl⟩ := List.exists_cons_of_length_eq_add_one hlength.symm
    have hreturns : r.Returns a (front ++ below) := returns_of_words hd hret (hfound.trans hwords)
    have hcontext : s.step.machine.context = { r.context with
        pc := a, lr := a, stack := { r.context.stack with words := front ++ below } } := by
      rw [hreturns.step s harrives, hreturns.machine]
      exact context_modifyContext r _
    obtain ⟨rfl, hbelow, hpc⟩ := ih (by rw [hcontext]) (Nat.succ.inj hlength)
    refine ⟨by rw [hcontext], hbelow, ?_⟩
    rw [List.getLastD_cons]
    exact hpc

/-- **What is raised together is delivered at once, each handler inside of the one before.** A
reachable machine that is not stopped has interrupts pending; each has a handler or is dropped,
and the handlers have room on the call stack. Before the next instruction the stack has gained the
program counter and all handlers but the last, the machine stands at the last one, the queue is
empty, and nothing else has changed. So as many `RETURN`s as there are handlers, each of which finds
the stack as its handler found it, visit the handlers backwards and end at the instruction that
was interrupted, with the stack as it was. -/
theorem pending_nested (hreach : m.Reachable) (hrunning : m.halted = false)
    (hterminated : m.control.terminated = false) (hpaused : m.control.isPaused = false)
    (hpending : m.Deliverable m.control.pending) :
    let handlers := m.control.pending.filterMap m.handler?
    let passed := (m.context.pc :: handlers).dropLast
    let delivered : Machine :=
      { m.faulted m.devices (handlers.getLastD m.context.pc)
          (passed.reverse ++ m.context.stack.words) with
        control := { m.control with pending := [], attention := false } }
    (∀ i, ∃ v, m.vector i = .ok v ∧ m.handler? i = if v = 0 then none else some (v * 4)) ∧
    (∀ m', m.Arrives m' ↔ m' = delivered) ∧
    ∀ visits last, delivered.Unwinds visits last → visits.length = handlers.length →
      visits = passed.reverse ∧ last.context.pc = m.context.pc ∧
        last.context.stack.words = m.context.stack.words := by
  intro handlers passed delivered
  have hsound := hreach.sound
  refine ⟨fun i => ?_, fun m' => ?_, fun visits last hunwinds hlength => ?_⟩
  · obtain ⟨v, hvector⟩ := vector_ok hsound i
    exact ⟨v, hvector, handler?_of_vector hvector⟩
  · exact arrives_of_pending hsound hrunning hterminated hpaused hpending
  · have hcontext : delivered.context = { m.context with
        pc := handlers.getLastD m.context.pc
        stack := { m.context.stack with words := passed.reverse ++ m.context.stack.words } } :=
      context_faulted m m.devices _ _
    have hpassed : passed.reverse.length = handlers.length := by simp [passed]
    obtain ⟨rfl, hwords, hpc⟩ := hunwinds.words (by rw [hcontext]) (hlength.trans hpassed.symm)
    refine ⟨rfl, ?_, hwords⟩
    -- the first address that was passed is the last one that is visited
    rw [hpc, hcontext]
    dsimp only [passed]
    cases handlers with
    | nil => rfl
    | cons first others =>
      rw [List.dropLast_cons_of_ne_nil (List.cons_ne_nil _ _), List.reverse_cons,
        List.getLastD_concat]

/-- Two interrupts with handlers that only return are pending, and one without between them. -/
def interrupted : Machine :=
  [.loadSource "halt; return; return;", .setVector .keyPress 25, .setVector .serial0 26,
    .raise .keyPress, .raise .raster, .raise .serial0].foldl act (blank ⟨512, 1, false, false, 0⟩)

/-- The handler of the last interrupt returns to that of the first, and that one to the program. -/
theorem pending_nested_interrupted : ∃ delivered last, interrupted.Arrives delivered ∧
    delivered.context.pc = 104 ∧ delivered.context.stack.words = [100, 96] ∧
      delivered.Unwinds [100, 96] last ∧ last.context.pc = 96 ∧
        last.context.stack.words = [] := by
  have hreach : interrupted.Reachable :=
    Reachable.foldl_act (.create (create_of_plain rfl rfl)) _
  have hstart : interrupted.halted = false ∧ interrupted.control.terminated = false ∧
      interrupted.control.isPaused = false ∧
      (∀ i ∈ interrupted.control.pending, interrupted.handler? i = none → i.isFault = false) ∧
      interrupted.control.pending.filterMap interrupted.handler? = [100, 104] ∧
      interrupted.context.pc = 96 ∧ interrupted.context.stack = ⟨[], 1⟩ := by decide +kernel
  obtain ⟨hrunning, hterminated, hpaused, hsignals, hhandlers, hpc, hstack⟩ := hstart
  have hdeliverable : interrupted.Deliverable interrupted.control.pending := by
    refine ⟨hsignals, ?_⟩
    rw [handlers, hhandlers, hstack]
    decide
  obtain ⟨-, harrives, hunwinds⟩ :=
    pending_nested hreach hrunning hterminated hpaused hdeliverable
  obtain ⟨delivered, hdelivered⟩ : ∃ delivered, interrupted.Arrives delivered :=
    ⟨_, (harrives _).mpr rfl⟩
  have heq := (harrives delivered).mp hdelivered
  rw [← heq] at hunwinds
  have hlast : delivered.context.pc = 104 ∧ delivered.context.stack.words = [100, 96] ∧
      (delivered.fetch.toOption.bind decode).map (fun d =>
        (d.instruction, d.condition.holds delivered.context.flag)) = some (.ret, true) := by
    rw [heq]
    decide +kernel
  obtain ⟨hpc', hwords', hreturn⟩ := hlast
  obtain ⟨d, hd, hret⟩ := exists_executes hreturn
  -- the last handler has returned to the first
  have hfirst : interrupted.step.machine.halted = false ∧
      interrupted.step.machine.control.needsAttention = false ∧
      (interrupted.step.machine.fetch.toOption.bind decode).map (fun d =>
        (d.instruction, d.condition.holds interrupted.step.machine.context.flag)) =
          some (.ret, true) := by decide +kernel
  obtain ⟨hrunning', hquiet', hreturn'⟩ := hfirst
  have hready : interrupted.step.machine.Ready :=
    ⟨hreach.sound.follows interrupted.follows_step, hrunning', hquiet'⟩
  obtain ⟨d', hd', hret'⟩ := exists_executes hreturn'
  have hreturns := Unwinds.ret hdelivered rfl hd hret
    (.ret ((arrives_of_ready hready).mpr rfl) rfl hd' hret' (.nil _))
  obtain ⟨hvisits, hback, hwords⟩ := hunwinds _ _ hreturns (by rw [hhandlers]; rfl)
  rw [hvisits, hhandlers, hpc] at hreturns
  rw [hpc] at hback
  rw [hstack] at hwords
  exact ⟨delivered, _, hdelivered, hpc', hwords', hreturns, hback, hwords⟩

end RegisterMachine.Machine
