import RegisterMachine.Proofs.Machine.Reachable

/-! What becomes of the requests of a host.

A machine shares its control with any number of host threads. A call of a thread
holds the lock of the control from its start to its end, so it is one action, and
so is each look at everything that a checkpoint of the machine takes under the
lock: one that finds the machine suspended gives the lock back, sleeps, and looks
again when it is woken. The attention flag is read without the lock, at one
moment. `run` takes such actions in any order. No order loses a request:
`loses_nothing` says where every interrupt is, that no checkpoint returns from a
suspended machine, and that the flag tells of every request that still stands.

What a step of the machine does to its control is such a run of the machine's own
actions (`control_step`). -/
namespace RegisterMachine.Control

/-! ### Actions -/

/-- What a host thread may call for. -/
inductive Call where
  | pause
  | resume
  | terminate
  | setYieldSuspends (suspends : Bool)
  | raise (i : Interrupt)
  deriving DecidableEq, Repr

inductive Action where
  /-- A host thread makes a call. -/
  | call (thread : Nat) (request : Call)
  /-- The machine reads the attention flag. -/
  | look
  /-- The machine, in a checkpoint, looks at everything. It stays there if it is suspended. -/
  | inspect
  /-- The machine executes a `YIELD`. -/
  | yield
  deriving DecidableEq, Repr

/-- The action is one of the machine itself. -/
def Action.IsOwn (a : Action) : Prop := ∀ thread request, a ≠ .call thread request

/-- The control after a call. -/
def serve (c : Control) : Call → Control
  | .pause => c.pause
  | .resume => c.resume
  | .terminate => c.terminate
  | .setYieldSuspends suspends => c.setYieldSuspends suspends
  | .raise i => c.raise i

/-- The control after an action. -/
def after (c : Control) : Action → Control
  | .call _ request => c.serve request
  | .look => c
  | .inspect =>
    match c.inspect with
    | .proceed control _ => control
    | .suspended | .terminate => c
  | .yield => c.yield

/-- The control after actions in this order. -/
def run (c : Control) (actions : List Action) : Control := actions.foldl after c

/-- The batch that an action returns, if it is a checkpoint that returns one. -/
def batchOf (c : Control) : Action → List (List Interrupt)
  | .inspect =>
    match c.inspect with
    | .proceed _ batch => [batch]
    | .suspended | .terminate => []
  | _ => []

/-- The batches that the checkpoints among these actions return. -/
def batches (c : Control) : List Action → List (List Interrupt)
  | [] => []
  | a :: rest => c.batchOf a ++ (c.after a).batches rest

/-- What the machine reads of the attention flag. -/
def reads (c : Control) : List Action → List Bool
  | [] => []
  | .look :: rest => c.attention :: c.reads rest
  | a :: rest => (c.after a).reads rest

/-- The interrupt that an action raises, if it does. -/
def Action.raises : Action → List Interrupt
  | .call _ (.raise i) => [i]
  | _ => []

/-- The interrupts that these actions raise, in their order. -/
def raised (actions : List Action) : List Interrupt := actions.flatMap Action.raises

/-- The machine neither is terminated nor may go on. -/
def Suspended (c : Control) : Prop := c.isPaused = true ∧ c.terminated = false

variable {c : Control} {a : Action} {actions front later : List Action}

theorem run_append (c : Control) (front later : List Action) :
    c.run (front ++ later) = (c.run front).run later :=
  List.foldl_append

theorem batches_append (c : Control) (front later : List Action) :
    c.batches (front ++ later) = c.batches front ++ (c.run front).batches later := by
  induction front generalizing c with
  | nil => rfl
  | cons a rest ih =>
    rw [List.cons_append, batches, batches, ih, List.append_assoc]
    rfl

theorem raised_append (front later : List Action) :
    raised (front ++ later) = raised front ++ raised later :=
  List.flatMap_append

theorem reads_append_look (c : Control) (actions : List Action) :
    c.reads (actions ++ [.look]) = c.reads actions ++ [(c.run actions).attention] := by
  induction actions generalizing c with
  | nil => rfl
  | cons a rest ih =>
    cases a with
    | look => exact congrArg (c.attention :: ·) (ih c)
    | call _ _ | inspect | yield => exact ih _

/-! ### One action -/

/-- A checkpoint returns nothing exactly as long as the machine is suspended. -/
theorem inspect_eq_suspended_iff : c.inspect = .suspended ↔ c.Suspended := by
  unfold inspect Suspended
  cases c.terminated <;> cases c.isPaused <;> simp

/-- A checkpoint that returns a batch takes the whole queue and brings the flag up to date. -/
theorem inspect_eq_proceed_iff {control : Control} {batch : List Interrupt} :
    c.inspect = .proceed control batch ↔
      c.terminated = false ∧ c.isPaused = false ∧
        control = { c with pending := [] }.refresh ∧ batch = c.pending := by
  unfold inspect
  cases c.terminated <;> cases c.isPaused <;> simp [eq_comm]

theorem pending_yield (c : Control) : c.yield.pending = c.pending := by
  unfold yield
  split <;> rfl

/-- What an action takes out of the queue it returns, and what it raises goes to the end. -/
theorem pending_after (c : Control) (a : Action) :
    (c.batchOf a).flatten ++ (c.after a).pending = c.pending ++ a.raises := by
  cases a with
  | call thread request =>
    cases request with
    | raise i => rfl
    | pause | resume | terminate | setYieldSuspends _ => exact (List.append_nil _).symm
  | look => exact (List.append_nil _).symm
  | yield => exact (c.pending_yield).trans (List.append_nil _).symm
  | inspect =>
    unfold batchOf after
    cases hinspect : c.inspect with
    | suspended | terminate => exact (List.append_nil _).symm
    | proceed control batch =>
      obtain ⟨-, -, rfl, rfl⟩ := inspect_eq_proceed_iff.mp hinspect
      exact congrArg (· ++ []) (List.append_nil c.pending)

/-- Every action that changes what the flag tells of also sets the flag. -/
theorem attention_after (h : c.attention = c.needsAttention) (a : Action) :
    (c.after a).attention = (c.after a).needsAttention := by
  cases a with
  | call thread request => cases request <;> rfl
  | look => exact h
  | yield => exact Machine.attention_yield c h
  | inspect =>
    unfold after
    cases hinspect : c.inspect with
    | suspended | terminate => exact h
    | proceed control batch =>
      obtain ⟨-, -, rfl, rfl⟩ := inspect_eq_proceed_iff.mp hinspect
      rfl

/-- Only a call to resume ends a pause. -/
theorem paused_after (h : c.paused = true) (ha : ∀ thread, a ≠ .call thread .resume) :
    (c.after a).paused = true := by
  cases a with
  | call thread request =>
    cases request with
    | resume => exact absurd rfl (ha thread)
    | pause => rfl
    | terminate | setYieldSuspends _ | raise _ => exact h
  | look => exact h
  | yield =>
    show c.yield.paused = true
    unfold yield
    split <;> exact h
  | inspect =>
    unfold after
    cases hinspect : c.inspect with
    | suspended | terminate => exact h
    | proceed control batch =>
      obtain ⟨-, -, rfl, -⟩ := inspect_eq_proceed_iff.mp hinspect
      exact h

/-- Nothing takes a termination back. -/
theorem terminated_after (h : c.terminated = true) (a : Action) :
    (c.after a).terminated = true := by
  cases a with
  | call thread request =>
    cases request with
    | terminate => rfl
    | pause | resume | setYieldSuspends _ | raise _ => exact h
  | look => exact h
  | yield =>
    show c.yield.terminated = true
    unfold yield
    split <;> exact h
  | inspect =>
    unfold after
    cases hinspect : c.inspect with
    | suspended | terminate => exact h
    | proceed control batch =>
      obtain ⟨hterminated, -⟩ := inspect_eq_proceed_iff.mp hinspect
      exact absurd (h.symm.trans hterminated) (by simp)

/-! ### Runs -/

theorem attention_run (h : c.attention = c.needsAttention) (actions : List Action) :
    (c.run actions).attention = (c.run actions).needsAttention := by
  induction actions generalizing c with
  | nil => exact h
  | cons a rest ih => exact ih (attention_after h a)

/-- The batches and then the queue are the interrupts in the order in which they were raised. -/
theorem flatten_batches (c : Control) (actions : List Action) :
    (c.batches actions).flatten ++ (c.run actions).pending = c.pending ++ raised actions := by
  induction actions generalizing c with
  | nil => exact (List.append_nil _).symm
  | cons a rest ih =>
    calc (c.batches (a :: rest)).flatten ++ (c.run (a :: rest)).pending
        = (c.batchOf a).flatten ++
            (((c.after a).batches rest).flatten ++ ((c.after a).run rest).pending) := by
          rw [batches, List.flatten_append, List.append_assoc]
          rfl
      _ = (c.batchOf a).flatten ++ ((c.after a).pending ++ raised rest) := by rw [ih]
      _ = c.pending ++ (a.raises ++ raised rest) := by
          rw [← List.append_assoc, pending_after, List.append_assoc]

theorem paused_run (h : c.paused = true) (hkept : ∀ thread, .call thread .resume ∉ actions) :
    (c.run actions).paused = true := by
  induction actions generalizing c with
  | nil => exact h
  | cons a rest ih =>
    refine ih (paused_after h fun thread ha => ?_) fun thread hmem => ?_
    · exact hkept thread (ha ▸ List.mem_cons_self)
    · exact hkept thread (List.mem_cons_of_mem _ hmem)

theorem terminated_run (h : c.terminated = true) (actions : List Action) :
    (c.run actions).terminated = true := by
  induction actions generalizing c with
  | nil => exact h
  | cons a rest ih => exact ih (terminated_after h a)

/-! ### Where an interrupt is -/

/-- Element number `k` of lists that stand one behind the other is in list number `p.1` of them,
as its element number `p.2`. -/
def Holds (lists : List (List Interrupt)) (k : Nat) (p : Nat × Nat) : Prop :=
  ∃ list, lists[p.1]? = some list ∧ p.2 < list.length ∧
    (lists.take p.1).flatten.length + p.2 = k

theorem holds_cons_zero {list : List Interrupt} {lists : List (List Interrupt)} {k i : Nat} :
    Holds (list :: lists) k (0, i) ↔ i < list.length ∧ i = k := by
  simp [Holds]

theorem holds_cons_succ {list : List Interrupt} {lists : List (List Interrupt)} {k n i : Nat} :
    Holds (list :: lists) k (n + 1, i) ↔
      list.length ≤ k ∧ Holds lists (k - list.length) (n, i) := by
  simp only [Holds, List.getElem?_cons_succ, List.take_succ_cons, List.flatten_cons,
    List.length_append]
  constructor
  · rintro ⟨own, hown, hi, hk⟩
    exact ⟨by omega, own, hown, hi, by omega⟩
  · rintro ⟨hle, own, hown, hi, hk⟩
    exact ⟨own, hown, hi, by omega⟩

/-- It is in one list, at one place of it. -/
theorem existsUnique_holds (lists : List (List Interrupt)) {k : Nat}
    (hk : k < lists.flatten.length) : ∃! p, Holds lists k p := by
  induction lists generalizing k with
  | nil => exact absurd hk (Nat.not_lt_zero k)
  | cons list rest ih =>
    rw [List.flatten_cons, List.length_append] at hk
    by_cases hfirst : k < list.length
    · refine ⟨(0, k), holds_cons_zero.mpr ⟨hfirst, rfl⟩, ?_⟩
      rintro ⟨n, i⟩ hp
      cases n with
      | zero => rw [(holds_cons_zero.mp hp).2]
      | succ n => exact absurd (holds_cons_succ.mp hp).1 (Nat.not_le.mpr hfirst)
    · obtain ⟨⟨n, i⟩, hp, honly⟩ := ih (k := k - list.length) (by omega)
      refine ⟨(n + 1, i), holds_cons_succ.mpr ⟨Nat.not_lt.mp hfirst, hp⟩, ?_⟩
      rintro ⟨n', i'⟩ hp'
      cases n' with
      | zero =>
        obtain ⟨hlt, rfl⟩ := holds_cons_zero.mp hp'
        exact absurd hlt hfirst
      | succ n' =>
        obtain ⟨rfl, rfl⟩ := Prod.mk.inj (honly _ (holds_cons_succ.mp hp').2)
        rfl

theorem getElem?_of_holds {lists : List (List Interrupt)} {k : Nat} {p : Nat × Nat}
    (h : Holds lists k p) : (lists[p.1]?.bind (·[p.2]?)) = lists.flatten[k]? := by
  obtain ⟨n, i⟩ := p
  induction lists generalizing k n with
  | nil =>
    obtain ⟨list, hlist, -⟩ := h
    exact absurd hlist (by simp)
  | cons list rest ih =>
    cases n with
    | zero =>
      obtain ⟨hlt, rfl⟩ := holds_cons_zero.mp h
      rw [List.flatten_cons, List.getElem?_append_left hlt]
      rfl
    | succ n =>
      obtain ⟨hle, hrest⟩ := holds_cons_succ.mp h
      rw [List.flatten_cons, List.getElem?_append_right hle, ← ih n hrest]
      rfl

/-! ### Requests that stand -/

/-- A request that was made after the actions `front`, with the actions `later` behind it, has not
been taken back: an interrupt is in no batch yet, and no thread has ended a pause. -/
def Stands (front later : List Action) (thread : Nat) : Call → Prop
  | .raise i =>
    (idle.batches (front ++ .call thread (.raise i) :: later)).flatten.length ≤
      (raised front).length
  | .pause => ∀ thread', .call thread' .resume ∉ later
  | .terminate => True
  | .resume | .setYieldSuspends _ => False

theorem needsAttention_of_stands {thread : Nat} {request : Call}
    (h : Stands front later thread request) :
    (idle.run (front ++ .call thread request :: later)).needsAttention = true := by
  unfold needsAttention
  cases request with
  | pause =>
    have hpaused : (idle.run (front ++ .call thread .pause :: later)).paused = true := by
      rw [run_append]
      exact paused_run (c := (idle.run front).pause) rfl h
    simp [hpaused]
  | terminate =>
    have hterminated :
        (idle.run (front ++ .call thread .terminate :: later)).terminated = true := by
      rw [run_append]
      exact terminated_run (c := (idle.run front).terminate) rfl later
    simp [hterminated]
  | raise i =>
    -- all that was raised is in a batch or in the queue, and this one is in no batch
    have hlength := congrArg List.length
      (flatten_batches idle (front ++ .call thread (.raise i) :: later))
    rw [raised_append] at hlength
    have hbatches : _ ≤ (raised front).length := h
    have hqueue : (idle.run (front ++ .call thread (.raise i) :: later)).pending ≠ [] := by
      intro hnil
      have hidle : idle.pending.length = 0 := rfl
      have hown : (raised (.call thread (.raise i) :: later)).length =
          1 + (raised later).length := by
        rw [raised, List.flatMap_cons, List.length_append]
        rfl
      simp only [hnil, List.length_append, List.length_nil] at hlength
      omega
    simp [List.isEmpty_eq_false_iff.mpr hqueue]
  | resume | setYieldSuspends _ => exact absurd h id

/-- **No request is lost.** After any actions of host threads and of the machine, in any order: the
attention flag tells whether there is anything to attend to; the batches that checkpoints have
returned and then the queue are the interrupts in the order in which they were raised, so that each
of them is in one batch or in the queue, once; no checkpoint has returned from a suspended machine;
and reading the flag gives true as long as a request stands. -/
theorem loses_nothing (actions : List Action) :
    let c := idle.run actions
    c.attention = (c.paused || c.yielded || c.terminated || !c.pending.isEmpty) ∧
      (idle.batches actions).flatten ++ c.pending = raised actions ∧
      (∀ k i, (raised actions)[k]? = some i →
        ∃! p : Nat × Nat, Holds (idle.batches actions ++ [c.pending]) k p ∧
          ((idle.batches actions ++ [c.pending])[p.1]?.bind (·[p.2]?)) = some i) ∧
      (∀ front later, actions = front ++ .inspect :: later →
        (idle.run front).inspect ≠ .suspended →
          ¬((idle.run front).paused ∨ (idle.run front).yielded) ∨ (idle.run front).terminated) ∧
      ∀ front thread request later, actions = front ++ .call thread request :: later →
        Stands front later thread request →
          (idle.reads (actions ++ [.look])).getLast? = some true := by
  intro c
  have hattention : c.attention = c.needsAttention := attention_run rfl actions
  have horder : (idle.batches actions).flatten ++ c.pending = raised actions :=
    flatten_batches idle actions
  refine ⟨hattention, horder, fun k i hk => ?_, fun front later _ hreturns => ?_, ?_⟩
  · have hflatten : (idle.batches actions ++ [c.pending]).flatten = raised actions := by
      rw [List.flatten_append, List.flatten_singleton, horder]
    obtain ⟨hlt, -⟩ := List.getElem?_eq_some_iff.mp hk
    obtain ⟨p, hp, honly⟩ :=
      existsUnique_holds (idle.batches actions ++ [c.pending]) (hflatten ▸ hlt)
    refine ⟨p, ⟨hp, ?_⟩, fun q hq => honly q hq.1⟩
    rw [getElem?_of_holds hp, hflatten, hk]
  · have hfree := mt inspect_eq_suspended_iff.mpr hreturns
    unfold Suspended isPaused at hfree
    simp only [Bool.or_eq_true, not_and, Bool.not_eq_false] at hfree
    exact or_iff_not_imp_left.mpr fun h => hfree (not_not.mp h)
  · rintro front thread request later rfl hstands
    rw [reads_append_look, List.getLast?_append, List.getLast?_singleton, Option.some_or]
    exact congrArg some (hattention.trans (needsAttention_of_stands hstands))

/-- A pause comes between the look of the machine and its checkpoint, which then waits for the end
of the pause and returns what was raised in the meantime too. -/
example :
    let waiting : List Action :=
      [.call 1 (.raise .keyPress), .look, .call 2 .pause, .inspect, .call 1 (.raise .serial0)]
    let resumed : List Action := [.call 2 .resume, .look, .inspect, .look]
    (idle.run waiting).inspect = .suspended ∧ idle.batches waiting = [] ∧
      idle.batches (waiting ++ resumed) = [[.keyPress, .serial0]] ∧
      idle.reads (waiting ++ resumed) = [true, true, false] := by
  decide

end RegisterMachine.Control

/-! ### The machine -/

namespace RegisterMachine.Machine

open Control

/-- The requests of the host and the halted flag are as they were. -/
structure SameControl (m m' : Machine) : Prop where
  control : m'.control = m.control
  halted : m'.halted = m.halted

theorem SameControl.refl (m : Machine) : m.SameControl m := ⟨rfl, rfl⟩

theorem SameControl.trans {m m' m'' : Machine} (h : m.SameControl m') (h' : m'.SameControl m'') :
    m.SameControl m'' :=
  ⟨h'.control.trans h.control, h'.halted.trans h.halted⟩

theorem sameControl_raise (m : Machine) (i : Interrupt) : m.SameControl (m.raise i).machine := by
  obtain ⟨stack, pc, heq⟩ := m.raise_changes i
  rw [heq]
  exact ⟨rfl, rfl⟩

theorem sameControl_deliver (m : Machine) (batch : List Interrupt) :
    m.SameControl (m.deliver batch).machine :=
  related_deliver SameControl.refl SameControl.trans sameControl_raise m batch

theorem sameControl_settle (p : Progress) : p.machine.SameControl (settle p).machine :=
  related_settle SameControl.refl sameControl_raise p

/-- Only a `YIELD` changes the control, and only a `HALT` the halted flag. -/
theorem sameControl_perform (m : Machine) {e : Effect} (hyield : e ≠ .yield) (hhalt : e ≠ .halt) :
    m.SameControl (m.perform e).machine := by
  cases e with
  | yield => exact absurd rfl hyield
  | halt => exact absurd rfl hhalt
  | allocate rd size cleared =>
    cases cleared with
    | true =>
      simp only [perform, allocateCleared, if_true]
      split <;> exact ⟨rfl, rfl⟩
    | false =>
      simp only [perform, allocate, Bool.false_eq_true, if_false]
      split <;> exact ⟨rfl, rfl⟩
  | draw rd kind => cases kind <;> exact ⟨rfl, rfl⟩
  | write device start bytes =>
    simp only [perform, overwrite, done]
    split
    · exact ⟨rfl, rfl⟩
    · split <;> exact ⟨rfl, rfl⟩
  | release b =>
    simp only [perform]
    split <;> exact ⟨rfl, rfl⟩
  | switch id =>
    simp only [perform]
    split
    · rename_i m' events hok
      obtain ⟨contexts, rfl⟩ := switchContext_ok hok
      exact ⟨rfl, rfl⟩
    · exact ⟨rfl, rfl⟩
  | readByte rd =>
    simp only [perform, readByte]
    split <;> exact ⟨rfl, rfl⟩
  | writeByte b =>
    simp only [perform, writeByte]
    split <;> exact ⟨rfl, rfl⟩
  | callDevice slot argument =>
    simp only [perform, callDevice]
    split <;> exact ⟨rfl, rfl⟩
  | context _ | ignore _ => exact ⟨rfl, rfl⟩

theorem control_perform (m : Machine) {e : Effect} (he : e ≠ .yield) :
    (m.perform e).machine.control = m.control := by
  by_cases hhalt : e = .halt
  · subst hhalt
    rfl
  · exact (m.sameControl_perform he hhalt).control

/-- An instruction leaves the control as it is, or is a `YIELD`. -/
theorem control_cycle (m : Machine) :
    ∃ actions, (∀ a ∈ actions, a.IsOwn) ∧ m.control.batches actions = [] ∧
      m.cycle.machine.control = m.control.run actions := by
  have hnone : ∀ control, control = m.control →
      ∃ actions, (∀ a ∈ actions, a.IsOwn) ∧ m.control.batches actions = [] ∧
        control = m.control.run actions :=
    fun _ h => ⟨[], fun _ hmem => absurd hmem List.not_mem_nil, rfl, h⟩
  rw [cycle]
  cases m.fetch with
  | error i => exact hnone _ rfl
  | ok word =>
    dsimp only
    cases decode word with
    | none => exact hnone _ rfl
    | some d =>
      dsimp only [execute]
      split
      · cases m.advance.plan d with
        | error stop => exact hnone _ rfl
        | ok e =>
          by_cases he : e = .yield
          · subst he
            refine ⟨[.yield], ?_, rfl, rfl⟩
            simp [Action.IsOwn]
          · exact hnone _ (m.advance.control_perform he)
      · exact hnone _ rfl

/-- A checkpoint that lets the machine go on has read the flag and, if it was set, returned a
batch. -/
theorem checkpoint_proceed {c control : Control} {batch : List Interrupt}
    (h : c.checkpoint = .proceed control batch) :
    ∃ actions, (∀ a ∈ actions, a.IsOwn) ∧ (c.batches actions).flatten = batch ∧
      control = c.run actions := by
  unfold checkpoint at h
  split at h
  · refine ⟨[.look, .inspect], by simp [Action.IsOwn], ?_, ?_⟩
    · simp [batches, batchOf, after, h]
    · simp [Control.run, after, h]
  · obtain ⟨rfl, rfl⟩ := Checkpoint.proceed.inj h
    exact ⟨[.look], by simp [Action.IsOwn], rfl, rfl⟩

/-- What a step does to the control is a run of the machine's own actions, and the interrupts that
it delivers are those that their checkpoint returns. -/
theorem control_step (m : Machine) :
    ∃ actions, (∀ a ∈ actions, a.IsOwn) ∧ m.step.machine.control = m.control.run actions ∧
      ∀ control batch, m.halted = false → m.control.checkpoint = .proceed control batch →
        (m.control.batches actions).flatten = batch := by
  rw [step]
  split
  · rename_i hhalted
    refine ⟨[], fun _ h => absurd h List.not_mem_nil, rfl, fun _ _ hrunning => ?_⟩
    exact absurd (hhalted.symm.trans hrunning) (by simp)
  · cases hcheckpoint : m.control.checkpoint with
    | suspended | terminate =>
      exact ⟨[], fun _ h => absurd h List.not_mem_nil, rfl, fun _ _ _ h => absurd h (by simp)⟩
    | proceed control batch =>
      obtain ⟨entry, hentry, hbatch, rfl⟩ := checkpoint_proceed hcheckpoint
      have hdelivered := (sameControl_deliver { m with control := m.control.run entry } batch).control
      dsimp only
      split
      · refine ⟨entry, hentry, ?_, ?_⟩
        · rw [machine_conclude, hdelivered]
        · rintro _ _ - h
          rw [← (Checkpoint.proceed.inj h).2, hbatch]
      · obtain ⟨own, hown, hnone, hcycle⟩ :=
          control_cycle ({ m with control := m.control.run entry }.deliver batch).machine
        rw [hdelivered] at hnone hcycle
        refine ⟨entry ++ own, ?_, ?_, ?_⟩
        · intro a ha
          exact (List.mem_append.mp ha).elim (hentry a) (hown a)
        · rw [machine_conclude, (sameControl_settle _).control, hcycle, run_append]
        · rintro _ _ - h
          rw [batches_append, hnone, List.append_nil, hbatch, (Checkpoint.proceed.inj h).2]

end RegisterMachine.Machine
