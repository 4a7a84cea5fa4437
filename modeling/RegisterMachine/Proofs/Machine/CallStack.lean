import RegisterMachine.Proofs.Machine.PreciseFault
import RegisterMachine.Proofs.Machine.Invariant
import RegisterMachine.Proofs.Machine.Stopped

/-! Calls and returns.

Return addresses and pushed words share one stack in each context. An instruction pushes one word,
pops one or leaves the stack; the delivery of an interrupt pushes one; everything else leaves all
stacks, but for a load or a host's own edit. So of the stacks before and after a step one is the
bottom of the other (`nests_step`), and what a stack holds at the bottom stays there as long as the
stack is never shorter. What a call has pushed is therefore what a `RETURN` finds when the stack is
again as short as it was then (`call_stack_discipline`).

Interrupts are delivered inside of a step. To speak of what is between an instruction and a
delivery, a run is made of whole actions and of parts of steps (`Part`), and a step is its parts one
after the other (`pass_parts`). -/
namespace RegisterMachine

namespace ContextTable

variable {t t' t'' : ContextTable} {id other : Nat} {words : List UInt32} {f : Context → Context}

/-! ### The words of a context -/

/-- The words on the call stack of a context, the top one first. -/
def words? (t : ContextTable) (id : Nat) : Option (List UInt32) :=
  (t.get? id).map fun c => c.stack.words

/-- The last `n` words on the call stack of a context. -/
def bottom? (t : ContextTable) (id n : Nat) : Option (List UInt32) :=
  (t.words? id).map fun words => words.rtake n

/-- The context is there and its call stack holds at least `n` words. -/
def Holds (t : ContextTable) (id n : Nat) : Prop := ∃ words ∈ t.words? id, n ≤ words.length

instance (t : ContextTable) (id n : Nat) : Decidable (t.Holds id n) :=
  inferInstanceAs (Decidable (∃ words ∈ t.words? id, n ≤ words.length))

theorem words?_activeId (h : t.Numbered) : t.words? t.activeId = some t.current.stack.words := by
  rw [words?, get?_activeId h.distinct]
  rfl

theorem words?_modify (h : t.Numbered) : (t.modify f).words? id =
    if id = t.activeId then some (f t.current).stack.words else t.words? id := by
  rw [words?, get?_modify h.distinct]
  split <;> rfl

theorem words?_modify_of_same (h : t.Numbered)
    (hsame : (f t.current).stack.words = t.current.stack.words) :
    (t.modify f).words? id = t.words? id := by
  rw [words?_modify h]
  split
  · rename_i hid
    rw [hid, words?_activeId h, hsame]
  · rfl

theorem words?_ensure (hensure : t.ensure other = .ok t') (hwords : t.words? id = some words) :
    t'.words? id = some words := by
  obtain ⟨c, hget, rfl⟩ := Option.map_eq_some_iff.mp hwords
  rw [words?, get?_ensure hensure hget]
  rfl

/-! ### Stacks on stacks -/

/-- The call stack of the context has words on top of what it had, if any. -/
def Grows (id : Nat) (t t' : ContextTable) : Prop :=
  ∀ words, t.words? id = some words → ∃ words', t'.words? id = some words' ∧ words <:+ words'

/-- Of the call stack of the context before and after one is the bottom of the other. -/
def Nests (id : Nat) (t t' : ContextTable) : Prop :=
  ∀ words, t.words? id = some words →
    ∃ words', t'.words? id = some words' ∧ (words <:+ words' ∨ words' <:+ words)

theorem grows_of_kept (h : ∀ words, t.words? id = some words → t'.words? id = some words) :
    Grows id t t' :=
  fun words hwords => ⟨words, h words hwords, List.suffix_refl words⟩

theorem Grows.refl (id : Nat) (t : ContextTable) : Grows id t t := grows_of_kept fun _ h => h

theorem Grows.trans (h : Grows id t t') (h' : Grows id t' t'') : Grows id t t'' := by
  intro words hwords
  obtain ⟨words', hwords', hsuffix⟩ := h words hwords
  obtain ⟨words'', hwords'', hsuffix'⟩ := h' words' hwords'
  exact ⟨words'', hwords'', hsuffix.trans hsuffix'⟩

theorem Grows.nests (h : Grows id t t') : Nests id t t' := by
  intro words hwords
  obtain ⟨words', hwords', hsuffix⟩ := h words hwords
  exact ⟨words', hwords', .inl hsuffix⟩

/-- What was there first and what is left in the end are both bottoms of what was there between. -/
theorem Grows.trans_nests (h : Grows id t t') (h' : Nests id t' t'') : Nests id t t'' := by
  intro words hwords
  obtain ⟨words', hwords', hsuffix⟩ := h words hwords
  obtain ⟨words'', hwords'', hnested⟩ := h' words' hwords'
  refine ⟨words'', hwords'', ?_⟩
  rcases hnested with hgrown | hshrunk
  · exact .inl (hsuffix.trans hgrown)
  · exact List.suffix_or_suffix_of_suffix hsuffix hshrunk

theorem nests_modify (h : t.Numbered) (hplanned : t.current.Planned (f t.current)) :
    Nests id t (t.modify f) := by
  intro words hwords
  rw [words?_modify h]
  split
  · rename_i hid
    rw [hid, words?_activeId h] at hwords
    obtain rfl := Option.some.inj hwords
    refine ⟨_, rfl, ?_⟩
    cases hplanned with
    | keeps hstack => exact .inl (by rw [hstack])
    | pushes word hpush =>
      unfold CallStack.push at hpush
      split at hpush
      · rw [← Except.ok.inj hpush]
        exact .inl (List.suffix_cons _ _)
      · cases hpush
    | pops word hpop =>
      unfold CallStack.pop at hpop
      split at hpop
      · cases hpop
      · rename_i top rest hwords
        rw [← (Prod.mk.inj (Except.ok.inj hpop)).2, hwords]
        exact .inr (List.suffix_cons _ _)
  · exact ⟨words, hwords, .inl (List.suffix_refl words)⟩

/-- What is at the bottom of two nested stacks that are both long enough is the same. -/
theorem rtake_of_suffix {words words' : List UInt32} {n : Nat} (h : words <:+ words')
    (hn : n ≤ words.length) : words'.rtake n = words.rtake n := by
  obtain ⟨front, rfl⟩ := h
  rw [List.rtake, List.rtake, List.length_append, Nat.add_sub_assoc hn, List.drop_append,
    List.drop_of_length_le (Nat.le_add_right _ _), Nat.add_sub_cancel_left, List.nil_append]

theorem Nests.bottom? {n : Nat} (h : Nests id t t') (ht : t.Holds id n) (ht' : t'.Holds id n) :
    t'.bottom? id n = t.bottom? id n := by
  obtain ⟨words, hwords, hn⟩ := ht
  obtain ⟨words', hwords', hnested⟩ := h words hwords
  obtain ⟨same, hsame, hn'⟩ := ht'
  obtain rfl := Option.some.inj (hwords'.symm.trans hsame)
  have hwords : t.words? id = some words := hwords
  rw [ContextTable.bottom?, ContextTable.bottom?, hwords, hwords']
  rcases hnested with hsuffix | hsuffix
  · exact congrArg some (rtake_of_suffix hsuffix hn)
  · exact congrArg some (rtake_of_suffix hsuffix hn').symm

end ContextTable

namespace Machine

open ContextTable

variable {m m' : Machine} {id n : Nat} {d : Decoded} {e : Effect} {i : Interrupt}
  {words : List UInt32}

/-! ### Steps -/

theorem grows_raise (h : m.contexts.Numbered) (i : Interrupt) :
    Grows id m.contexts (m.raise i).machine.contexts := by
  rcases m.contexts_raise i with heq | ⟨target, stack, hpush, heq⟩ <;> rw [heq]
  · exact .refl id _
  · intro words hwords
    rw [words?_modify h]
    split
    · rename_i hid
      rw [hid, words?_activeId h] at hwords
      obtain rfl := Option.some.inj hwords
      refine ⟨_, rfl, ?_⟩
      unfold CallStack.pushReserved? at hpush
      obtain ⟨-, heq⟩ := Option.ite_none_right_eq_some.mp hpush
      rw [← Option.some.inj heq]
      exact List.suffix_cons _ _
    · exact ⟨words, hwords, List.suffix_refl words⟩

theorem grows_switchContext {events : List Event} {other : Nat}
    (h : m.switchContext other = .ok (m', events)) : Grows id m.contexts m'.contexts := by
  obtain ⟨⟨created, contexts⟩, hswitch, heq⟩ := map_ok_iff.mp h
  obtain ⟨rfl, -⟩ := Prod.mk.inj heq
  obtain ⟨ensured, hensured, rfl⟩ := switch_ok hswitch
  refine grows_of_kept fun words hwords => ?_
  rw [words?, get?_activate]
  exact words?_ensure hensured hwords

theorem words?_advance (h : m.contexts.Numbered) :
    m.advance.contexts.words? id = m.contexts.words? id :=
  words?_modify_of_same h rfl

theorem nests_perform (h : m.contexts.Numbered)
    (hplanned : ∀ c, e = .context c → m.context.Planned c) :
    Nests id m.contexts (m.perform e).machine.contexts := by
  rcases m.contexts_perform e with ⟨other, rfl⟩ | heq | ⟨c, he, heq⟩ | ⟨rd, value, heq⟩
  · simp only [perform]
    split
    · rename_i hok
      exact (grows_switchContext hok).nests
    · exact (Grows.refl id _).nests
  · exact heq ▸ (Grows.refl id _).nests
  · exact heq ▸ nests_modify h (hplanned c he)
  · exact heq ▸ nests_modify h (Context.planned_of_same rfl rfl)

/-- An instruction, with its fetch, pushes or pops one word at most. -/
theorem nests_cycle (h : m.contexts.Numbered) : Nests id m.contexts m.cycle.machine.contexts := by
  have hadvance : Grows id m.contexts m.advance.contexts :=
    grows_of_kept fun _ hwords => (words?_advance h).trans hwords
  rw [cycle]
  cases m.fetch with
  | error i => exact (Grows.refl id _).nests
  | ok word =>
    dsimp only
    cases decode word with
    | none => exact hadvance.nests
    | some d =>
      refine hadvance.trans_nests ?_
      dsimp only
      rw [execute]
      split
      · cases hplan : m.advance.plan d with
        | error stop => exact (Grows.refl id _).nests
        | ok e =>
          refine nests_perform (h.congr (ids_modify _ _)) fun c he => ?_
          exact m.advance.plansOn_plan d c (hplan.trans (congrArg _ he))
      · exact (Grows.refl id _).nests

/-- An instruction that is interrupted has not touched the stack. -/
theorem grows_cycle_of_interrupt (id : Nat) (hsound : m.Sound) (h : m.contexts.Numbered)
    (hstop : m.cycle.stop = some (.interrupt i)) :
    Grows id m.contexts m.cycle.machine.contexts := by
  obtain ⟨devices, -, heq⟩ := cycle_of_interrupt hsound hstop
  rw [heq]
  exact grows_of_kept fun _ hwords => (words?_modify_of_same h rfl).trans hwords

theorem grows_deliver (h : m.contexts.Numbered) (batch : List Interrupt) :
    Grows id m.contexts (m.deliver batch).machine.contexts :=
  (related_deliver
    (R := fun m m' => m.contexts.Numbered →
      m'.contexts.Numbered ∧ Grows id m.contexts m'.contexts)
    (fun _ h => ⟨h, .refl id _⟩)
    (fun h h' hm => ⟨(h' (h hm).1).1, (h hm).2.trans (h' (h hm).1).2⟩)
    (fun _ i h => ⟨numbered_raise h i, grows_raise h i⟩) m batch h).2

/-- Up to its instruction a step pushes what it delivers. -/
theorem grows_arrives (id : Nat) (h : m.contexts.Numbered) (harrives : m.Arrives m') :
    m'.contexts.Numbered ∧ Grows id m.contexts m'.contexts := by
  obtain ⟨-, control, batch, -, -, rfl⟩ := harrives
  have hnoted : { m with control }.contexts.Numbered := h
  exact ⟨numbered_deliver hnoted batch, grows_deliver hnoted batch⟩

/-- A step pushes any number of words, and pops at most one of them or of what was there: nothing is
pushed behind a pop. -/
theorem nests_step (hsound : m.Sound) (h : m.contexts.Numbered) :
    Nests id m.contexts m.step.machine.contexts := by
  rcases m.step_cases with ⟨m', harrives, hstep⟩ | hstep | ⟨control, batch, -, hstep⟩ <;> rw [hstep]
  · obtain ⟨hnumbered, hgrown⟩ := grows_arrives id h harrives
    refine hgrown.trans_nests ?_
    rw [settle]
    cases hstop : m'.cycle.stop with
    | none => exact nests_cycle hnumbered
    | some stop =>
      cases stop with
      | failure f => exact nests_cycle hnumbered
      | interrupt i =>
        have hsound' : m'.Sound := hsound.follows harrives.follows
        have hcycle := grows_cycle_of_interrupt id hsound' hnumbered hstop
        exact (hcycle.trans (grows_raise (m'.evolves_cycle.numbered hnumbered) i)).nests
  · exact (Grows.refl id _).nests
  · exact (grows_deliver (m := { m with control }) h batch).nests

/-! ### What a host does -/

/-- The context that an action loads a program into, if it is a load. -/
def target? (m : Machine) : HostAction → Option Nat
  | .loadSource _ | .load _ => some m.contexts.activeId
  | .loadInto id _ => some id
  | _ => none

/-- The action loads no program into the context and, if the host changes the context itself, it
leaves the call stack alone. -/
def Spares (m : Machine) (id : Nat) : HostAction → Prop
  | .editContext f => m.contexts.activeId = id → (f m.context).stack = m.context.stack
  | action => m.LoadsBy action → m.target? action ≠ some id

theorem words?_loadInto {other : Nat} {p : Program}
    (hspares : (m.loadInto other p).2.1 = .ok () → other ≠ id)
    (hwords : m.contexts.words? id = some words) :
    (m.loadInto other p).1.contexts.words? id = some words := by
  rw [loadInto] at hspares ⊢
  cases hensure : m.contexts.ensure other with
  | error e => exact hwords
  | ok contexts =>
    rw [hensure] at hspares
    have hensured := words?_ensure hensure hwords
    have hplaced := contexts_place { m with contexts } p
    dsimp only at hspares ⊢
    split
    · rename_i placed e hplace
      rw [hplace] at hplaced
      exact hplaced ▸ hensured
    · rename_i placed hplace
      rw [hplace] at hplaced hspares
      have hplaced : placed.contexts = contexts := hplaced
      have hmem : other ∈ placed.contexts.ids := hplaced ▸ mem_of_ensure hensure
      show (placed.contexts.set other (placed.contextFor p)).words? id = some words
      rw [ContextTable.words?, get?_set hmem, if_neg fun heq => hspares rfl heq.symm, hplaced]
      exact hensured

theorem nests_act (hsound : m.Sound) (h : m.contexts.Numbered) {action : HostAction}
    (hspares : m.Spares id action) : Nests id m.contexts (m.act action).contexts := by
  have hload : ∀ p, m.Spares id (.load p) → Grows id m.contexts (m.act (.load p)).contexts :=
    fun p hp => grows_of_kept fun _ hwords =>
      words?_loadInto (fun hok heq => hp hok (congrArg some heq)) hwords
  cases action with
  | step => exact nests_step hsound h
  | load p => exact (hload p hspares).nests
  | loadInto other p =>
    refine (grows_of_kept fun _ hwords => ?_).nests
    exact words?_loadInto (fun hok heq => hspares hok (congrArg some heq)) hwords
  | loadSource source =>
    have hact := m.act_loadSource source
    cases hassemble : m.assemble source with
    | error e =>
      rw [hassemble] at hact
      exact hact ▸ (Grows.refl id _).nests
    | ok p =>
      rw [hassemble] at hact
      rw [hact]
      refine (hload p fun hok => ?_).nests
      exact hspares ((m.loadsBy_loadSource source).mpr ⟨p, hassemble, hok⟩)
  | switchContext other =>
    simp only [act]
    split
    · rename_i hok
      exact (grows_switchContext hok).nests
    · exact (Grows.refl id _).nests
  | editContext f =>
    refine (grows_of_kept fun words hwords => ?_).nests
    show (m.contexts.modify f).words? id = some words
    rw [words?_modify h]
    split
    · rename_i hid
      rw [hid, words?_activeId h] at hwords
      have hstack : (f m.contexts.current).stack = m.contexts.current.stack := hspares hid.symm
      rw [hstack]
      exact hwords
    · exact hwords
  | setVector j handler =>
    obtain ⟨memory, heq⟩ := m.act_setVector j handler
    rw [heq]
    exact (Grows.refl id _).nests
  | attach _ _ | writeMemory _ _ =>
    simp only [act]
    split <;> exact (Grows.refl id _).nests
  | detach _ | setConsole _ | setClock _ => exact (Grows.refl id _).nests
  | pause | resume | terminate | setYieldSuspends _ | raise _ => exact (Grows.refl id _).nests

/-! ### Parts of steps -/

/-- An action of the host, or a part of a step. -/
inductive Part where
  | act (action : HostAction)
  /-- The machine takes note of the requests of its host. -/
  | checkpoint
  /-- An interrupt is raised. -/
  | raise (i : Interrupt)
  /-- An instruction is fetched and executed, up to what stops it. -/
  | cycle

/-- The machine after an action or a part of a step. -/
def pass (m : Machine) : Part → Machine
  | .act action => m.act action
  | .checkpoint =>
    match m.control.checkpoint with
    | .proceed control _ => { m with control }
    | _ => m
  | .raise i => (m.raise i).machine
  | .cycle => m.cycle.machine

/-- The interrupts of a batch that are raised: all of them, or those up to the first one that cannot
be delivered. -/
def raised (m : Machine) : List Interrupt → List Interrupt
  | [] => []
  | i :: rest =>
    i :: match (m.raise i).answer with
      | .ok () => (m.raise i).machine.raised rest
      | .error _ => []

/-- The parts of a step. -/
def parts (m : Machine) : List Part :=
  if m.halted then []
  else
    match m.control.checkpoint with
    | .proceed control batch =>
      let noted : Machine := { m with control }
      let delivered := noted.deliver batch
      .checkpoint :: (noted.raised batch).map .raise ++
        match delivered.answer with
        | .error _ => []
        | .ok () =>
          .cycle :: match delivered.machine.cycle.stop with
            | some (.interrupt i) => [.raise i]
            | _ => []
    | _ => []

theorem pass_raised (m : Machine) (batch : List Interrupt) :
    ((m.raised batch).map Part.raise).foldl pass m = (m.deliver batch).machine := by
  induction batch generalizing m with
  | nil => rfl
  | cons i rest ih =>
    rw [raised, deliver, List.map_cons, List.foldl_cons]
    show List.foldl pass (m.raise i).machine _ = _
    cases (m.raise i).answer with
    | error f => rfl
    | ok _ => exact ih (m.raise i).machine

/-- A step is its parts, one after the other. -/
theorem pass_parts (m : Machine) : m.parts.foldl pass m = m.step.machine := by
  by_cases hhalted : m.halted = true
  · rw [parts, step, if_pos hhalted, if_pos hhalted]
    rfl
  · rw [parts, step, if_neg hhalted, if_neg hhalted]
    cases hcheckpoint : m.control.checkpoint with
    | suspended => rfl
    | terminate => rfl
    | proceed control batch =>
      have hnoted : m.pass .checkpoint = { m with control } := by rw [pass, hcheckpoint]
      dsimp only
      rw [List.cons_append, List.foldl_cons, List.foldl_append, hnoted, pass_raised]
      cases ({ m with control }.deliver batch).answer with
      | error f => exact (machine_conclude _).symm
      | ok _ =>
        refine Eq.trans ?_ (machine_conclude _).symm
        dsimp only
        rw [settle]
        cases hstop : ({ m with control }.deliver batch).machine.cycle.stop with
        | none => rfl
        | some stop => cases stop <;> rfl

theorem follows_pass (m : Machine) (part : Part) : m.Follows (m.pass part) := by
  cases part with
  | act action => exact m.follows_act action
  | raise i => exact m.follows_raise i
  | cycle => exact m.follows_cycle
  | checkpoint =>
    rw [pass]
    split
    · rename_i hproceed
      exact m.follows_control (attention_checkpoint hproceed)
    · exact .refl m

theorem numbered_pass (h : m.contexts.Numbered) (part : Part) :
    (m.pass part).contexts.Numbered := by
  cases part with
  | act action => exact numbered_act h action
  | raise i => exact numbered_raise h i
  | cycle => exact m.evolves_cycle.numbered h
  | checkpoint =>
    rw [pass]
    split <;> exact h

/-- What every machine has that comes about by any actions and any parts of steps. -/
theorem sound_passes (hsound : m.Sound) (h : m.contexts.Numbered) (parts : List Part) :
    (parts.foldl pass m).Sound ∧ (parts.foldl pass m).contexts.Numbered := by
  induction parts generalizing m with
  | nil => exact ⟨hsound, h⟩
  | cons part rest ih => exact ih (hsound.follows (m.follows_pass part)) (numbered_pass h part)

/-! ### Runs -/

/-- All the time the call stack of the context holds at least `n` words, and no action of the host
replaces it. -/
def Undisturbed (m : Machine) (id n : Nat) : List Part → Prop
  | [] => m.contexts.Holds id n
  | part :: rest => m.contexts.Holds id n ∧ (∀ action, part = .act action → m.Spares id action) ∧
    (m.pass part).Undisturbed id n rest

theorem Undisturbed.holds {parts : List Part} (h : m.Undisturbed id n parts) :
    m.contexts.Holds id n := by
  cases parts with
  | nil => exact h
  | cons part rest => exact h.1

theorem nests_pass (hsound : m.Sound) (h : m.contexts.Numbered) {part : Part}
    (hspares : ∀ action, part = .act action → m.Spares id action) :
    Nests id m.contexts (m.pass part).contexts := by
  cases part with
  | act action => exact nests_act hsound h (hspares action rfl)
  | raise i => exact (grows_raise h i).nests
  | cycle => exact nests_cycle h
  | checkpoint =>
    rw [pass]
    split <;> exact (Grows.refl id _).nests

theorem bottom?_passes (hsound : m.Sound) (h : m.contexts.Numbered) {parts : List Part}
    (hparts : m.Undisturbed id n parts) :
    (parts.foldl pass m).contexts.bottom? id n = m.contexts.bottom? id n := by
  induction parts generalizing m with
  | nil => rfl
  | cons part rest ih =>
    obtain ⟨hholds, hspares, hrest⟩ := hparts
    have hlater := ih (hsound.follows (m.follows_pass part)) (numbered_pass h part) hrest
    exact hlater.trans ((nests_pass hsound h hspares).bottom? hholds hrest.holds)

/-! ### Calls and returns -/

/-- The active context calls something and pushes the address `a` to return to: by a `JSR` or `JSRI`
that is carried out, or because the handler of an interrupt is called. -/
inductive Calls (m : Machine) (a : UInt32) : Machine → Prop
  | instruction {d : Decoded} (hd : m.Executes d)
    (hcall : d.instruction = .jsr ∨ d.instruction = .jsrI) (hdone : m.cycle.stop = none)
    (haddress : a = m.context.pc + 4) : Calls m a m.cycle.machine
  | delivery {i : Interrupt} {handler : UInt32} (hhandler : m.handler? i = some handler)
    (hdelivered : (m.raise i).answer = .ok ()) (haddress : a = m.context.pc) :
    Calls m a (m.raise i).machine

/-- A cycle of the machine returns to `a` and leaves these words on the call stack. -/
structure Returns (m : Machine) (a : UInt32) (below : List UInt32) : Prop where
  stop : m.cycle.stop = none
  machine : m.cycle.machine = m.modifyContext fun c =>
    { c with pc := a, lr := a, stack := { c.stack with words := below } }
  step : ∀ m' : Machine, m'.Arrives m → m'.step.machine = m.cycle.machine

theorem plan_jsr (hcall : d.instruction = .jsr ∨ d.instruction = .jsrI) :
    ∃ target, m.plan d = onContext (m.context.call target) := by
  rcases hcall with hi | hi <;> simp only [plan, hi]
  · exact ⟨_, rfl⟩
  · exact ⟨_, rfl⟩

/-- What is called starts with the return address on top of what was there. -/
theorem words?_of_calls (h : m.contexts.Numbered) {a : UInt32} (hcalls : m.Calls a m') :
    m'.contexts.words? m.contexts.activeId = some (a :: m.context.stack.words) := by
  cases hcalls with
  | @instruction d hd hcall hdone haddress =>
    obtain ⟨target, hplan⟩ := plan_jsr (m := m.advance) hcall
    obtain ⟨hmachine, hstop⟩ := hd.cycle
    rw [hplan, m.context_advance] at hmachine hstop
    rw [hdone] at hstop
    unfold Context.call Context.push CallStack.push at hmachine hstop
    dsimp only at hmachine hstop
    split at hmachine
    · have hmachine : m.cycle.machine = m.advance.modifyContext fun _ => { m.context with
          pc := target
          stack := { m.context.stack with
            words := (m.context.pc + 4) :: m.context.stack.words } } := hmachine
      rw [hmachine]
      have hnumbered : m.advance.contexts.Numbered := h.congr (ids_modify _ _)
      have hactive : m.advance.contexts.activeId = m.contexts.activeId := activeId_modify _ _
      refine (words?_modify hnumbered).trans ?_
      rw [if_pos hactive.symm, haddress]
    · rename_i hfull
      rw [if_neg hfull] at hstop
      cases hstop
  | @delivery i handler hhandler hdelivered haddress =>
    rcases m.raise_cases i with ⟨answer, events, heq, hnone⟩ | ⟨target, stack, -, hpush, heq⟩
    · rw [heq] at hdelivered
      exact absurd (hhandler.symm.trans (hnone hdelivered)) (by simp)
    · obtain ⟨-, hstack⟩ := Option.ite_none_right_eq_some.mp hpush
      obtain rfl := Option.some.inj hstack
      rw [heq]
      refine (words?_modify h).trans ?_
      rw [if_pos rfl, haddress]

/-- A `RETURN` goes where the word on top of the stack says. -/
theorem returns_of_words {a : UInt32} {below : List UInt32} (hd : m.Executes d)
    (hret : d.instruction = .ret) (hwords : m.context.stack.words = a :: below) :
    m.Returns a below := by
  have hplan : m.advance.plan d = .ok (.context { m.context with
      pc := a, lr := a, stack := { m.context.stack with words := below } }) := by
    have hpop : m.advance.context.pop =
        .ok (a, { m.context with
          pc := m.context.pc + 4, stack := { m.context.stack with words := below } }) := by
      rw [m.context_advance, Context.pop]
      unfold CallStack.pop
      dsimp only
      rw [hwords]
      rfl
    simp only [plan, hret, hpop]
    rfl
  obtain ⟨hmachine, hstop⟩ := hd.cycle
  rw [hplan] at hmachine hstop
  have hstop : m.cycle.stop = none := hstop
  refine ⟨hstop, ?_, fun m' harrives => ?_⟩
  · refine hmachine.trans ?_
    refine (m.modifyContext_modifyContext _ _).trans (modifyContext_congr rfl)
  · rw [step_of_arrives harrives, settle, hstop]

/-- **The call stack is a stack.** A reachable machine is seen at any moment, between steps or
between the parts of one. While the call stack of a context never holds fewer than `n` words, and no
program is loaded there, its bottom `n` words stay as they are. So a `RETURN` that finds the stack as
high as a call has left it, and never lower in between, goes back to where the call came from and
leaves what was there before the call. A step is nothing but its parts, so this speaks of all
runs. -/
theorem call_stack_discipline (hreach : m.Reachable) (before : List Part) :
    let now : Machine := before.foldl pass m
    (∀ id n later, now.Undisturbed id n later →
      (later.foldl pass now).contexts.bottom? id n = now.contexts.bottom? id n) ∧
    (∀ a called later d, now.Calls a called →
      called.Undisturbed now.contexts.activeId (now.context.stack.size + 1) later →
        let back : Machine := later.foldl pass called
        back.contexts.activeId = now.contexts.activeId → back.Executes d → d.instruction = .ret →
          back.context.stack.size = now.context.stack.size + 1 →
            back.Returns a now.context.stack.words) ∧
    now.parts.foldl pass now = now.step.machine := by
  intro now
  obtain ⟨hsound, hnumbered⟩ := sound_passes hreach.sound hreach.numbered before
  refine ⟨fun id n later hlater => bottom?_passes hsound hnumbered hlater, ?_, pass_parts now⟩
  intro a called later d hcalls hlater back hactive hd hret hsize
  obtain ⟨hcalled, hcallednumbered⟩ : called.Sound ∧ called.contexts.Numbered := by
    cases hcalls with
    | instruction => exact sound_passes hsound hnumbered [.cycle]
    | @delivery i => exact sound_passes hsound hnumbered [.raise i]
  have hback : back.contexts.Numbered := (sound_passes hcalled hcallednumbered later).2
  have hbottom := bottom?_passes hcalled hcallednumbered hlater
  -- both stacks are exactly as high as their bottoms
  have hwhole : ∀ words : List UInt32, words.rtake words.length = words := by simp [List.rtake]
  have hcurrent := words?_activeId hback
  rw [hactive] at hcurrent
  rw [ContextTable.bottom?, ContextTable.bottom?, words?_of_calls hnumbered hcalls, hcurrent]
    at hbottom
  have hwords : back.context.stack.words = a :: now.context.stack.words := by
    have hheight : back.context.stack.words.length = now.context.stack.size + 1 := hsize
    have hbottom := Option.some.inj hbottom
    have htop := hwhole (a :: now.context.stack.words)
    rw [← hwhole back.context.stack.words, hheight]
    exact hbottom.trans htop
  exact returns_of_words hd hret hwords

/-- A machine whose program is about to call a subroutine, which pushes a word and pops it. -/
def calling : Machine :=
  (blank ⟨512, 2, false, false, 0⟩).act
    (.loadSource "jsri @sub; halt; :sub; push r1; pop r1; return;")

/-- What follows the call. In the subroutine a key is pressed. -/
def subroutine : List Part := [.act .step, .act (.raise .keyPress), .act .step]

/-- The machine at the end of the subroutine. -/
def returning : Machine := subroutine.foldl pass calling.cycle.machine

theorem call_stack_discipline_calling :
    calling.Calls 100 calling.cycle.machine ∧ returning.Returns 100 [] := by
  have hcreate : Machine.create ⟨512, 2, false, false, 0⟩ =
      .ok (blank ⟨512, 2, false, false, 0⟩, []) := rfl
  have hreach : calling.Reachable := .act (.create hcreate) _ trivial
  have hstart : calling.context.pc = 96 ∧ calling.context.stack.words = [] ∧
      calling.contexts.activeId = 0 ∧ calling.cycle.stop = none ∧
      (calling.fetch.toOption.bind decode).map (fun d =>
        (d.instruction, d.condition.holds calling.context.flag)) = some (.jsrI, true) := by
    decide +kernel
  obtain ⟨hpc, hempty, hactive, hdone, hcall⟩ := hstart
  obtain ⟨d, hd, hjsr⟩ := exists_executes hcall
  have hcalls : calling.Calls 100 calling.cycle.machine :=
    .instruction hd (.inr hjsr) hdone (by rw [hpc]; rfl)
  have hheights : calling.cycle.machine.contexts.Holds 0 1 ∧
      (calling.cycle.machine.pass (.act .step)).contexts.Holds 0 1 ∧
      ((calling.cycle.machine.pass (.act .step)).pass
        (.act (.raise .keyPress))).contexts.Holds 0 1 ∧
      returning.contexts.Holds 0 1 := by decide +kernel
  obtain ⟨hfirst, hsecond, hthird, hlast⟩ := hheights
  have hlater : calling.cycle.machine.Undisturbed 0 1 subroutine := by
    refine ⟨hfirst, ?_, hsecond, ?_, hthird, ?_, hlast⟩
    all_goals
      rintro _ ⟨⟩
      exact False.elim
  have hend : returning.contexts.activeId = 0 ∧ returning.context.stack.size = 1 ∧
      (returning.fetch.toOption.bind decode).map (fun d =>
        (d.instruction, d.condition.holds returning.context.flag)) = some (.ret, true) := by
    decide +kernel
  obtain ⟨hactive', hsize, hreturn⟩ := hend
  obtain ⟨d', hd', hret⟩ := exists_executes hreturn
  have hheight : calling.context.stack.size = 0 := congrArg List.length hempty
  have hreturns := (call_stack_discipline hreach []).2.1 100 _ subroutine d' hcalls
    (by rw [List.foldl_nil, hactive, hheight]; exact hlater) (hactive'.trans hactive.symm)
    hd' hret (by rw [List.foldl_nil, hheight]; exact hsize)
  rw [List.foldl_nil, hempty] at hreturns
  exact ⟨hcalls, hreturns⟩

end Machine
end RegisterMachine
