import RegisterMachine.Proofs.Machine.Alteration

/-! Runs that do not read the clock.

The clock of a machine is its host's business, and only `UPTIME`, or a `MEMSIZE` of the
last device, reads it. Any other step does the same at any time (`step_timed`), so a run in
which no instruction reads the clock comes to the same however fast the time goes by
(`runTicking_of_ignores`). -/
namespace RegisterMachine

namespace Machine

/-- The machine at a time. -/
def timed (m : Machine) (clock : UInt32) : Machine := { m with clock }

end Machine

def Report.timed {α : Type} (r : Report α) (clock : UInt32) : Report α :=
  { r with machine := r.machine.timed clock }

@[simp] theorem Report.answer_timed {α : Type} (r : Report α) (clock : UInt32) :
    (r.timed clock).answer = r.answer := rfl

namespace Machine

variable {m : Machine} {d : Decoded} (clock : UInt32)

@[simp] theorem clock_timed (m : Machine) : (m.timed clock).clock = clock := rfl

@[simp] theorem console_timed (m : Machine) : (m.timed clock).console = m.console := rfl

/-- **A step that does not read the clock does the same at any time.** -/
theorem step_timed (h : ¬m.ReadsClock) : (m.timed clock).step = m.step.timed clock := by
  have hrespects : Alteration.Respects ⟨fun _ => clock, id⟩ m.devices :=
    ⟨fun _ _ => rfl, fun _ => rfl, fun _ _ _ => rfl, fun _ _ => rfl⟩
  exact step_altered hrespects fun hreads => absurd hreads h

/-! ### Runs -/

/-- Runs at most `limit` steps while the clock goes on: `tick` says for each step, by its number,
what the clock shows then, given what it showed before. -/
def runTicking (m : Machine) (tick : Nat → UInt32 → UInt32) (reported : Array Event) :
    Nat → Machine × Outcome × Array Event
  | 0 => (m, .exhausted, reported)
  | limit + 1 =>
    let r := (m.timed (tick 0 m.clock)).step
    let reported := reported ++ r.events
    match r.answer with
    | .error f => (r.machine, .failed f, reported)
    | .ok .running => r.machine.runTicking (fun n => tick (n + 1)) reported limit
    | .ok .halted => r.machine.finish .halted reported
    | .ok .terminated => r.machine.finish .terminated reported
    | .ok .suspended => (r.machine, .suspended, reported)

/-- No step of such a run reads the clock. -/
def IgnoresClock (m : Machine) (tick : Nat → UInt32 → UInt32) : Nat → Prop
  | 0 => True
  | limit + 1 =>
    let m := m.timed (tick 0 m.clock)
    ¬m.ReadsClock ∧
      (m.step.answer = .ok .running → m.step.machine.IgnoresClock (fun n => tick (n + 1)) limit)

instance decidableIgnoresClock (m : Machine) (tick : Nat → UInt32 → UInt32) :
    (limit : Nat) → Decidable (m.IgnoresClock tick limit)
  | 0 => .isTrue trivial
  | limit + 1 =>
    let m := m.timed (tick 0 m.clock)
    have := decidableIgnoresClock m.step.machine (fun n => tick (n + 1)) limit
    decidable_of_iff (¬m.ReadsClock ∧ (m.step.answer = .ok .running →
      m.step.machine.IgnoresClock (fun n => tick (n + 1)) limit)) Iff.rfl

/-- A clock that stands still. -/
theorem runTicking_still (m : Machine) (reported : Array Event) (limit : Nat) :
    m.runTicking (fun _ clock => clock) reported limit = m.runFrom reported limit := by
  induction limit generalizing m reported with
  | zero => rfl
  | succ limit ih =>
    rw [runTicking, runFrom]
    simp only [ih]
    rfl

theorem finish_timed (m : Machine) (reason : ExitReason) (reported : Array Event) :
    (m.timed clock).finish reason reported =
      ((m.finish reason reported).1.timed clock, (m.finish reason reported).2) := by
  have hclose : (m.timed clock).close reason = (m.close reason).timed clock := by
    rw [close, close, console_timed]
    cases m.console.flush <;> rfl
  rw [finish, finish, hclose]
  rfl

/-- **A run that does not read the clock comes to the same however the time goes by**, but for the
time that it ends at. -/
theorem runTicking_of_ignores {tick : Nat → UInt32 → UInt32} {limit : Nat}
    (h : m.IgnoresClock tick limit) (tick' : Nat → UInt32 → UInt32) (reported : Array Event) :
    ∃ ended, (m.timed clock).runTicking tick' reported limit =
      ((m.runTicking tick reported limit).1.timed ended, (m.runTicking tick reported limit).2) := by
  induction limit generalizing m clock tick tick' reported with
  | zero => exact ⟨clock, rfl⟩
  | succ limit ih =>
    obtain ⟨hnow, hrest⟩ := h
    have hstep : ((m.timed clock).timed (tick' 0 clock)).step =
        (m.timed (tick 0 m.clock)).step.timed (tick' 0 clock) :=
      step_timed (m := m.timed (tick 0 m.clock)) (tick' 0 clock) hnow
    -- both runs take this step on the same machine, each at its own time
    rw [runTicking, runTicking, clock_timed, hstep]
    generalize (m.timed (tick 0 m.clock)).step = r at hrest
    rw [Report.answer_timed]
    cases hr : r.answer with
    | error f => exact ⟨_, rfl⟩
    | ok status =>
      cases status with
      | running => exact ih _ (hrest hr) _ _
      | halted => exact ⟨_, finish_timed _ r.machine .halted _⟩
      | terminated => exact ⟨_, finish_timed _ r.machine .terminated _⟩
      | suspended => exact ⟨_, rfl⟩

end Machine
end RegisterMachine
