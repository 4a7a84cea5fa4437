import RegisterMachine.Machine.Interrupt

/-!
The requests of a machine's host: pausing, resuming, terminating and raising interrupts. The machine
looks at `attention` before every instruction and at the rest only if it is set.
-/

namespace RegisterMachine

structure Control where
  paused : Bool
  yielded : Bool
  terminated : Bool
  /-- Whether `YIELD` suspends the machine. -/
  yieldSuspends : Bool
  /-- The interrupts raised by the host, the first one first. -/
  pending : List Interrupt
  attention : Bool
  deriving DecidableEq, Repr

/-- What the machine has to do before its next instruction. -/
inductive Checkpoint where
  /-- Wait for the host. -/
  | suspended
  | terminate
  /-- Deliver these interrupts. -/
  | proceed (control : Control) (batch : List Interrupt)
  deriving DecidableEq, Repr

namespace Control

def idle : Control := ⟨false, false, false, false, [], false⟩

/-- Whether there is anything to look at. -/
def needsAttention (c : Control) : Bool :=
  c.paused || c.yielded || c.terminated || !c.pending.isEmpty

/-- The control with its `attention` brought up to date. -/
def refresh (c : Control) : Control := { c with attention := c.needsAttention }

def pause (c : Control) : Control := { c with paused := true }.refresh

/-- Ends a pause and the suspension by a `YIELD`. -/
def resume (c : Control) : Control := { c with paused := false, yielded := false }.refresh

def terminate (c : Control) : Control := { c with terminated := true }.refresh

def setYieldSuspends (c : Control) (suspends : Bool) : Control :=
  { c with yieldSuspends := suspends }.refresh

def raise (c : Control) (i : Interrupt) : Control :=
  { c with pending := c.pending ++ [i] }.refresh

def isPaused (c : Control) : Bool := c.paused || c.yielded

/-- Notes a `YIELD`, if the host asked for that. -/
def yield (c : Control) : Control :=
  if c.yieldSuspends then { c with yielded := true, attention := true } else c

/-- Looks at everything. Termination comes before a pause, and a pause before the interrupts. -/
def inspect (c : Control) : Checkpoint :=
  if c.terminated then .terminate
  else if c.isPaused then .suspended
  else .proceed { c with pending := [] }.refresh c.pending

/-- What the machine has to do, by `attention` and then by the rest. -/
def checkpoint (c : Control) : Checkpoint :=
  if c.attention then c.inspect else .proceed c []

end Control

end RegisterMachine
