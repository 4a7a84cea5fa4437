import RegisterMachine.Machine.Context

/-!
The contexts of a machine, in the order of their creation, and which of them is active. Contexts are
never removed.
-/

namespace RegisterMachine

structure InvalidContext where
  id : Nat
  deriving DecidableEq, Repr

namespace InvalidContext

def message (e : InvalidContext) : String := s!"invalid context id {e.id}"

end InvalidContext

structure ContextTable where
  slots : Array (Nat × Context)
  active : Nat
  /-- The stack capacity of a new context. -/
  stackCapacity : Nat
  active_lt : active < slots.size

namespace ContextTable

/-- The context in which a machine starts. -/
def mainId : Nat := 0

/-- Contexts are numbered below this bound. -/
def limit : Nat := 256

def create (stackCapacity : Nat) : ContextTable :=
  ⟨#[(mainId, .fresh stackCapacity)], 0, stackCapacity, Nat.zero_lt_one⟩

def activeSlot (t : ContextTable) : Nat × Context :=
  t.slots[(⟨t.active, t.active_lt⟩ : Fin t.slots.size)]

def activeId (t : ContextTable) : Nat := t.activeSlot.1

def current (t : ContextTable) : Context := t.activeSlot.2

def ids (t : ContextTable) : List Nat := t.slots.toList.map Prod.fst

def size (t : ContextTable) : Nat := t.slots.size

def get? (t : ContextTable) (id : Nat) : Option Context :=
  (t.slots.find? fun slot => slot.1 == id).map Prod.snd

/-- Adds a fresh context behind the others. -/
def add (t : ContextTable) (id : Nat) : ContextTable :=
  { t with
    slots := t.slots.push (id, .fresh t.stackCapacity)
    active_lt := by
      rw [Array.size_push]
      exact Nat.lt_succ_of_lt t.active_lt }

/-- Creates the context if it does not exist. -/
def ensure (t : ContextTable) (id : Nat) : Except InvalidContext ContextTable :=
  if limit ≤ id then .error ⟨id⟩
  else if (t.get? id).isSome then .ok t
  else .ok (t.add id)

/-- Makes a context the active one, if it exists. -/
def activate (t : ContextTable) (id : Nat) : ContextTable :=
  match t.slots.findFinIdx? fun slot => slot.1 == id with
  | some i => { t with active := i, active_lt := i.isLt }
  | none => t

/-- Makes a context the active one and creates it if it does not exist. The first result tells
whether it was created. -/
def switch (t : ContextTable) (id : Nat) : Except InvalidContext (Bool × ContextTable) :=
  (t.ensure id).map fun t' => ((t.get? id).isNone, t'.activate id)

/-- Replaces the context with this number. -/
def set (t : ContextTable) (id : Nat) (c : Context) : ContextTable :=
  { t with
    slots := t.slots.map fun slot => if slot.1 = id then (id, c) else slot
    active_lt := by
      rw [Array.size_map]
      exact t.active_lt }

/-- Changes the active context. -/
def modify (t : ContextTable) (f : Context → Context) : ContextTable :=
  { t with
    slots := t.slots.modify t.active fun slot => (slot.1, f slot.2)
    active_lt := by
      rw [Array.size_modify]
      exact t.active_lt }

@[simp] theorem current_modify (t : ContextTable) (f : Context → Context) :
    (t.modify f).current = f t.current := by
  simp [current, activeSlot, modify, Array.getElem_modify]

theorem modify_modify (t : ContextTable) (f g : Context → Context) :
    (t.modify f).modify g = t.modify fun c => g (f c) := by
  simp only [modify, ContextTable.mk.injEq, and_true]
  apply Array.ext
  · simp
  · intro i _ _
    simp only [Array.getElem_modify]
    split <;> rfl

/-- Only what a change makes of the active context matters. -/
theorem modify_congr (t : ContextTable) {f g : Context → Context} (h : f t.current = g t.current) :
    t.modify f = t.modify g := by
  simp only [modify, ContextTable.mk.injEq, and_true]
  apply Array.ext
  · simp
  · intro i _ _
    simp only [Array.getElem_modify]
    split
    · rename_i same
      subst same
      exact congrArg (Prod.mk _) h
    · rfl

theorem modify_id (t : ContextTable) : t.modify id = t := by
  obtain ⟨slots, active, capacity, active_lt⟩ := t
  simp only [modify, ContextTable.mk.injEq, and_true]
  apply Array.ext
  · simp
  · intro i _ _
    rw [Array.getElem_modify]
    exact ite_self _

theorem modify_eq_self {t : ContextTable} {f : Context → Context} (h : f t.current = t.current) :
    t.modify f = t :=
  (t.modify_congr h).trans t.modify_id

end ContextTable

end RegisterMachine
