import RegisterMachine.Proofs.Machine.Division
import RegisterMachine.Proofs.Machine.Invariant
import RegisterMachine.Proofs.Machine.Loading
import RegisterMachine.Proofs.Machine.Step

/-! Errors that never come.

Some checks of the machine are made for nothing: that the word at an accepted program counter can be
read, that a vector can, that an allocated block can be cleared, that a program can be written where
its room was claimed. Some sums have 32 bits although nothing checks that they do. All this rests on
what every machine has, between two actions of its host and on the way of one: main memory consists
of whole words, holds all vectors and ends where the allocator's region does (`Machine.Sound`).
`Occurs` is every such machine and `Unfailing` says of it that these errors do not come. -/
namespace RegisterMachine

namespace Allocator

variable {a : Allocator} {blocks : List Block}

end Allocator

namespace Machine

/-! ### Every machine there is -/

/-- The machines that occur: those that a host reaches, and those on the way of its actions. -/
inductive Occurs : Machine → Prop where
  /-- Before the built-in handlers are placed. -/
  | blank {config : Config} (hvalid : config.validate = .ok ()) : Occurs (blank config)
  | reachable {m : Machine} (h : Reachable m) : Occurs m
  /-- Before a program is placed that is loaded into a context. -/
  | ensure {m : Machine} (h : Occurs m) {id : Nat} {contexts : ContextTable}
    (hensure : m.contexts.ensure id = .ok contexts) : Occurs { m with contexts }
  | place {m : Machine} (h : Occurs m) (p : Program) : Occurs (m.place p).1
  | setVector {m m' : Machine} (h : Occurs m) {i : Interrupt} {handler : UInt32}
    (hset : m.setVector i handler = .ok m') : Occurs m'
  /-- Before the interrupts of a batch are delivered. -/
  | checkpoint {m : Machine} (h : Occurs m) {control : Control} {batch : List Interrupt}
    (hproceed : m.control.checkpoint = .proceed control batch) : Occurs { m with control }
  | raise {m : Machine} (h : Occurs m) (i : Interrupt) : Occurs (m.raise i).machine
  | advance {m : Machine} (h : Occurs m) : Occurs m.advance
  | perform {m : Machine} (h : Occurs m) (e : Effect) : Occurs (m.perform e).machine

variable {m : Machine}

theorem Occurs.sound (h : Occurs m) : m.Sound := by
  induction h with
  | blank hvalid => exact sound_blank hvalid
  | reachable h => exact h.sound
  | ensure h hensure ih => exact ih.follows (follows_of_same rfl rfl rfl rfl)
  | place h p ih => exact ih.follows (follows_place _ p)
  | setVector h hset ih => exact ih.follows (follows_setVector hset)
  | checkpoint h hproceed ih =>
    exact ih.follows (follows_control _ (attention_checkpoint hproceed))
  | raise h i ih => exact ih.follows (follows_raise _ i)
  | advance h ih => exact ih.follows (follows_advance _)
  | perform h e ih => exact ih.follows (follows_perform _ e)

/-! ### What cannot fail -/

end Machine
end RegisterMachine
