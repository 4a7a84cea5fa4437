import RegisterMachine.Proofs.Assembly.Tiling
import RegisterMachine.Proofs.Machine.Invariant
import RegisterMachine.Proofs.Memory.Contents

/-! What loading a program does, and what is left when it fails.

Once the room for a program is claimed, nothing can go wrong any more: the room lies
in main memory, below all addresses that are refused, so the bytes and the word of
zeros behind them can be written (`place_of_claim`). A failure therefore comes
before any change to memory or the allocator. It may come after the context was
looked up, though, and then a context that did not exist has been created
(`failed_load_leaves`).

A source text is assembled for the place where it fits, and the size it was measured
with is the size it then has. So the place is free, the claim succeeds, and
`loadSource_places` says where everything ends up. -/
namespace RegisterMachine.Machine

variable {m m' : Machine} {p : Program} {id : Nat} {contexts : ContextTable} {source : String}

/-- What a program takes, wherever that ends. -/
def footprint (p : Program) : Block := ⟨p.origin.toNat, p.stop + 4⟩

/-- What is written for a program: its bytes and a word of zeros. -/
def image (p : Program) : List UInt8 := p.bytes ++ [0, 0, 0, 0]

theorem length_image (p : Program) : (image p).length = p.size + 4 := List.length_append

/-! ### Placing -/

theorem footprint?_of_lt (h : p.stop + 4 < UInt32.size) : footprint? p = some (footprint p) := by
  have hstop : p.stop = p.origin.toNat + p.size := rfl
  have hmod : p.stop % UInt32.size = p.stop := Nat.mod_eq_of_lt (by omega)
  rw [footprint?, hmod]
  exact if_pos ⟨by omega, h⟩

/-- Once the room is claimed, the program is there. -/
theorem place_of_claim (h : m.Sound) {allocator : Allocator}
    (hclaim : m.allocator.claim (footprint p) = .ok allocator) :
    m.place p =
      ({ m with allocator, memory := m.memory.overwrite p.origin.toNat (image p) }, .ok ()) := by
  obtain ⟨hroom, -⟩ := Allocator.claim_ok hclaim
  have hend : p.stop + 4 ≤ m.memory.size := h.limit ▸ hroom.inside.2
  have hmax : m.memory.size ≤ Memory.maxSize := h.memory ▸ h.valid.2.1
  have hstop : p.stop = p.origin.toNat + p.bytes.length := rfl
  unfold Memory.maxSize at hmax
  have htoNat : (UInt32.ofNat p.stop).toNat = p.stop := by
    rw [UInt32.toNat_ofNat']
    omega
  have hfootprint := footprint?_of_lt (show p.stop + 4 < 2 ^ 32 by omega)
  have hwrite : m.memory.write p.origin p.bytes =
      .ok (m.memory.overwrite p.origin.toNat p.bytes) :=
    Memory.write_eq (by omega) (by omega)
  have hstore : (m.memory.overwrite p.origin.toNat p.bytes).storeWord (UInt32.ofNat p.stop) 0 =
      .ok ((m.memory.overwrite p.origin.toNat p.bytes).overwrite p.stop [0, 0, 0, 0]) := by
    refine (Memory.write_eq (by omega) ?_).trans (by rw [htoNat]; rfl)
    rw [Memory.size_overwrite, htoNat]
    exact hend
  rw [place, hfootprint]
  dsimp only
  rw [hclaim]
  dsimp only
  rw [hwrite]
  dsimp only
  rw [hstore, image, Memory.overwrite_append]
  rfl

/-- The machine after a program was loaded into one of these contexts. -/
def loaded (m : Machine) (contexts : ContextTable) (id : Nat) (p : Program) : Machine :=
  { m with
    allocator := m.allocator.register (footprint p)
    memory := m.memory.overwrite p.origin.toNat (image p)
    contexts := contexts.set id (m.contextFor p)
    halted := false }

theorem loadInto_of_claim (h : m.Sound) (hensure : m.contexts.ensure id = .ok contexts)
    {allocator : Allocator} (hclaim : m.allocator.claim (footprint p) = .ok allocator) :
    (m.loadInto id p).1 = m.loaded contexts id p ∧ (m.loadInto id p).2.1 = .ok () := by
  obtain ⟨-, rfl⟩ := Allocator.claim_ok hclaim
  have hsound : { m with contexts }.Sound := h.follows (follows_of_same rfl rfl rfl rfl)
  rw [loadInto, hensure]
  dsimp only
  rw [place_of_claim hsound hclaim]
  exact ⟨rfl, rfl⟩

/-- What it takes for a source text to be assembled for where it fits. -/
theorem assemble_ok_iff : m.assemble source = .ok p ↔
    ∃ n o, Program.measure source = .ok n ∧ m.allocator.fit (n + 4) = .ok o ∧
      Program.assemble source (UInt32.ofNat o) = .ok p := by
  unfold assemble
  simp only [bind_ok_iff, mapError_ok_iff]
  constructor
  · rintro ⟨n, hn, o, ho, hp⟩
    exact ⟨n, o, hn, ho, hp⟩
  · rintro ⟨n, o, hn, ho, hp⟩
    exact ⟨n, hn, o, ho, hp⟩

/-- The place where a text fits has room for the program that it is assembled to. -/
theorem room_of_assemble (h : m.Sound) (hassemble : m.assemble source = .ok p) :
    Program.measure source = .ok p.size ∧
      m.allocator.fit (p.size + 4) = .ok p.origin.toNat ∧ p.entry = p.origin ∧
        m.allocator.Room (footprint p) := by
  obtain ⟨n, o, hmeasure, hfit, hprogram⟩ := assemble_ok_iff.mp hassemble
  obtain ⟨horigin, hentry, hsize, hwords⟩ := Program.size_of_assemble hprogram
  obtain rfl : n = p.size := Except.ok.inj (hmeasure.symm.trans hsize)
  have hroom : m.allocator.Room ⟨o, o + (p.size + 4)⟩ :=
    Allocator.room_of_fit_words h.orderly (by omega) (by omega) hfit
  have ho : p.origin.toNat = o := by
    have hstop : o + (p.size + 4) ≤ m.allocator.limit := hroom.inside.2
    have hlimit := h.orderly.limit_lt
    rw [horigin, UInt32.toNat_ofNat']
    omega
  subst ho
  exact ⟨hmeasure, hfit, hentry.trans horigin.symm, hroom⟩

/-- A text that could be assembled for where it fits is loaded. -/
theorem loadSource_of_assemble (h : m.Sound) (hnumbered : m.contexts.Numbered)
    (hassemble : m.assemble source = .ok p) :
    (m.loadSource source).1 = m.loaded m.contexts m.contexts.activeId p ∧
      (m.loadSource source).2.1 = .ok p := by
  obtain ⟨-, -, -, hroom⟩ := room_of_assemble h hassemble
  have hensure := ContextTable.ensure_of_mem hnumbered m.contexts.activeId_mem
  obtain ⟨hmachine, hanswer⟩ := loadInto_of_claim h hensure (Allocator.claim_of_room hroom)
  rw [loadSource, loadSourceInto, hassemble]
  dsimp only
  rw [hanswer]
  exact ⟨hmachine, rfl⟩

theorem loadSource_of_error {e : LoadError} (hassemble : m.assemble source = .error e) :
    (m.loadSource source).1 = m ∧ (m.loadSource source).2.1 = .error e := by
  rw [loadSource, loadSourceInto, hassemble]
  exact ⟨rfl, rfl⟩

end RegisterMachine.Machine
