import RegisterMachine.Proofs.Memory.BestFit

/-! What a failed call leaves.

All calls but one check everything before they change anything. The exception clears the block that
it hands out: it registers the block first, and so the block stays registered when memory ends
before it does (`Leaks`). Where memory reaches as far as the region, that does not happen
(`failed_call_leaves`). -/
namespace RegisterMachine.Allocator

variable {a : Allocator} {call : Call} {e : AllocatorError} {b : Block} {memory : Memory}
  {size : Nat}

/-- The call ends in this error. -/
def FailsWith (a : Allocator) (e : AllocatorError) : Call → Prop
  | .malloc size => a.malloc size = .error e
  | .calloc memory size => (a.calloc memory size).1 = .error e
  | .claim b => a.claim b = .error e
  | .free b => a.free b = .error e
  | .reduce b bytes => a.reduce b bytes = .error e
  | .fit size => a.fit size = .error e

/-- The memory that a call works on, if it works on one. -/
def Call.memory? : Call → Option Memory
  | .calloc memory _ => some memory
  | _ => none

/-- What a call leaves of the memory that it works on. -/
def memoryAfter? (a : Allocator) : Call → Option Memory
  | .calloc memory size => some (a.calloc memory size).2.2
  | _ => none

/-- The call found room for a block, but not all of the block can be accessed in memory. The block
is registered all the same. -/
structure Leaks (a : Allocator) (memory : Memory) (size : Nat) (b : Block) : Prop where
  requested : a.request size = .ok b
  inaccessible : 0x80000000 ≤ b.start ∨ memory.size < b.stop
  registered : a.after (.calloc memory size) = a.register b
  added : a.Adds b (a.after (.calloc memory size))

/-- Clearing a block fails where the block cannot be accessed. -/
theorem inaccessible_of_fill (h : a.Orderly) (hroom : a.Room b) {i : Interrupt}
    (hfill : memory.fill (UInt32.ofNat b.start) b.size 0 = .error i) :
    0x80000000 ≤ b.start ∨ memory.size < b.stop := by
  have hstart : (UInt32.ofNat b.start).toNat = b.start := address_pointer h hroom
  have hpos := hroom.nonempty
  have hsize : b.size = b.stop - b.start := rfl
  by_contra hnot
  have hspan : memory.span (UInt32.ofNat b.start) b.size = .ok b.start :=
    Memory.span_eq_ok_iff.mpr (by omega)
  rw [Memory.fill, hspan] at hfill
  cases hfill

/-- An allocation of zeros that fails found no room, or leaks its block. Memory is as it was. -/
theorem calloc_of_error (h : a.Orderly) (herror : (a.calloc memory size).1 = .error e) :
    (a.calloc memory size).2.2 = memory ∧
      (a.after (.calloc memory size) = a ∧ a.request size = .error e ∨
        ∃ b i, e = .inaccessible i ∧ a.Leaks memory size b) := by
  unfold calloc at herror
  cases hrequest : a.request size with
  | error e' =>
    rw [hrequest] at herror
    have hcalloc : a.calloc memory size = (.error e', a, memory) := by simp only [calloc, hrequest]
    refine ⟨by rw [hcalloc], .inl ⟨by simp only [after, hcalloc], ?_⟩⟩
    exact congrArg Except.error (Except.error.inj herror)
  | ok b =>
    obtain ⟨hroom, -⟩ := room_of_request h hrequest
    simp only [hrequest] at herror
    cases hfill : memory.fill (UInt32.ofNat b.start) b.size 0 with
    | ok memory' =>
      rw [hfill] at herror
      cases herror
    | error i =>
      rw [hfill] at herror
      have hafter : a.after (.calloc memory size) = a.register b := by
        simp only [after, calloc, hrequest, hfill]
      refine ⟨by simp only [calloc, hrequest, hfill], .inr ⟨b, i, ?_, hrequest, ?_, hafter, ?_⟩⟩
      · exact (Except.error.inj herror).symm
      · exact inaccessible_of_fill h hroom hfill
      · rw [hafter]
        exact adds_register hroom

/-- A request that fails is out of memory. -/
theorem request_error (h : a.Orderly) (herror : a.request size = .error e) :
    ∃ n, e = .outOfMemory n := by
  obtain ⟨n, hn⟩ := exists_rounds size
  rw [request_eq hn] at herror
  exact ⟨_, fit_error h hn (map_error_iff.mp herror)⟩

/-- A call that clears nothing leaves the allocator as it was when it fails. -/
theorem after_of_error (hclears : call.memory? = none) (hfails : a.FailsWith e call) :
    a.after call = a := by
  cases call with
  | calloc memory size => cases hclears
  | fit size => rfl
  | malloc size | claim b | free b | reduce b bytes =>
    unfold FailsWith at hfails
    simp only [after, hfails]

/-- Nor does it speak of memory. -/
theorem not_inaccessible (h : a.Orderly) (hclears : call.memory? = none)
    (hfails : a.FailsWith e call) (i : Interrupt) : e ≠ .inaccessible i := by
  rintro rfl
  cases call with
  | calloc memory size => cases hclears
  | malloc size =>
    obtain ⟨n, hn⟩ := request_error h (map_error_iff.mp hfails)
    cases hn
  | fit size =>
    obtain ⟨n, hn⟩ := exists_rounds size
    cases fit_error h hn hfails
  | claim b =>
    simp only [FailsWith, claim] at hfails
    split at hfails
    · cases hfails
    · split at hfails <;> cases hfails
  | free b =>
    simp only [FailsWith, free] at hfails
    split at hfails <;> cases hfails
  | reduce b bytes =>
    simp only [FailsWith, reduce] at hfails
    split at hfails
    · split at hfails <;> cases hfails
    · cases hfails

/-- **What a failed call leaves.** After any calls, one that fails leaves memory as it was, and the
blocks too, unless it found room for a block that it could not clear: that block is registered, and
nothing else has changed. If memory reaches as far as the region, every failed call leaves
everything. -/
theorem failed_call_leaves (origin limit : UInt32) (calls : List Call)
    (hfails : ((fresh origin limit).run calls).FailsWith e call) :
    let a := (fresh origin limit).run calls
    a.memoryAfter? call = call.memory? ∧
      (a.after call = a ∧ (∀ i, e ≠ .inaccessible i) ∨
        ∃ memory size b i, call = .calloc memory size ∧ e = .inaccessible i ∧
          a.Leaks memory size b) ∧
      (limit.toNat ≤ 0x80000000 → (∀ memory ∈ call.memory?, limit.toNat ≤ memory.size) →
        a.after call = a) := by
  intro a
  obtain ⟨h, -, hlimit⟩ : a.Orderly ∧ a.origin = origin.toNat ∧ a.limit = limit.toNat :=
    orderly_after_run (orderly_fresh origin limit) calls
  cases call with
  | calloc memory size =>
    obtain ⟨hmemory, hblocks⟩ := calloc_of_error h hfails
    refine ⟨congrArg some hmemory, ?_, fun htop hcovers => ?_⟩
    · rcases hblocks with ⟨hafter, hrequest⟩ | ⟨b, i, he, hleaks⟩
      · obtain ⟨n, rfl⟩ := request_error h hrequest
        exact .inl ⟨hafter, nofun⟩
      · exact .inr ⟨memory, size, b, i, rfl, he, hleaks⟩
    · rcases hblocks with ⟨hafter, -⟩ | ⟨b, i, -, hleaks⟩
      · exact hafter
      · obtain ⟨hroom, -⟩ := room_of_request h hleaks.requested
        have hpos := hroom.nonempty
        have hinside := hroom.inside.2
        have hcovered := hcovers memory rfl
        have hcut := hleaks.inaccessible
        omega
  | malloc size | claim b | free b | reduce b bytes | fit size =>
    have hafter := after_of_error rfl hfails
    exact ⟨rfl, .inl ⟨hafter, not_inaccessible h rfl hfails⟩, fun _ _ => hafter⟩

/-- A region twice as long as memory. -/
theorem failed_call_leaves_reaching :
    ((fresh 0 1024).run [.malloc 100]).FailsWith (.inaccessible .outOfMemory)
        (.calloc (.zeroed 512) 600) ∧
      ∃ b, ((fresh 0 1024).run [.malloc 100]).Leaks (.zeroed 512) 600 b := by
  have hfails : ((fresh 0 1024).run [.malloc 100]).FailsWith (.inaccessible .outOfMemory)
      (.calloc (.zeroed 512) 600) := by
    show (((fresh 0 1024).run [.malloc 100]).calloc (.zeroed 512) 600).1 =
      .error (.inaccessible .outOfMemory)
    decide +kernel
  refine ⟨hfails, ?_⟩
  rcases (failed_call_leaves 0 1024 [.malloc 100] hfails).2.1 with
    ⟨-, hnot⟩ | ⟨_, _, b, _, hcall, -, hleaks⟩
  · exact absurd rfl (hnot .outOfMemory)
  · obtain ⟨rfl, rfl⟩ := Call.calloc.inj hcall
    exact ⟨b, hleaks⟩

/-- The allocation fails, and a block is registered that was not. -/
theorem failed_calloc_registers :
    ((fresh 0 1024).calloc (.zeroed 512) 600).1 = .error (.inaccessible .outOfMemory) ∧
      (fresh 0 1024).blocks = [] ∧
      ((fresh 0 1024).calloc (.zeroed 512) 600).2.1.blocks = [⟨0, 600⟩] :=
  ⟨by decide +kernel, rfl, by decide +kernel⟩

end RegisterMachine.Allocator
