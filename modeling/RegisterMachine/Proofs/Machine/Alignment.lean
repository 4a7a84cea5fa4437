import RegisterMachine.Proofs.Assembly.ErrorPlace
import RegisterMachine.Proofs.Machine.Allocation
import RegisterMachine.Proofs.Machine.Loading
import RegisterMachine.Proofs.Program.ImageCodec

/-! Everything that is allocated begins and ends at a whole word.

A request is rounded up to whole words and goes to the front of the region or right behind a block,
so the blocks decide where the next one begins: if they all begin and end at whole words, it does
too (`start_of_fit`, `aligned_of_request`). What else is registered is the room of a program, which
is whole words if the program is. Programs that are assembled or read from an image are, the
built-in handlers among them, so a host has to see to it only for programs of its own making
(`LoadsWords`). -/
namespace RegisterMachine

open Allocator (Rounds)

namespace Block

/-- The block begins and ends at a whole word. -/
def WordAligned (b : Block) : Prop := b.start % 4 = 0 ∧ b.stop % 4 = 0

end Block

namespace Allocator

variable {a : Allocator} {b g : Block} {blocks : List Block} {cursor size start : Nat}

/-- The region begins at a whole word, and every block begins and ends at one. -/
structure WordAligned (a : Allocator) : Prop where
  origin : a.origin % 4 = 0
  blocks : ∀ b ∈ a.blocks, b.WordAligned

theorem aligned_max {m n : Nat} (hm : m % 4 = 0) (hn : n % 4 = 0) : max m n % 4 = 0 := by
  omega

/-- A gap begins where the scan does or behind a block. -/
theorem start_of_mem_gaps (hcursor : cursor % 4 = 0) (hblocks : ∀ b ∈ blocks, b.WordAligned)
    (hg : g ∈ gaps cursor blocks) : g.start % 4 = 0 := by
  induction blocks generalizing cursor with
  | nil => exact absurd hg List.not_mem_nil
  | cons b rest ih =>
    have hnext : max cursor b.stop % 4 = 0 :=
      aligned_max hcursor (hblocks b List.mem_cons_self).2
    have hrest : ∀ c ∈ rest, c.WordAligned := fun c hc => hblocks c (List.mem_cons_of_mem _ hc)
    rw [gaps] at hg
    split at hg
    · rcases List.mem_cons.mp hg with rfl | hg
      · exact hcursor
      · exact ih hnext hrest hg
    · exact ih hnext hrest hg

theorem aligned_stopOf (hcursor : cursor % 4 = 0) (hblocks : ∀ b ∈ blocks, b.WordAligned) :
    stopOf cursor blocks % 4 = 0 := by
  induction blocks generalizing cursor with
  | nil => exact hcursor
  | cons b rest ih =>
    exact ih (aligned_max hcursor (hblocks b List.mem_cons_self).2)
      fun c hc => hblocks c (List.mem_cons_of_mem _ hc)

namespace WordAligned

/-- Whatever a request chooses, it is a whole word. -/
theorem start_of_fit (h : a.WordAligned) (hfit : a.fit size = .ok start) : start % 4 = 0 := by
  obtain ⟨n, -, ⟨g, hg, -, rfl⟩ | ⟨rfl, -⟩⟩ := fit_ok hfit
  · exact start_of_mem_gaps h.origin h.blocks hg
  · exact aligned_stopOf h.origin h.blocks

theorem aligned_of_request (h : a.WordAligned) (hrequest : a.request size = .ok b) :
    b.WordAligned := by
  rw [request] at hrequest
  split at hrequest
  · cases hrequest
  · rename_i n haligned
    obtain ⟨start, hfit, rfl⟩ := map_ok_iff.mp hrequest
    have hstart := h.start_of_fit hfit
    have hn : n % 4 = 0 := (rounds_wordAlign haligned).1
    exact ⟨hstart, by show (start + n) % 4 = 0; omega⟩

theorem register (h : a.WordAligned) (hb : b.WordAligned) : (a.register b).WordAligned := by
  refine ⟨h.origin, fun c hc => ?_⟩
  rcases mem_insertBlock.mp hc with rfl | hc
  · exact hb
  · exact h.blocks c hc

theorem erase (h : a.WordAligned) (b : Block) :
    { a with blocks := a.blocks.erase b }.WordAligned :=
  ⟨h.origin, fun c hc => h.blocks c (List.mem_of_mem_erase hc)⟩

end WordAligned

end Allocator

namespace Program

variable {p : Program} {source : String} {origin : UInt32}

/-- The program begins at a whole word and takes whole words. -/
def WholeWords (p : Program) : Prop := p.origin.toNat % 4 = 0 ∧ p.size % 4 = 0

theorem wholeWords_of_assemble (h : assemble source origin = .ok p) : p.WholeWords := by
  obtain ⟨l, -, haligned, -⟩ := assemble_ok h
  obtain ⟨horigin, -, -, hsize⟩ := size_of_assemble h
  exact ⟨horigin ▸ haligned, hsize⟩

theorem wholeWords_of_image {input : List UInt8} (h : ofImage input = .ok p) : p.WholeWords :=
  let ⟨hstorable, _⟩ := exists_of_ofImage h
  ⟨hstorable.origin, hstorable.aligned⟩

/-- What is wrong with a text at an aligned address is somewhere in the text. -/
theorem assemble_ne_unaligned (haligned : origin.toNat % 4 = 0) (address : UInt32) :
    assemble source origin ≠ .error (.unaligned address) := by
  intro herror
  obtain ⟨front, c, back, -, hmarks⟩ := marks_of_assemble haligned herror
  exact absurd hmarks.position? (by simp [AssemblyError.position?])

theorem measure_ne_unaligned (address : UInt32) :
    measure source ≠ .error (.unaligned address) := by
  intro herror
  have hlayout : layout source programStart = .error (.unaligned address) :=
    map_error_iff.mp herror
  have haligned : programStart.toNat % 4 = 0 := by decide
  have hassemble : assemble source programStart = .error (.unaligned address) := by
    rw [assemble, if_neg (not_not.mpr haligned), hlayout]
    rfl
  exact assemble_ne_unaligned haligned address hassemble

end Program

namespace Machine

variable {m m' : Machine} {d : Decoded} {p : Program}

/-- A host loads no programs of its own making but such as begin at a whole word and take whole
words. -/
def HostAction.LoadsWords : HostAction → Prop
  | .load p | .loadInto _ p => p.WholeWords
  | _ => True

/-! ### Steps -/

theorem aligned_perform (h : m.allocator.WordAligned) (e : Effect) :
    (m.perform e).machine.allocator.WordAligned := by
  rcases m.allocator_perform e with heq | ⟨b, size, hrequest, heq⟩ | ⟨b, -, heq⟩ <;> rw [heq]
  · exact h
  · exact h.register (h.aligned_of_request hrequest)
  · exact h.erase b

theorem aligned_step (h : m.allocator.WordAligned) : m.step.machine.allocator.WordAligned :=
  related_step (R := fun m m' => m.allocator.WordAligned → m'.allocator.WordAligned)
    (fun _ => id) (fun h h' hm => h' (h hm)) (fun m i hm => (m.agrees_raise i).allocator ▸ hm)
    (fun _ _ _ _ => id)
    (fun _ => related_cycle
      (R := fun m m' => m.allocator.WordAligned → m'.allocator.WordAligned)
      (fun _ => id) (fun h h' hm => h' (h hm)) id fun _ e _ _ hm => aligned_perform hm e)
    m h

/-! ### Loading -/

theorem aligned_place (h : m.allocator.WordAligned) (hp : p.WholeWords) :
    (m.place p).1.allocator.WordAligned := by
  rcases m.allocator_place p with heq | ⟨b, hb, heq⟩ <;> rw [heq]
  · exact h
  · refine h.register ?_
    obtain ⟨-, hb⟩ := Option.ite_none_right_eq_some.mp hb
    obtain rfl := Option.some.inj hb
    obtain ⟨horigin, hsize⟩ := hp
    refine ⟨horigin, ?_⟩
    show ((p.origin.toNat + p.size) % 2 ^ 32 + 4) % 4 = 0
    omega

theorem aligned_loadInto (h : m.allocator.WordAligned) (id : Nat) (hp : p.WholeWords) :
    (m.loadInto id p).1.allocator.WordAligned := by
  rcases m.loadInto_cases id p with heq | ⟨contexts, placed, -, rfl, hloaded⟩
  · rw [heq]
    exact h
  · have hplaced : ({ m with contexts }.place p).1.allocator.WordAligned := aligned_place h hp
    rcases hloaded with heq | heq <;> rw [heq] <;> exact hplaced

theorem aligned_loadSource (h : m.allocator.WordAligned) (source : String) :
    (m.loadSource source).1.allocator.WordAligned := by
  rw [loadSource, loadSourceInto]
  cases hassemble : m.assemble source with
  | error e => exact h
  | ok p =>
    obtain ⟨n, o, -, -, hp⟩ := assemble_ok_iff.mp hassemble
    exact aligned_loadInto h _ (Program.wholeWords_of_assemble hp)

theorem aligned_installHandlers (h : m.allocator.WordAligned) :
    m.installHandlers.1.allocator.WordAligned := by
  rw [installHandlers]
  rcases m.install_cases m.assembleHandlers with heq | ⟨p, hassembled, hinstalled⟩
  · rw [heq]
    exact h
  · obtain ⟨origin, -, hp⟩ := bind_ok_iff.mp hassembled
    have hplaced : (m.place p).1.allocator.WordAligned :=
      aligned_place h (Program.wholeWords_of_assemble (mapError_ok_iff.mp hp))
    rcases hinstalled with heq | heq <;> rw [heq]
    · exact hplaced
    · obtain ⟨memory, hset⟩ := (m.place p).1.setVectors_changes p Interrupt.faults
      rw [hset]
      exact hplaced

theorem aligned_create {config : Config} {events : List Event}
    (h : Machine.create config = .ok (m, events)) : m.allocator.WordAligned := by
  have hvectors : vectorsEnd % 4 = 0 := by decide
  have haligned : (blank config).allocator.WordAligned :=
    ⟨hvectors, fun _ hb => absurd hb List.not_mem_nil⟩
  obtain ⟨-, hblank | hinstalled⟩ := create_ok h
  · rw [hblank]
    exact haligned
  · rw [hinstalled]
    exact aligned_installHandlers haligned

/-! ### All that a host does -/

theorem aligned_act (h : m.allocator.WordAligned) {action : HostAction}
    (hwords : action.LoadsWords) : (m.act action).allocator.WordAligned := by
  cases action with
  | step => exact aligned_step h
  | load p => exact aligned_loadInto h _ hwords
  | loadInto id p => exact aligned_loadInto h id hwords
  | loadSource source => exact aligned_loadSource h source
  | switchContext id =>
    obtain ⟨contexts, heq⟩ := m.act_switchContext id
    rw [heq]
    exact h
  | setVector j handler =>
    obtain ⟨memory, heq⟩ := m.act_setVector j handler
    rw [heq]
    exact h
  | attach _ _ | writeMemory _ _ =>
    simp only [act]
    split <;> exact h
  | detach _ | setConsole _ | editContext _ | setClock _ => exact h
  | pause | resume | terminate | setYieldSuspends _ | raise _ => exact h

theorem ReachableBy.wordAligned (h : ReachableBy HostAction.LoadsWords m) :
    m.allocator.WordAligned := by
  induction h with
  | create hcreate => exact aligned_create hcreate
  | act hm action haction ih => exact aligned_act ih haction

/-! ### What the addresses are -/

/-- A text is assembled for a whole word, so its place is never what is wrong. -/
theorem assemble_ne_unaligned (h : m.allocator.WordAligned) (source : String) (address : UInt32) :
    m.assemble source ≠ .error (.source (.unaligned address)) := by
  intro herror
  rcases bind_error_iff.mp herror with hmeasure | ⟨size, -, hplace⟩
  · obtain ⟨e, he, heq⟩ := mapError_error_iff.mp hmeasure
    obtain rfl := LoadError.source.inj heq
    exact Program.measure_ne_unaligned address he
  · rcases bind_error_iff.mp hplace with hfit | ⟨start, hfit, hassemble⟩
    · obtain ⟨e, -, heq⟩ := mapError_error_iff.mp hfit
      cases heq
    · have hstart := h.start_of_fit (mapError_ok_iff.mp hfit)
      have haligned : (UInt32.ofNat start).toNat % 4 = 0 := by
        rw [UInt32.toNat_ofNat']
        omega
      obtain ⟨e, he, heq⟩ := mapError_error_iff.mp hassemble
      obtain rfl := LoadError.source.inj heq
      exact Program.assemble_ne_unaligned haligned address he

theorem loadSource_ne_unaligned (h : ReachableBy HostAction.LoadsWords m) (source : String)
    (address : UInt32) : (m.loadSource source).2.1 ≠ .error (.source (.unaligned address)) := by
  intro herror
  cases hassemble : m.assemble source with
  | error e =>
    rw [(loadSource_of_error hassemble).2] at herror
    obtain rfl := Except.error.inj herror
    exact assemble_ne_unaligned h.wordAligned source address hassemble
  | ok p =>
    rw [(loadSource_of_assemble h.sound h.numbered hassemble).2] at herror
    cases herror

/-- The address of an allocated block is what the program is told. -/
theorem Allocates.told {b : Block} (h : m.Allocates d b) :
    (m.step.machine.context.registers.get (d.reg 0)).toNat = b.start := by
  rw [h.registers]
  exact (congrArg UInt32.toNat (Vector.getElem_set_self _)).trans h.address

/-- **Words stay words.** Programs that are assembled or read from an image begin at a whole word
and take whole words. If a host loads none of its own making but such, then whatever it does and
whatever its programs execute: all that is allocated begins and ends at a whole word, a `MALLOC` or
`CALLOC` that finds room returns the address of a whole word, and a source text is never assembled
for an address that is none. -/
theorem words_stay_aligned (h : ReachableBy HostAction.LoadsWords m) :
    (∀ b ∈ m.allocator.blocks, b.start % 4 = 0 ∧ b.stop % 4 = 0) ∧
      (∀ d, m.upcoming = some d → d.instruction = .malloc ∨ d.instruction = .calloc →
        m.Refuses .outOfMemory ∨ ∃ b, m.Allocates d b ∧
          (m.step.machine.context.registers.get (d.reg 0)).toNat = b.start ∧ b.start % 4 = 0) ∧
      (∀ source address, (m.loadSource source).2.1 ≠ .error (.source (.unaligned address))) ∧
      (∀ source origin p, Program.assemble source origin = .ok p → p.WholeWords) ∧
      ∀ input p, Program.ofImage input = .ok p → p.WholeWords := by
  have haligned := h.wordAligned
  refine ⟨haligned.blocks, fun d hnext hd => ?_, loadSource_ne_unaligned h,
    fun _ _ _ => Program.wholeWords_of_assemble, fun _ _ => Program.wholeWords_of_image⟩
  rcases allocation_step h.sound hnext hd with ⟨hrefused, -⟩ | ⟨b, hb⟩
  · exact .inl hrefused
  · have hafter := aligned_step haligned
    have hmem : b ∈ m.step.machine.allocator.blocks := (hb.added.2.2 b).mpr (.inl rfl)
    exact .inr ⟨b, hb, hb.told, (hafter.blocks b hmem).1⟩

/-- The smallest machine with one word loaded at the address 400, about to allocate five bytes. -/
def crowded : Machine :=
  (((blank ⟨512, 1, false, false, 0⟩).act (.loadInto 7 ⟨400, 400, none, [0, 0, 0, 0], .empty⟩)).act
    (.loadSource "loadbytei r2, 5; malloc r1, r2;")).act .step

theorem words_stay_aligned_crowded : ReachableBy HostAction.LoadsWords crowded ∧
    crowded.allocator.blocks = [⟨96, 108⟩, ⟨400, 408⟩] ∧
      ∃ d b, crowded.upcoming = some d ∧ d.instruction = .malloc ∧ crowded.Allocates d b ∧
        b.start % 4 = 0 := by
  have hcreate : Machine.create ⟨512, 1, false, false, 0⟩ =
      .ok (blank ⟨512, 1, false, false, 0⟩, []) := rfl
  have hwords : Program.WholeWords ⟨400, 400, none, [0, 0, 0, 0], .empty⟩ := ⟨rfl, rfl⟩
  have hreach : ReachableBy HostAction.LoadsWords crowded :=
    .act (.act (.act (.create hcreate) (.loadInto 7 _) hwords) (.loadSource _) trivial)
      .step trivial
  have hstate : crowded.allocator.blocks = [⟨96, 108⟩, ⟨400, 408⟩] ∧
      crowded.upcoming.map Decoded.instruction = some .malloc ∧
        crowded.step.machine.allocator.blocks = [⟨96, 108⟩, ⟨108, 116⟩, ⟨400, 408⟩] := by
    decide +kernel
  obtain ⟨hblocks, hallocates, hafter⟩ := hstate
  obtain ⟨d, hd, hmalloc⟩ := Option.map_eq_some_iff.mp hallocates
  refine ⟨hreach, hblocks, d, ?_⟩
  rcases (words_stay_aligned hreach).2.1 d hd (.inl hmalloc) with hrefused | ⟨b, hb, -, hstart⟩
  · -- a refusal would have left the blocks as they were
    obtain ⟨control, stack, pc, hrest⟩ := hrefused.rest
    rw [hrest] at hafter
    exact absurd (hafter.symm.trans hblocks) (by decide)
  · exact ⟨b, hd, hmalloc, hb, hstart⟩

end Machine
end RegisterMachine
