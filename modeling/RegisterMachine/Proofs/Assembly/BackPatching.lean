import RegisterMachine.Assembly.Emission
import RegisterMachine.Proofs.Except

/-! What the second pass writes, with the targets of all jumps known.

The second pass leaves the jump at the head of a data section open and fills it in when it comes to
the next code section or to the end. Looking ahead for the next code section instead
(`Layout.nextCode`), every item has its bytes at once (`Placed.bytes`), and a program is the bytes of
its items one behind the other (`Layout.emit`). One item at a time, what is written so far, with the
open jumps filled in, goes on by the bytes of the item (`step_writes`); so both make the same
programs (`finish_foldlM`). -/
namespace RegisterMachine

/-! ### Looking ahead -/

/-- The address of the first code section among these items, or else where the program stops. -/
def Layout.nextCode (stop : Nat) : List Placed → Nat
  | [] => stop
  | p :: rest => if p.item = .codeStart then p.address else nextCode stop rest

/-- The bytes of an item, before these other items in a program that stops at this address. -/
def Placed.bytes (p : Placed) (labels : LabelTable) (stop : Nat) (others : List Placed) :
    Except AssemblyError (List UInt8) :=
  match p.item with
  | .instruction m c name operands =>
    ((m.words c name operands p.address labels).mapError (.statement p.position)).map fun words =>
      words.flatMap LittleEndian.wordBytes
  | .data bytes => .ok bytes
  | .dataHead => .ok (LittleEndian.wordBytes (jumpWord (Layout.nextCode stop others)))
  | .codeStart => .ok []

/-- The bytes of all items, one after the other. -/
def Layout.emit (labels : LabelTable) (stop : Nat) : List Placed → Except AssemblyError (List UInt8)
  | [] => .ok []
  | p :: rest => do
    let bytes ← p.bytes labels stop rest
    let others ← emit labels stop rest
    .ok (bytes ++ others)

namespace Emission

variable {labels : LabelTable} {e e' : Emission} {p : Placed} {items others : List Placed}
  {bytes more own : List UInt8} {start stop origin target : Nat} {word : UInt32}

/-! ### Filling in -/

theorem length_overwrite (h : start + 4 ≤ bytes.length) :
    (overwrite bytes start word).length = bytes.length := by
  simp only [overwrite, List.length_append, List.length_take, List.length_drop,
    LittleEndian.length_wordBytes]
  omega

theorem overwrite_append (h : start + 4 ≤ bytes.length) :
    overwrite (bytes ++ more) start word = overwrite bytes start word ++ more := by
  rw [overwrite, overwrite, List.take_append_of_le_length (by omega),
    List.drop_append_of_le_length h, List.append_assoc _ _ more]

theorem overwrite_end (hlength : more.length = 4) :
    overwrite (bytes ++ more) bytes.length word = bytes ++ LittleEndian.wordBytes word := by
  rw [overwrite, List.take_left, ← hlength, ← List.length_append, List.drop_length,
    List.append_nil]

/-- All jumps that wait stand in what is written. -/
def HeadsWritten (e : Emission) : Prop := ∀ start ∈ e.heads, start + 4 ≤ e.bytes.length

/-- What is filled in stays as long as it is, and does not touch what comes behind it. -/
theorem foldl_overwrite {heads : List Nat} (h : ∀ start ∈ heads, start + 4 ≤ bytes.length) :
    (heads.foldl (overwrite · · word) bytes).length = bytes.length ∧
      ∀ more, heads.foldl (overwrite · · word) (bytes ++ more) =
        heads.foldl (overwrite · · word) bytes ++ more := by
  induction heads generalizing bytes with
  | nil => exact ⟨rfl, fun _ => rfl⟩
  | cons start rest ih =>
    have hstart := h start List.mem_cons_self
    have hlength : (overwrite bytes start word).length = bytes.length := length_overwrite hstart
    have hothers : ∀ other ∈ rest, other + 4 ≤ (overwrite bytes start word).length := by
      intro other hother
      rw [hlength]
      exact h other (List.mem_cons_of_mem _ hother)
    obtain ⟨hrest, happend⟩ := ih hothers
    refine ⟨hrest.trans hlength, fun more => ?_⟩
    rw [List.foldl_cons, overwrite_append hstart]
    exact happend more

theorem HeadsWritten.length_patch (h : e.HeadsWritten) :
    (e.patch target).bytes.length = e.bytes.length :=
  (foldl_overwrite h).1

theorem HeadsWritten.patch_append (h : e.HeadsWritten) :
    ((e.append more).patch target).bytes = (e.patch target).bytes ++ more :=
  (foldl_overwrite h).2 more

theorem HeadsWritten.patch_appendHead (h : e.HeadsWritten) :
    (e.appendHead.patch target).bytes =
      (e.patch target).bytes ++ LittleEndian.wordBytes (jumpWord target) := by
  have hlength : (e.patch target).bytes.length = e.bytes.length := h.length_patch
  show (e.heads ++ [e.bytes.length]).foldl _ (e.bytes ++ List.replicate 4 0) = _
  rw [List.foldl_append]
  show overwrite ((e.append _).patch target).bytes e.bytes.length _ = _
  rw [h.patch_append, ← hlength, overwrite_end List.length_replicate]

/-! ### Both passes -/

/-- The second pass has gone on by these bytes: with the waiting jumps filled in, they stand behind
what was written. `next` is the target before the item and `next'` behind it. -/
structure Writes (e : Emission) (next : Nat) (own : List UInt8) (e' : Emission) (next' : Nat) :
    Prop where
  heads : e'.HeadsWritten
  length : e'.bytes.length = e.bytes.length + own.length
  bytes : (e'.patch next').bytes = (e.patch next).bytes ++ own

theorem HeadsWritten.writes_append (h : e.HeadsWritten) :
    e.Writes target own (e.append own) target :=
  ⟨fun start hstart => Nat.le_trans (h start hstart) (List.length_append ▸ Nat.le_add_right _ _),
    List.length_append, h.patch_append⟩

theorem HeadsWritten.writes_appendHead (h : e.HeadsWritten) :
    e.Writes target (LittleEndian.wordBytes (jumpWord target)) e.appendHead target := by
  have hlength : e.appendHead.bytes.length = e.bytes.length + 4 := List.length_append
  refine ⟨fun start hstart => ?_, by rw [hlength, LittleEndian.length_wordBytes],
    h.patch_appendHead⟩
  rw [hlength]
  rcases List.mem_append.mp hstart with hstart | hstart
  · have := h start hstart
    omega
  · exact Nat.le_of_eq (congrArg (· + 4) (List.mem_singleton.mp hstart))

theorem HeadsWritten.writes_patch (h : e.HeadsWritten) (next' : Nat) :
    e.Writes target [] (e.patch target) next' :=
  ⟨fun _ hstart => absurd hstart List.not_mem_nil, h.length_patch, (List.append_nil _).symm⟩

/-- A step fails with the error of the item, or goes on by its bytes. -/
theorem step_writes (h : e.HeadsWritten) (labels : LabelTable) (stop : Nat) (p : Placed)
    (others : List Placed) :
    (∃ err, step labels e p = .error err ∧ p.bytes labels stop others = .error err) ∨
      ∃ e' own, step labels e p = .ok e' ∧ p.bytes labels stop others = .ok own ∧
        e.Writes (Layout.nextCode stop (p :: others)) own e' (Layout.nextCode stop others) := by
  obtain ⟨item, address, size, position⟩ := p
  cases item with
  | instruction m c name operands =>
    cases hwords : m.words c name operands address labels with
    | error err =>
      refine .inl ⟨.statement position err, ?_, ?_⟩
      · simp only [step, hwords]
        rfl
      · simp only [Placed.bytes, hwords]
        rfl
    | ok words =>
      refine .inr ⟨_, words.flatMap LittleEndian.wordBytes, ?_, ?_, h.writes_append⟩
      · simp only [step, hwords]
        rfl
      · simp only [Placed.bytes, hwords]
        rfl
  | data bytes => exact .inr ⟨_, bytes, rfl, rfl, h.writes_append⟩
  | dataHead => exact .inr ⟨_, _, rfl, rfl, h.writes_appendHead⟩
  | codeStart => exact .inr ⟨_, [], rfl, rfl, h.writes_patch _⟩

/-- From any point on, the second pass writes the bytes of the items, if `stop` is where they
end. -/
theorem finish_foldlM (h : e.HeadsWritten)
    (hstop : ∀ bytes, Layout.emit labels stop items = .ok bytes →
      origin + (e.bytes.length + bytes.length) = stop) :
    (items.foldlM (step labels) e).map (finish origin) =
      (Layout.emit labels stop items).map ((e.patch (Layout.nextCode stop items)).bytes ++ ·) := by
  induction items generalizing e with
  | nil =>
    have hend : origin + e.bytes.length = stop := hstop [] rfl
    show Except.ok (e.patch (origin + e.bytes.length)).bytes = .ok ((e.patch stop).bytes ++ [])
    rw [hend, List.append_nil]
  | cons p rest ih =>
    rw [List.foldlM_cons]
    rcases step_writes h labels stop p rest with ⟨err, hstep, hown⟩ | ⟨e', own, hstep, hown, hwrites⟩
    · rw [hstep, Layout.emit, hown]
      rfl
    · have hrest := ih hwrites.heads fun others hothers => by
        have := hstop (own ++ others) (bind_ok_iff.mpr
          ⟨own, hown, bind_ok_iff.mpr ⟨others, hothers, rfl⟩⟩)
        rw [hwrites.length, ← this, List.length_append]
        omega
      rw [hstep, Layout.emit, hown]
      refine hrest.trans ?_
      rw [hwrites.bytes]
      cases Layout.emit labels stop rest with
      | error err => rfl
      | ok others => exact congrArg Except.ok (List.append_assoc _ _ _)

end Emission

/-- **Back-patching.** A layout becomes the program of its items' bytes if these end where it stops;
both ways, the first item that cannot be encoded is reported. -/
theorem Layout.program_eq {l : Layout} {origin : UInt32} {stop : Nat}
    (hstop : ∀ bytes, emit l.labels stop l.items = .ok bytes → origin.toNat + bytes.length = stop) :
    l.program origin = (emit l.labels stop l.items).map fun bytes =>
      ⟨origin, origin, l.stackSize, bytes, l.labels⟩ := by
  have hfinish :
      (l.items.foldlM (Emission.step l.labels) .start).map (Emission.finish origin.toNat) =
        (emit l.labels stop l.items).map fun bytes => bytes := by
    refine Emission.finish_foldlM (fun _ h => absurd h List.not_mem_nil) fun bytes h => ?_
    rw [← hstop bytes h]
    exact congrArg _ (Nat.zero_add _)
  rw [program]
  cases hemit : emit l.labels stop l.items with
  | error err =>
    rw [hemit] at hfinish
    rw [map_error_iff.mp hfinish]
    rfl
  | ok bytes =>
    rw [hemit] at hfinish
    obtain ⟨e, he, hbytes⟩ := map_ok_iff.mp hfinish
    rw [he]
    show Except.ok _ = Except.ok _
    rw [hbytes]

end RegisterMachine
