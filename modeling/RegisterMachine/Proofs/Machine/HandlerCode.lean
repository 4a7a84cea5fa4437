import RegisterMachine.Proofs.Assembly.ReadBack
import RegisterMachine.Proofs.Machine.HandlerRun

/-! The code of the built-in fault handlers.

Wherever the handlers are assembled, their words are decoded to the instructions of the
layout: registers and the constant zero are read without regard to the address, and the
labels have moved with the handlers (`lookup_shift`), so the jumps stay within a handler and
the first register points to its message. This is what a handler needs to run
(`Assembled.stands`). -/
namespace RegisterMachine.Machine

namespace Handler

variable {p : Program} {l : Layout} {origin : UInt32} {i : Interrupt} {ins : Instruction}
  {mnemonic : Mnemonic} {q : Placed} {name label : String} {operands : List Token} {token : Token}
  {position : Position} {e k n : Nat}

/-! ### The assembled handlers -/

/-- The handlers are assembled from this address on, all of them within reach of a word offset. -/
structure Assembled (p : Program) (l : Layout) (origin : UInt32) : Prop where
  laid : Laid l
  layout : Program.layout source origin = .ok (l.shift origin.toNat)
  program : Program.assemble source origin = .ok p
  labels : p.labels = l.labels.shift origin
  aligned : origin.toNat % 4 = 0
  near : origin.toNat + size < 2 ^ 24

theorem measure_source : Program.measure source = .ok size := by
  obtain ⟨statements, l, htokens, hlayout, -, hsize, -⟩ := layout_source
  have hsource : Program.layout source 0 = .ok l :=
    bind_ok_iff.mpr ⟨statements, htokens, hlayout⟩
  rw [← hsize]
  exact Program.measure_of_layout hsource

theorem exists_assembled (haligned : origin.toNat % 4 = 0) (hnear : origin.toNat + size < 2 ^ 24) :
    ∃ p l, Assembled p l origin := by
  obtain ⟨statements, l, htokens, hlayout, hlaid⟩ := layout_source
  obtain ⟨hitems, -, -, -, hentries, hemits⟩ := id hlaid
  obtain ⟨bytes, hemit⟩ := Option.isSome_iff_exists.mp hemits
  have habsolute : ∀ q ∈ l.items, q.item.Absolute := hitems ▸ absolute_items
  have hnames : l.labels.Near origin.toNat := by
    intro name target hlookup
    obtain ⟨front, back, hsplit, -⟩ := List.lookup_eq_some_iff.mp hlookup
    have hentry : target.toNat ≤ size :=
      hentries _ (hsplit ▸ List.mem_append_right _ List.mem_cons_self)
    omega
  obtain ⟨hmoved, bytes', hassemble⟩ := Program.assemble_of_absolute htokens hlayout
    (ok_of_toOption hemit) habsolute hnames haligned
  exact ⟨_, l, hlaid, hmoved, hassemble, rfl, haligned, hnear⟩

theorem mem_items (hi : i ∈ Interrupt.faults) (hq : q ∈ codeItems i) : q ∈ items :=
  List.mem_append_right _ (List.mem_cons_of_mem _ (List.mem_flatMap.mpr ⟨i, hi, hq⟩))

/-- A label has moved with the handlers. -/
theorem lookup_shift {t : LabelTable} (h : t.lookup? label = some (UInt32.ofNat e)) :
    (t.shift origin).lookup? label = some (UInt32.ofNat (origin.toNat + e)) := by
  have hsum : UInt32.ofNat e + origin = UInt32.ofNat (origin.toNat + e) := by
    rw [UInt32.ofNat_add, UInt32.ofNat_toNat, UInt32.add_comm]
  rw [LabelTable.lookup?_shift, h, ← hsum]
  rfl

theorem arg_zero {kind : OperandKind} (hkind : kind.isRegister = true) {address : Nat}
    {labels : LabelTable} :
    ins.arg kind ⟨"0", position, false⟩ address labels = .ok (.operand .zero) := by
  rw [Instruction.arg, if_neg (by simp), if_pos hkind, if_pos rfl]

theorem args_of_each {address : Nat} {labels : LabelTable} {operands : List (OperandKind × Token)}
    {args : List Arg}
    (h : List.Forall₂ (fun o a => ins.arg o.1 o.2 address labels = .ok a) operands args) :
    ins.args address labels operands = .ok args := by
  induction h with
  | nil => rfl
  | cons hfirst _ ih => exact bind_ok_iff.mpr ⟨_, hfirst, bind_ok_iff.mpr ⟨_, ih, rfl⟩⟩

/-- A word behind the mark is the name of a label. -/
theorem reference?_mark {marked name rest : String} (h : marked = "@" ++ name) :
    Token.reference? ⟨marked ++ rest, position, false⟩ = some (name ++ rest) := by
  have htext : (marked ++ rest).toList = '@' :: (name ++ rest).toList := by
    rw [h, String.append_assoc, String.toList_append]
    rfl
  rw [Token.reference?, Token.startsWith, Token.tail, htext]
  exact congrArg some String.ofList_toList

namespace Assembled

/-- The bytes of an item stand in the program where the layout from zero has them. -/
theorem emitted (h : Assembled p l origin) (hq : q ∈ items) :
    ∃ own stop others,
      (q.shift origin.toNat).bytes (l.labels.shift origin) stop others = .ok own ∧
        (p.bytes.drop q.address).take q.size = own := by
  obtain ⟨hitems, -⟩ := h.laid
  have hmem : q.shift origin.toNat ∈ (l.shift origin.toNat).items :=
    List.mem_map_of_mem (hitems ▸ hq)
  obtain ⟨front, back, hsplit⟩ := List.append_of_mem hmem
  obtain ⟨own, hown, -, hloaded⟩ := Program.emitted_at h.program h.layout hsplit
  have haddress : (q.shift origin.toNat).address - origin.toNat = q.address := by
    show q.address + origin.toNat - origin.toNat = _
    omega
  have hlabels : (l.shift origin.toNat).labels = l.labels.shift origin := by
    show l.labels.shift (UInt32.ofNat origin.toNat) = _
    rw [UInt32.ofNat_toNat]
  rw [hlabels] at hown
  rw [haddress] at hloaded
  exact ⟨own, _, _, hown, hloaded⟩

/-- The words of an instruction statement. -/
theorem words (h : Assembled p l origin) (hi : i ∈ Interrupt.faults)
    (hq : ⟨.instruction mnemonic .always name operands, entry i + k, n, position⟩ ∈ codeItems i) :
    ∃ words, mnemonic.words .always name operands (entry i + k + origin.toNat)
        (l.labels.shift origin) = .ok words ∧
      (p.bytes.drop (entry i + k)).take n = words.flatMap LittleEndian.wordBytes := by
  obtain ⟨own, stop, others, hown, hloaded⟩ := h.emitted (mem_items hi hq)
  obtain ⟨words, hwords, rfl⟩ := map_ok_iff.mp hown
  exact ⟨words, mapError_ok_iff.mp hwords, hloaded⟩

/-- The word of an instruction whose arguments do not depend on where it stands. -/
theorem written (h : Assembled p l origin) (hi : i ∈ Interrupt.faults)
    (hq : ⟨.instruction (.native ins) .always name operands, entry i + k, 4, position⟩ ∈
      codeItems i) (hother : ins ≠ .memSize) {args : List Arg}
    (hargs : ins.args (entry i + k + origin.toNat) (l.labels.shift origin)
      (ins.operands.zip operands) = .ok args) :
    Written ins args ((p.bytes.drop (entry i + k)).take 4) := by
  obtain ⟨words, hwords, hloaded⟩ := h.words hi hq
  obtain ⟨harity, args', word, hargs', hword, rfl⟩ := Mnemonic.native_words hwords
  obtain rfl := Except.ok.inj (hargs.symm.trans hargs')
  have hsaid := Instruction.says_of_args harity hargs (Instruction.encode_ok_iff.mp ⟨word, hword⟩)
  have hread : ins.readAs .always = .always := ite_self _
  have hreads := Instruction.readsBack_of_encode hword hread hsaid.cutArgs_eq
  obtain ⟨d, hdecode, hinstruction, hcondition, hd⟩ := hreads.itself fun hclock => hother hclock.1
  rw [hloaded]
  exact ⟨word, d, List.append_nil _, hdecode, hinstruction, hcondition, hd⟩

/-- A jump goes to where its label has moved. -/
theorem jump (h : Assembled p l origin) (hi : i ∈ Interrupt.faults)
    (hq : ⟨.instruction (.native ins) .always name [token], entry i + k, 4, position⟩ ∈ codeItems i)
    (hins : ins = .jz ∨ ins = .jmp) (hreference : token.reference? = some label)
    (hlookup : l.labels.lookup? label = some (UInt32.ofNat e)) (haligned : e % 4 = 0) :
    ∃ value, Written ins [.immediate value] ((p.bytes.drop (entry i + k)).take 4) ∧
      value <<< 2 = UInt32.ofNat (origin.toNat + e) := by
  have hkinds : ins.operands = [.off22] := by rcases hins with rfl | rfl <;> rfl
  have hother : ins ≠ .memSize ∧ ins ≠ .jfw ∧ ins ≠ .jbw := by
    rcases hins with rfl | rfl <;> decide
  obtain ⟨words, hwords, -⟩ := h.words hi hq
  obtain ⟨-, args, -, hargs, -⟩ := Mnemonic.native_words hwords
  have hzip : ins.operands.zip [token] = [(.off22, token)] := by rw [hkinds]; rfl
  have harg := hargs
  rw [hzip] at harg
  obtain ⟨a, ha, hnil⟩ := bind_ok_iff.mp harg
  obtain rfl := Except.ok.inj hnil
  obtain ⟨-, target, value, htarget, hvalue, rfl⟩ := Instruction.arg_of_reference ha hreference
  obtain rfl := Option.some.inj ((lookup_shift hlookup).symm.trans htarget)
  have hnear := h.near
  have horigin := h.aligned
  refine ⟨value, h.written hi hq hother.1 hargs,
    offset_of_labelValue ?_ hother.2.1 hother.2.2 hvalue⟩
  rw [UInt32.toNat_ofNat']
  omega

/-- What the assembler makes of a handler is a handler. -/
theorem stands (h : Assembled p l origin) (hi : i ∈ Interrupt.faults) :
    Stands p.bytes origin.toNat i := by
  obtain ⟨hentry, hmessage, hprint, hstop⟩ := h.laid.2.2.2.1 i hi
  obtain ⟨haligned, hend⟩ := entry_inside hi
  obtain ⟨hmessageEnd, -⟩ := message_inside hi
  have hmem : ∀ slot {q}, (codeItems i)[slot]? = some q → q ∈ codeItems i :=
    fun _ _ => List.mem_of_getElem?
  have hr1 : Reg.parse "r1" = .ok 0 := rfl
  have hr2 : Reg.parse "r2" = .ok 1 := rfl
  constructor
  case load =>
    exact h.written hi (hmem 1 rfl) nofun (args_of_each
      (.cons (Instruction.arg_of_parse rfl rfl hr2) (.cons (Instruction.arg_of_parse rfl rfl hr1)
        (.cons (arg_zero rfl) .nil))))
  case compare =>
    exact h.written hi (hmem 2 rfl) nofun (args_of_each
      (.cons (Instruction.arg_of_parse rfl rfl hr2) (.cons (arg_zero rfl) .nil)))
  case leave =>
    exact h.jump hi (hmem 3 rfl) (.inl rfl) (reference?_mark (by decide)) hstop (by omega)
  case print =>
    exact h.written hi (hmem 4 rfl) nofun (args_of_each
      (.cons (Instruction.arg_of_parse rfl rfl hr2) .nil))
  case next =>
    exact h.written hi (hmem 5 rfl) nofun (args_of_each
      (.cons (Instruction.arg_of_parse rfl rfl hr1) .nil))
  case again =>
    exact h.jump hi (hmem 6 rfl) (.inr rfl) (reference?_mark (by decide)) hprint (by omega)
  case halt => exact h.written hi (hmem 7 rfl) nofun rfl
  case halves =>
    obtain ⟨words, hwords, hloaded⟩ := h.words hi (hmem 0 rfl)
    have hmark : ∀ position, Token.reference? ⟨"@__msg_" ++ toString i.index, position, false⟩ =
        some ("__msg_" ++ toString i.index) := fun _ => reference?_mark (by decide)
    obtain ⟨first, target, r, low, high, hoperands, hr, htarget, rfl, hhalves⟩ :=
      halves_of_words hwords (List.mem_cons_of_mem _ List.mem_cons_self) (hmark _)
    obtain ⟨rfl, -⟩ := List.cons.inj hoperands
    obtain rfl := Except.ok.inj (hr1.symm.trans hr)
    obtain rfl := Option.some.inj ((lookup_shift hmessage).symm.trans htarget)
    exact ⟨low, high, hloaded, hhalves⟩
  case message =>
    have hdata : dataItem i ∈ items :=
      List.mem_append_left _ (List.mem_cons_of_mem _ (List.mem_map_of_mem hi))
    obtain ⟨own, stop, others, hown, hloaded⟩ := h.emitted hdata
    exact hloaded.trans (Except.ok.inj hown).symm

end Assembled
end Handler
end RegisterMachine.Machine
