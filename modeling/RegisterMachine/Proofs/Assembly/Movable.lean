import RegisterMachine.Proofs.Assembly.LabelOperand
import RegisterMachine.Proofs.Instruction.RoundTrip

/-! Programs that assemble anywhere.

The first pass does not depend on where a program stands, but the second one does:
a label that is far away may not fit its operand. Where a program uses its labels only
as word offsets and in `LOADWORDI`, there is room for every address below `2 ^ 24`, so
if it is encoded from address zero it is encoded from any address up to there
(`assemble_of_absolute`). -/
namespace RegisterMachine

/-- The instruction uses labels only as word offsets from zero, or as whole addresses. -/
def Item.Absolute : Item → Prop
  | .instruction (.native i) _ _ operands =>
    ∀ o ∈ i.operands.zip operands, o.2.reference? ≠ none → o.1 = .off22 ∧ i ≠ .jfw ∧ i ≠ .jbw
  | .instruction .loadWordI _ _ _ | .data _ | .dataHead | .codeStart => True

instance : DecidablePred Item.Absolute
  | .instruction (.native i) _ _ operands =>
    inferInstanceAs (Decidable (∀ o ∈ i.operands.zip operands, _ → _))
  | .instruction .loadWordI _ _ _ | .data _ | .dataHead | .codeStart => .isTrue trivial

/-- All labels are below the reach of word offsets when they are moved by a distance. -/
def LabelTable.Near (t : LabelTable) (k : Nat) : Prop :=
  ∀ name target, t.lookup? name = some target → target.toNat + k < 2 ^ 24

variable {i : Instruction} {kind : OperandKind} {token : Token} {address k : Nat}
  {labels : LabelTable} {a : Arg} {c : Condition} {name : String}

theorem LabelTable.Near.toNat_add (h : labels.Near k) {target : UInt32}
    (hlookup : labels.lookup? name = some target) :
    (labels.shift (UInt32.ofNat k)).lookup? name = some (target + UInt32.ofNat k) ∧
      (target + UInt32.ofNat k).toNat = target.toNat + k := by
  have hnear := h name target hlookup
  refine ⟨by rw [lookup?_shift, hlookup]; rfl, ?_⟩
  rw [UInt32.toNat_add, UInt32.toNat_ofNat']
  omega

theorem LabelTable.resolve_of_lookup? {t : LabelTable} {target : UInt32}
    (h : t.lookup? name = some target) : t.resolve name = .ok target := by
  rw [resolve, h]

namespace Instruction

/-! ### One instruction -/

/-- Two arguments that the same operands hold. -/
def Alike (a a' : Arg) : Prop := ∀ kind : OperandKind, kind.Holds a → kind.Holds a'

theorem arg_of_no_reference (hreference : token.reference? = none) (address' : Nat)
    (labels' : LabelTable) :
    i.arg kind token address' labels' = i.arg kind token address labels := by
  unfold arg
  rw [hreference]

/-- A token has an argument at any other address too, if its label can be reached there. -/
theorem arg_shift (h : i.arg kind token address labels = .ok a)
    (habsolute : token.reference? ≠ none → kind = .off22 ∧ i ≠ .jfw ∧ i ≠ .jbw)
    (hnear : labels.Near k) :
    ∃ a', i.arg kind token (address + k) (labels.shift (UInt32.ofNat k)) = .ok a' ∧
      Alike a a' := by
  cases hreference : token.reference? with
  | none => exact ⟨a, (arg_of_no_reference hreference _ _).trans h, fun _ => id⟩
  | some label =>
    obtain ⟨rfl, hjfw, hjbw⟩ := habsolute (by simp [hreference])
    obtain ⟨-, target, value, htarget, -, rfl⟩ := arg_of_reference h hreference
    obtain ⟨hquoted, -⟩ := Token.of_reference? hreference
    obtain ⟨htarget', htoNat⟩ := hnear.toNat_add htarget
    have hlt := hnear label target htarget
    have hfits : (target.toNat + k) / 4 < 1 <<< OperandKind.off22.width := by
      show _ < 2 ^ 22
      omega
    refine ⟨.immediate (UInt32.ofNat ((target.toNat + k) / 4)), ?_, fun _ => id⟩
    rw [arg, hquoted, hreference, if_neg (by decide), if_neg (by decide)]
    dsimp only
    rw [LabelTable.resolve_of_lookup? htarget']
    show (i.labelValue .off22 label (target + UInt32.ofNat k).toNat (address + k)).map _ = _
    rw [labelValue, scaled?_eq hjfw hjbw, if_pos rfl, htoNat]
    dsimp only
    rw [if_pos hfits]
    rfl

theorem args_shift {operands : List (OperandKind × Token)} {args : List Arg}
    (h : i.args address labels operands = .ok args)
    (habsolute : ∀ o ∈ operands, o.2.reference? ≠ none → o.1 = .off22 ∧ i ≠ .jfw ∧ i ≠ .jbw)
    (hnear : labels.Near k) :
    ∃ args', i.args (address + k) (labels.shift (UInt32.ofNat k)) operands = .ok args' ∧
      List.Forall₂ Alike args args' := by
  induction operands generalizing args with
  | nil =>
    obtain rfl := Except.ok.inj h
    exact ⟨[], rfl, .nil⟩
  | cons o rest ih =>
    obtain ⟨first, hfirst, h⟩ := bind_ok_iff.mp h
    obtain ⟨others, hothers, h⟩ := bind_ok_iff.mp h
    obtain rfl := Except.ok.inj h
    obtain ⟨first', hfirst', halike⟩ := arg_shift hfirst (habsolute o List.mem_cons_self) hnear
    obtain ⟨others', hothers', hrest⟩ :=
      ih hothers fun o' ho' => habsolute o' (List.mem_cons_of_mem _ ho')
    refine ⟨first' :: others', ?_, .cons halike hrest⟩
    exact bind_ok_iff.mpr ⟨first', hfirst', bind_ok_iff.mpr ⟨others', hothers', rfl⟩⟩

theorem Accepts.alike {args args' : List Arg} (h : i.Accepts args)
    (halike : List.Forall₂ Alike args args') : i.Accepts args' := by
  refine ⟨halike.length_eq.symm.trans h.count, fun {slot kind arg'} hkind harg' => ?_⟩
  obtain ⟨hlt', rfl⟩ := List.getElem?_eq_some_iff.mp harg'
  have hlt : slot < args.length := halike.length_eq ▸ hlt'
  have harg := h.holds hkind (List.getElem?_eq_getElem hlt)
  exact (List.forall₂_iff_get.mp halike).2 slot hlt hlt' kind harg

/-- What is encoded is also encoded with other arguments of the same sorts. -/
theorem encode_of_alike {args args' : List Arg} {word : UInt32} (h : i.encode c args = .ok word)
    (halike : List.Forall₂ Alike args args') : ∃ word', i.encode c args' = .ok word' :=
  encode_ok_iff.mpr ((encode_ok_iff.mp ⟨word, h⟩).alike halike)

/-- A register is read without regard to the address and the labels. -/
theorem arg_of_isRegister (hkind : kind.isRegister = true) (address' : Nat)
    (labels' : LabelTable) :
    i.arg kind token address' labels' = i.arg kind token address labels := by
  unfold arg
  rw [hkind]
  rfl

end Instruction

variable {operands : List Token} {words : List UInt32}

theorem Mnemonic.native_words_shift
    (h : (Mnemonic.native i).words c name operands address labels = .ok words)
    (habsolute : (Item.instruction (.native i) c name operands).Absolute) (hnear : labels.Near k) :
    ∃ words', (Mnemonic.native i).words c name operands (address + k)
      (labels.shift (UInt32.ofNat k)) = .ok words' := by
  obtain ⟨hlength, args, word, hargs, hword, -⟩ := native_words h
  obtain ⟨args', hargs', halike⟩ := Instruction.args_shift hargs habsolute hnear
  obtain ⟨word', hword'⟩ := Instruction.encode_of_alike hword halike
  refine ⟨[word'], ?_⟩
  rw [Mnemonic.words, if_neg (not_not.mpr hlength)]
  exact bind_ok_iff.mpr ⟨args', hargs', bind_ok_iff.mpr
    ⟨word', mapError_ok_iff.mpr hword', rfl⟩⟩

theorem loadWordValue_shift {value : UInt32} {isLabel : Bool}
    (h : loadWordValue token labels = .ok (value, isLabel)) (hnear : labels.Near k) :
    (isLabel = false ∧
        loadWordValue token (labels.shift (UInt32.ofNat k)) = .ok (value, isLabel)) ∨
      isLabel = true ∧
        ∃ value', loadWordValue token (labels.shift (UInt32.ofNat k)) = .ok (value', isLabel) := by
  unfold loadWordValue at h ⊢
  cases hreference : token.reference? with
  | none =>
    rw [hreference] at h
    obtain ⟨literal, hliteral, heq⟩ := map_ok_iff.mp h
    exact .inl ⟨(Prod.mk.inj heq).2.symm, h⟩
  | some label =>
    rw [hreference] at h
    obtain ⟨target, htarget, heq⟩ := map_ok_iff.mp h
    obtain ⟨-, rfl⟩ := Prod.mk.inj heq
    have htarget' := (hnear.toNat_add
      (LabelTable.lookup?_of_resolve (mapError_ok_iff.mp htarget))).1
    refine .inr ⟨rfl, target + UInt32.ofNat k, ?_⟩
    exact map_ok_iff.mpr
      ⟨_, mapError_ok_iff.mpr (LabelTable.resolve_of_lookup? htarget'), rfl⟩

theorem loadWordWords_of_label {rd : Arg} {value : UInt32}
    (h : loadWordWords c rd value true = .ok words) (value' : UInt32) :
    ∃ words', loadWordWords c rd value' true = .ok words' := by
  rw [loadWordWords, if_neg (by simp)] at h
  obtain ⟨low, hlow, h⟩ := bind_ok_iff.mp h
  obtain ⟨high, hhigh, -⟩ := bind_ok_iff.mp h
  have halike : ∀ half half' : UInt32,
      List.Forall₂ Instruction.Alike [rd, .immediate half] [rd, .immediate half'] :=
    fun _ _ => .cons (fun _ => id) (.cons (fun _ => id) .nil)
  obtain ⟨low', hlow'⟩ := Instruction.encode_of_alike hlow (halike _ (value' &&& 0xFFFF))
  obtain ⟨high', hhigh'⟩ := Instruction.encode_of_alike hhigh (halike _ (value' >>> 16))
  refine ⟨[low', high'], ?_⟩
  rw [loadWordWords, if_neg (by simp)]
  exact bind_ok_iff.mpr ⟨low', hlow', bind_ok_iff.mpr ⟨high', hhigh', rfl⟩⟩

theorem Mnemonic.loadWordI_words_shift
    (h : Mnemonic.loadWordI.words c name operands address labels = .ok words)
    (hnear : labels.Near k) :
    ∃ words', Mnemonic.loadWordI.words c name operands (address + k)
      (labels.shift (UInt32.ofNat k)) = .ok words' := by
  obtain ⟨first, second, rd, value, isLabel, rfl, hrd, hvalue, hwords⟩ := loadWordI_words h
  have hrd' := (Instruction.arg_of_isRegister rfl (address + k)
    (labels.shift (UInt32.ofNat k))).trans hrd
  rcases loadWordValue_shift hvalue hnear with ⟨rfl, hvalue'⟩ | ⟨rfl, value', hvalue'⟩
  · exact ⟨words, bind_ok_iff.mpr ⟨rd, hrd', bind_ok_iff.mpr
      ⟨_, hvalue', mapError_ok_iff.mpr hwords⟩⟩⟩
  · obtain ⟨words', hwords'⟩ := loadWordWords_of_label hwords value'
    exact ⟨words', bind_ok_iff.mpr ⟨rd, hrd', bind_ok_iff.mpr
      ⟨_, hvalue', mapError_ok_iff.mpr hwords'⟩⟩⟩

/-! ### Whole programs -/

theorem Placed.bytes_shift {p : Placed} {stop stop' : Nat} {others others' : List Placed}
    {bytes : List UInt8} (h : p.bytes labels stop others = .ok bytes)
    (habsolute : p.item.Absolute) (hnear : labels.Near k) :
    ∃ bytes', (p.shift k).bytes (labels.shift (UInt32.ofNat k)) stop' others' = .ok bytes' := by
  obtain ⟨item, address, size, position⟩ := p
  cases item with
  | data _ | dataHead | codeStart => exact ⟨_, rfl⟩
  | instruction m c name operands =>
    obtain ⟨words, hwords, -⟩ := map_ok_iff.mp h
    have hwords := mapError_ok_iff.mp hwords
    have hmoved : ∃ words', m.words c name operands (address + k)
        (labels.shift (UInt32.ofNat k)) = .ok words' := by
      cases m with
      | native i => exact Mnemonic.native_words_shift hwords habsolute hnear
      | loadWordI => exact Mnemonic.loadWordI_words_shift hwords hnear
    obtain ⟨words', hwords'⟩ := hmoved
    exact ⟨_, map_ok_iff.mpr ⟨words', mapError_ok_iff.mpr hwords', rfl⟩⟩

theorem Layout.emit_shift {stop : Nat} {items : List Placed} {bytes : List UInt8}
    (h : emit labels stop items = .ok bytes) (habsolute : ∀ p ∈ items, p.item.Absolute)
    (hnear : labels.Near k) (stop' : Nat) :
    ∃ bytes', emit (labels.shift (UInt32.ofNat k)) stop' (items.map (Placed.shift k)) =
      .ok bytes' := by
  induction items generalizing bytes with
  | nil => exact ⟨[], rfl⟩
  | cons p rest ih =>
    obtain ⟨own, hown, h⟩ := bind_ok_iff.mp h
    obtain ⟨others, hothers, -⟩ := bind_ok_iff.mp h
    obtain ⟨own', hown'⟩ := Placed.bytes_shift hown (habsolute p List.mem_cons_self) hnear
    obtain ⟨others', hothers'⟩ := ih hothers fun q hq => habsolute q (List.mem_cons_of_mem _ hq)
    exact ⟨own' ++ others', bind_ok_iff.mpr ⟨own', hown', bind_ok_iff.mpr
      ⟨others', hothers', rfl⟩⟩⟩

/-- A program that uses its labels absolutely assembles wherever they stay within reach. -/
theorem Program.assemble_of_absolute {source : String} {statements : List Statement} {l : Layout}
    {bytes : List UInt8} {origin : UInt32} (htokens : tokenize source = .ok statements)
    (hlayout : Layout.ofStatements 0 statements = .ok l)
    (hemit : Layout.emit l.labels l.size l.items = .ok bytes)
    (habsolute : ∀ p ∈ l.items, p.item.Absolute) (hnear : l.labels.Near origin.toNat)
    (haligned : origin.toNat % 4 = 0) :
    layout source origin = .ok (l.shift origin.toNat) ∧ ∃ bytes',
      assemble source origin =
        .ok ⟨origin, origin, l.stackSize, bytes', l.labels.shift origin⟩ := by
  have hshift := Layout.ofStatements_shift origin.toNat statements
  rw [hlayout] at hshift
  have hmoved : layout source origin = .ok (l.shift origin.toNat) :=
    bind_ok_iff.mpr ⟨statements, htokens, ok_of_toOption hshift⟩
  obtain ⟨bytes', hemit'⟩ := Layout.emit_shift hemit habsolute hnear (origin.toNat + l.size)
  refine ⟨hmoved, bytes', ?_⟩
  rw [assemble, if_neg (not_not.mpr haligned), hmoved]
  refine (program_of_layout hmoved).trans (map_ok_iff.mpr ⟨bytes', hemit', ?_⟩)
  have horigin : UInt32.ofNat origin.toNat = origin := UInt32.ofNat_toNat
  simp only [Layout.shift, horigin]

end RegisterMachine
