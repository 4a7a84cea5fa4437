import RegisterMachine.Proofs.Assembly.LabelOperand
import RegisterMachine.Proofs.Assembly.OperandToken
import RegisterMachine.Proofs.Instruction.Names
import RegisterMachine.Proofs.Instruction.RoundTrip

/-! What an assembled instruction reads back as.

The first pass settles what a name means (`named_of_ofName?`). The second pass makes one
argument of every operand token (`means_of_arg`) and checks its range before it is
encoded, so the bits that encoding cuts off are none (`Says.cutArgs_eq`). The word therefore
gives back what the statement says (`reads_of_words`), and the image holds it where the statement
is placed (`assemble_readsBack`). -/
namespace RegisterMachine

/-! ### Names -/

/-- A name as a program may write it, in letters of either case, for an instruction under a
condition; `CMPII` is a second name for `CMP`. -/
structure Instruction.Named (i : Instruction) (c : Condition) (name : String) : Prop where
  text : name.map Char.toUpper = i.mnemonic ++ c.suffix ∨
    i = .cmp ∧ name.map Char.toUpper = "CMPII" ++ c.suffix
  unconditional : i.isConditional = false → c = .always

theorem Mnemonic.exists_of_ofName? {name : String} {m : Mnemonic} {c : Condition}
    (h : ofName? name = some (m, c)) :
    ∃ text, (text, m) ∈ all ∧ c ∈ m.conditions ∧ name.map Char.toUpper = text ++ c.suffix := by
  obtain ⟨front, back, hnames, -⟩ := List.lookup_eq_some_iff.mp h
  have hmem : (name.map Char.toUpper, m, c) ∈ names := by
    rw [hnames]
    exact List.mem_append_right _ List.mem_cons_self
  obtain ⟨⟨text, m'⟩, hall, hmem⟩ := List.mem_flatMap.mp hmem
  obtain ⟨c', hc, heq⟩ := List.mem_map.mp hmem
  obtain ⟨htext, heq⟩ := Prod.mk.inj heq
  obtain ⟨rfl, rfl⟩ := Prod.mk.inj heq
  exact ⟨text, hall, hc, htext.symm⟩

theorem Instruction.named_of_ofName? {i : Instruction} {c : Condition} {name : String}
    (h : Mnemonic.ofName? name = some (.native i, c)) : i.Named c name := by
  obtain ⟨text, hall, hc, htext⟩ := Mnemonic.exists_of_ofName? h
  constructor
  · rcases List.mem_append.mp hall with hnative | hother
    · obtain ⟨j, -, heq⟩ := List.mem_map.mp hnative
      obtain ⟨hname, hnative⟩ := Prod.mk.inj heq
      obtain rfl := Mnemonic.native.inj hnative
      exact .inl (htext.trans (congrArg (· ++ c.suffix) hname.symm))
    · obtain ⟨rfl, rfl⟩ : text = "CMPII" ∧ i = .cmp := by simpa using hother
      exact .inr ⟨rfl, htext⟩
  · intro hconditional
    rw [Mnemonic.conditions, hconditional, if_neg (by decide)] at hc
    exact List.mem_singleton.mp hc

theorem kept_wellNamed : Kept fun s => ∀ p ∈ s.items, p.WellNamed where
  settings _ _ h _ := h
  bind name h hok := by
    obtain ⟨labels, -, rfl⟩ := LayoutState.bind_ok hok
    exact h
  place item size position h _ hnamed := by
    intro p hp
    rcases List.mem_cons.mp hp with rfl | hp
    · exact hnamed
    · exact h p hp

/-- A placed instruction is the one that its name means. -/
theorem Program.wellNamed_of_layout {source : String} {origin : UInt32} {l : Layout}
    (h : layout source origin = .ok l) : ∀ p ∈ l.items, p.WellNamed := by
  obtain ⟨statements, -, hstatements⟩ := bind_ok_iff.mp h
  have hstart : ∀ p ∈ (LayoutState.start origin.toNat).items, p.WellNamed :=
    fun _ hp => absurd hp List.not_mem_nil
  obtain ⟨s, hs, rfl⟩ := kept_wellNamed.ofStatements hstart hstatements
  exact fun p hp => hs p (List.mem_reverse.mp hp)

/-! ### Operands -/

/-- What a token says where an operand of this kind stands, in an instruction at this address. -/
inductive Instruction.Means (i : Instruction) (address : Nat) (labels : LabelTable)
    (kind : OperandKind) (token : Token) : Arg → Prop
  | register {mark : Char} {digits : List Char} {r : Reg} (hkind : kind.isRegister = true)
    (hplain : token.quoted = false) (htext : token.text.toList = mark :: digits)
    (hmark : mark = 'r' ∨ mark = 'R') (hnumber : Numeral.below? 256 digits = some r.number) :
    Means i address labels kind token (.operand (.register r))
  | zero (hkind : kind = .src) (hplain : token.quoted = false) (htext : token.text = "0") :
    Means i address labels kind token (.operand .zero)
  | literal {n : Int} {value : UInt32} (hkind : kind.isRegister = false)
    (hplain : token.quoted = false) (hreference : token.reference? = none)
    (hliteral : Literal.parseInt token.text = .ok n) (hlowest : -2 ^ (kind.width - 1) ≤ n)
    (hhighest : n ≤ 2 ^ kind.width - 1) (hvalue : (value.toNat : Int) = n % 2 ^ kind.width) :
    Means i address labels kind token (.immediate value)
  | label {name : String} {target value : UInt32} (hkind : kind.isRegister = false)
    (hreference : token.reference? = some name) (htarget : labels.lookup? name = some target)
    (hscaled : i.scaled? kind target.toNat address = some value.toNat)
    (hfits : value.toNat < 2 ^ kind.width) : Means i address labels kind token (.immediate value)

namespace Instruction

variable {i : Instruction} {kind : OperandKind} {token : Token} {address : Nat}
  {labels : LabelTable} {a : Arg} {c : Condition} {name : String}

/-- The argument that the second pass makes of a token is what the token says. -/
theorem means_of_arg (h : i.arg kind token address labels = .ok a) (hholds : kind.Holds a) :
    i.Means address labels kind token a := by
  unfold arg at h
  split at h
  · exact absurd h (by simp)
  · rename_i hquoted
    have hplain : token.quoted = false := by simpa using hquoted
    split at h
    · rename_i hkind
      split at h
      · rename_i htext
        obtain rfl := Except.ok.inj h
        exact .zero hholds hplain htext
      · obtain ⟨r, hr, rfl⟩ := map_ok_iff.mp h
        obtain ⟨mark, digits, hmark, htext, hnumber⟩ := Reg.parse_ok_iff.mp (mapError_ok_iff.mp hr)
        exact .register hkind hplain htext hmark hnumber
    · rename_i hkind
      have hkind : kind.isRegister = false := by simpa using hkind
      split at h
      · rename_i label hreference
        obtain ⟨target, htarget, h⟩ := bind_ok_iff.mp h
        obtain ⟨value, hvalue, rfl⟩ := map_ok_iff.mp h
        obtain ⟨n, hscaled, hfits, rfl⟩ := labelValue_ok hvalue
        exact .label hkind hreference (LabelTable.lookup?_of_resolve (mapError_ok_iff.mp htarget))
          hscaled hfits
      · rename_i hreference
        obtain ⟨value, hvalue, rfl⟩ := map_ok_iff.mp h
        have hwidth : kind.width ≤ 32 := by cases kind <;> decide
        obtain ⟨n, hn, hlowest, hhighest, heq⟩ :=
          (Literal.parseField_ok_iff hwidth).mp (mapError_ok_iff.mp hvalue)
        exact .literal hkind hplain hreference (Literal.parseInt_ok_iff.mpr hn) hlowest hhighest heq

/-- What a token says fits the field, so encoding cuts nothing off. -/
theorem Means.cut_eq (h : i.Means address labels kind token a) : kind.cut a = a := by
  cases h with
  | register | zero => rfl
  | @literal n _ hkind hplain hreference hliteral hlowest hhighest hvalue =>
    have hpositive : (0 : Int) < 2 ^ kind.width := by positivity
    have hlt := Int.emod_lt_of_pos n hpositive
    rw [← hvalue] at hlt
    exact congrArg Arg.immediate (OperandKind.and_mask_of_lt (by exact_mod_cast hlt))
  | label hkind hreference htarget hscaled hfits =>
    exact congrArg Arg.immediate (OperandKind.and_mask_of_lt hfits)

/-- The operand tokens say these arguments, each one its own. -/
structure Says (i : Instruction) (address : Nat) (labels : LabelTable) (operands : List Token)
    (args : List Arg) : Prop where
  arity : operands.length = i.operands.length
  count : args.length = operands.length
  means : ∀ {slot : Nat} {kind : OperandKind} {token : Token} {a : Arg},
    i.operands[slot]? = some kind → operands[slot]? = some token → args[slot]? = some a →
      i.Means address labels kind token a

variable {operands : List Token} {args : List Arg} {word : UInt32}

theorem says_of_args (harity : operands.length = i.operands.length)
    (h : i.args address labels (i.operands.zip operands) = .ok args) (haccepts : i.Accepts args) :
    i.Says address labels operands args := by
  refine ⟨harity, haccepts.count.trans harity.symm, ?_⟩
  intro slot kind token a hkind htoken ha
  obtain ⟨a', ha', harg⟩ := args_getElem? h (List.getElem?_zip_eq_some.mpr ⟨hkind, htoken⟩)
  obtain rfl := Option.some.inj (ha.symm.trans ha')
  exact means_of_arg harg (haccepts.holds hkind ha)

/-- Arguments that tokens say are read back whole. -/
theorem Says.cutArgs_eq (h : i.Says address labels operands args) : i.cutArgs args = args := by
  have hlength : args.length = i.operands.length := h.count.trans h.arity
  apply List.ext_getElem?
  intro slot
  rw [cutArgs, List.getElem?_zipWith]
  cases hkind : i.operands[slot]? with
  | none =>
    have hslot : i.operands.length ≤ slot := List.getElem?_eq_none_iff.mp hkind
    exact (List.getElem?_eq_none (hlength ▸ hslot)).symm
  | some kind =>
    have hslot : slot < i.operands.length := (List.getElem?_eq_some_iff.mp hkind).1
    obtain ⟨token, htoken⟩ : ∃ token, operands[slot]? = some token :=
      ⟨_, List.getElem?_eq_getElem (h.arity ▸ hslot)⟩
    obtain ⟨a, ha⟩ : ∃ a, args[slot]? = some a := ⟨_, List.getElem?_eq_getElem (hlength ▸ hslot)⟩
    rw [ha]
    exact congrArg some (h.means hkind htoken ha).cut_eq

/-! ### Words -/

/-- The word is decoded to the instruction, its condition and these arguments, but for `MEMSIZE` of
device 255: this is decoded as `UPTIME` of the register. -/
structure ReadsBack (i : Instruction) (c : Condition) (args : List Arg) (word : UInt32) : Prop where
  itself : ¬(i = .memSize ∧ args[1]? = some (.immediate 255)) →
    ∃ d, decode word = some d ∧ d.instruction = i ∧ d.condition = c ∧ d.args = args
  clock : i = .memSize ∧ args[1]? = some (.immediate 255) →
    ∃ d r, decode word = some d ∧ d.instruction = .uptime ∧ d.condition = c ∧
      args[0]? = some (.operand (.register r)) ∧ d.args = [.operand (.register r)]

/-- Of arguments that are read back whole only 255 is the number of the clock. -/
theorem isClock_iff (haccepts : i.Accepts args) (hcut : i.cutArgs args = args) :
    (∃ r, i.IsClock args r) ↔ i = .memSize ∧ args[1]? = some (.immediate 255) := by
  constructor
  · rintro ⟨r, rfl, value, rfl, hvalue⟩
    have hdevice : value &&& 0xFF = value :=
      Arg.immediate.inj (List.cons.inj (List.cons.inj hcut).2).1
    rw [← hdevice, hvalue]
    exact ⟨rfl, rfl⟩
  · rintro ⟨rfl, hdevice⟩
    have hkind : memSize.operands[0]? = some .dst := rfl
    match args, haccepts, haccepts.count, hdevice with
    | [first, second], haccepts, _, hdevice =>
      obtain rfl : second = .immediate 255 := Option.some.inj hdevice
      match first, haccepts.holds hkind rfl with
      | .operand (.register r), _ => exact ⟨r, rfl, 255, rfl, by decide⟩

theorem readsBack_of_encode (hword : i.encode c args = .ok word) (hread : i.readAs c = c)
    (hcut : i.cutArgs args = args) : i.ReadsBack c args word := by
  have haccepts := encode_ok_iff.mp ⟨word, hword⟩
  have hclock := isClock_iff haccepts hcut
  constructor
  · intro hplain
    have hencodes := encodes_of_ok hword
    have hdecode := decode_of_encodes hencodes (by
      rintro rfl huptime
      exact hplain (hclock.mp (isClock_of_uptime hencodes haccepts huptime)))
    rw [hread] at hdecode
    exact ⟨_, hdecode, rfl, rfl, (args_of_encodes hencodes haccepts c).trans hcut⟩
  · intro h
    obtain ⟨r, hr⟩ := hclock.mpr h
    rw [encode_of_isClock hr] at hword
    have hencodes := encodes_of_ok hword
    have hregister := args_of_encodes hencodes (encode_ok_iff.mp ⟨word, hword⟩) c
    obtain ⟨-, value, rfl, -⟩ := hr
    exact ⟨_, r, decode_of_encodes hencodes nofun, rfl, rfl, rfl, hregister⟩

theorem readAs_of_named (h : i.Named c name) : i.readAs c = c := by
  by_cases hconditional : i.isConditional = true
  · exact if_pos hconditional
  · rw [readAs, if_neg hconditional, h.unconditional (by simpa using hconditional)]

/-- The word of an instruction statement gives back what the statement says. -/
theorem reads_of_words {words : List UInt32}
    (h : (Mnemonic.native i).words c name operands address labels = .ok words)
    (hread : i.readAs c = c) :
    ∃ word args, words = [word] ∧ i.Says address labels operands args ∧
      i.ReadsBack c args word := by
  obtain ⟨harity, args, word, hargs, hword, rfl⟩ := Mnemonic.native_words h
  have hsaid := says_of_args harity hargs (encode_ok_iff.mp ⟨word, hword⟩)
  exact ⟨word, args, rfl, hsaid, readsBack_of_encode hword hread hsaid.cutArgs_eq⟩

end Instruction

/-- **Assembled statements are read back.** Of a program that assembles, every placed instruction
other than `LOADWORDI` is the one that its name means, and the word at its address is decoded to it
again, with its condition and with what its operand tokens say, nothing of them cut off. -/
theorem Program.assemble_readsBack {source name : String} {origin : UInt32} {p : Program}
    {l : Layout} {item : Placed} {i : Instruction} {c : Condition} {operands : List Token}
    (hassemble : assemble source origin = .ok p) (hlayout : layout source origin = .ok l)
    (hitem : item ∈ l.items) (hinstruction : item.item = .instruction (.native i) c name operands) :
    i.Named c name ∧ ∃ word args, i.Says item.address p.labels operands args ∧
      i.ReadsBack c args word ∧ origin.toNat ≤ item.address ∧
      (p.bytes.drop (item.address - origin.toNat)).take 4 = LittleEndian.wordBytes word := by
  have hnamed : i.Named c name := by
    have hname := wellNamed_of_layout hlayout item hitem
    rw [Placed.WellNamed, hinstruction] at hname
    exact Instruction.named_of_ofName? hname
  obtain ⟨front, back, hitems⟩ := List.append_of_mem hitem
  obtain ⟨own, hown, hlength, hloaded⟩ := emitted_at hassemble hlayout hitems
  obtain ⟨l', hlayout', -, -, hp, htiles, -⟩ := assemble_ok hassemble
  obtain rfl := Except.ok.inj (hlayout'.symm.trans hlayout)
  have haddress := htiles.address_eq hitems
  rw [Placed.bytes, hinstruction] at hown
  obtain ⟨words, hwords, rfl⟩ := map_ok_iff.mp hown
  obtain ⟨word, args, rfl, hsaid, hreads⟩ :=
    Instruction.reads_of_words (mapError_ok_iff.mp hwords) (Instruction.readAs_of_named hnamed)
  have hsize : item.size = 4 := by rw [← hlength]; rfl
  rw [hsize] at hloaded
  have hlabels : p.labels = l'.labels := by rw [hp]
  exact ⟨hnamed, word, args, hlabels ▸ hsaid, hreads, by omega, hloaded⟩

/-- A comparison by its second name, in letters of either case. -/
theorem Program.assemble_readsBack_compare :
    ∃ p word d, assemble "CmpIIgt r3, 0;" 96 = .ok p ∧ p.bytes = LittleEndian.wordBytes word ∧
      decode word = some d ∧ d.instruction = .cmp ∧ d.condition = .greater ∧
      d.args[1]? = some (.operand .zero) := by
  have hprogram : (assemble "CmpIIgt r3, 0;" 96).toOption.map (fun p => p.bytes.length) =
      some 4 := by decide +kernel
  obtain ⟨p, hp, hlength⟩ := Option.map_eq_some_iff.mp hprogram
  let item : Placed := ⟨.instruction (.native .cmp) .greater "CmpIIgt"
    [⟨"r3", ⟨1, 9⟩, false⟩, ⟨"0", ⟨1, 13⟩, false⟩], 96, 4, ⟨1, 1⟩⟩
  have hitems : (layout "CmpIIgt r3, 0;" 96).toOption.map (fun l => l.items.head?) =
      some (some item) := by decide +kernel
  obtain ⟨l, hl, hitem⟩ := Option.map_eq_some_iff.mp hitems
  obtain ⟨-, word, args, hsaid, hreads, -, hword⟩ := assemble_readsBack (ok_of_toOption hp)
    (ok_of_toOption hl) (List.mem_of_mem_head? hitem) rfl
  have hbytes : p.bytes = LittleEndian.wordBytes word := by
    rw [← hword]
    exact (List.take_of_length_le hlength.le).symm
  obtain ⟨d, hd, hinstruction, hcondition, rfl⟩ := hreads.itself nofun
  obtain ⟨a, ha⟩ : ∃ a, d.args[1]? = some a :=
    ⟨_, List.getElem?_eq_getElem (by rw [hsaid.count]; decide)⟩
  have hkind : Instruction.cmp.operands[1]? = some .src := rfl
  have hzero : a = .operand .zero := by
    cases hsaid.means hkind rfl ha with
    | zero => rfl
    | register _ _ htext hmark =>
      have hdigit : "0".toList = ['0'] := rfl
      obtain ⟨rfl, -⟩ := List.cons.inj (hdigit.symm.trans htext)
      exact absurd hmark (by decide)
    | label hregister | literal hregister => exact absurd hregister (by decide)
  exact ⟨p, word, d, ok_of_toOption hp, hbytes, hd, hinstruction, hcondition, hzero ▸ ha⟩

end RegisterMachine
