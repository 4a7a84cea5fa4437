import RegisterMachine.Proofs.Assembly.Outline

/-! The jump at the head of a data section.

Data stands in the way of the code around it, so a `.data` header becomes a jump to the next code,
or to the end of the program if no code follows (`Layout.PastData`). The word is always that jump,
but its target is cut to the 22 bits of its field without a check (`jumps_past_data`): a label that
far away would be refused in any other jump. -/
namespace RegisterMachine

/-! ### The word -/

theorem encode_jumpWord (target : Nat) : Instruction.jmp.encode .always
    [.immediate (UInt32.ofNat (target / 4))] = .ok (jumpWord target) := by
  have hcondition : Instruction.jmp.conditionBits .always = 0 := by decide
  show Except.ok (Instruction.jmp.selector.value ||| Instruction.jmp.conditionBits .always |||
    (UInt32.ofNat (target / 4) &&& OperandKind.off22.mask ||| 0)) = _
  rw [hcondition, UInt32.or_zero, UInt32.or_zero, jumpWord]

theorem decode_jumpWord (target : Nat) :
    decode (jumpWord target) = some ⟨.jmp, .always, jumpWord target⟩ :=
  Instruction.decode_of_encodes (Instruction.encodes_of_ok (encode_jumpWord target)) nofun

/-- The jump goes to its target, cut to the width of its field. -/
theorem imm_jumpWord (target : Nat) :
    (Decoded.mk .jmp .always (jumpWord target)).imm.toNat = target / 4 % 2 ^ 22 := by
  have hencodes := Instruction.encodes_of_ok (encode_jumpWord target)
  have hkind : Instruction.jmp.operands[0]? = some .off22 := rfl
  rw [Instruction.imm_of_encodes hencodes hkind rfl, OperandKind.toNat_and_mask,
    UInt32.toNat_ofNat']
  exact Nat.mod_mod_of_dvd _ ⟨2 ^ 10, rfl⟩

/-! ### The next code -/

/-- A code section begins exactly where a code header stands. -/
theorem StandsFor.codeStart_iff {q : Section × Statement} {p : Placed} (h : StandsFor q p) :
    p.item = .codeStart ↔ q.2.header? = some "code" := by
  obtain ⟨current, st⟩ := q
  obtain ⟨item, address, size, position⟩ := p
  obtain ⟨hbecomes, -⟩ := h
  cases hbecomes with
  | dataHead hheader => simp_all
  | codeStart hheader => simp_all
  | body hheader _ hmeans => cases hmeans <;> simp_all

theorem StandsFor.dataHead_of_header {q : Section × Statement} {p : Placed} (h : StandsFor q p)
    (hheader : q.2.header? = some "data") : p.item = .dataHead := by
  obtain ⟨current, st⟩ := q
  obtain ⟨item, address, size, position⟩ := p
  obtain ⟨hbecomes, -⟩ := h
  cases hbecomes <;> simp_all

namespace Layout

variable {stop : Nat} {items others : List Placed} {front between back : List Statement}

/-- Without a code header among them, no code begins in these items. -/
theorem nextCode_of_stands {current : Section}
    (h : List.Forall₂ StandsFor (placing current between) items)
    (hnone : ∀ st ∈ between, st.header? ≠ some "code") :
    nextCode stop (items ++ others) = nextCode stop others := by
  induction between generalizing current items with
  | nil =>
    cases h
    rfl
  | cons st rest ih =>
    have hrest : ∀ st ∈ rest, st.header? ≠ some "code" := fun st hst =>
      hnone st (List.mem_cons_of_mem _ hst)
    rw [placing] at h
    split at h
    · cases h with
      | cons hstands h =>
        have hitem := fun hitem => hnone st List.mem_cons_self (hstands.codeStart_iff.mp hitem)
        rw [List.cons_append, nextCode, if_neg hitem]
        exact ih h hrest
    · exact ih h hrest

theorem nextCode_mod (hstop : stop % 4 = 0) (hitems : ∀ p ∈ items, p.address % 4 = 0) :
    nextCode stop items % 4 = 0 := by
  induction items with
  | nil => exact hstop
  | cons p rest ih =>
    rw [nextCode]
    split
    · exact hitems p List.mem_cons_self
    · exact ih fun q hq => hitems q (List.mem_cons_of_mem _ hq)

/-- Behind the statements of `front`, with those of `back` to come: the address of the next code
header, or where the program stops if there is none. -/
structure PastData (l : Layout) (origin : Nat) (front back : List Statement) (target : Nat) :
    Prop where
  code : ∀ between code rest, back = between ++ code :: rest →
    (∀ st ∈ between, st.header? ≠ some "code") → code.header? = some "code" →
      target = l.addressBehind origin (front ++ between)
  stop : (∀ st ∈ back, st.header? ≠ some "code") → target = origin + l.size

end Layout

/-- What is placed for statements in two parts is in two parts. -/
theorem exists_of_stands_append {current : Section} {front back : List Statement}
    {items : List Placed} (h : List.Forall₂ StandsFor (placing current (front ++ back)) items) :
    ∃ before after, items = before ++ after ∧
      List.Forall₂ StandsFor (placing current front) before ∧
        List.Forall₂ StandsFor (placing (front.foldl Section.after current) back) after := by
  rw [placing_append] at h
  have hbefore := List.forall₂_take (placing current front).length h
  have hafter := List.forall₂_drop (placing current front).length h
  rw [List.take_left] at hbefore
  rw [List.drop_left] at hafter
  exact ⟨_, _, (List.take_append_drop _ items).symm, hbefore, hafter⟩

namespace Program

variable {source : String} {origin : UInt32} {p : Program} {l : Layout}
  {front back : List Statement} {head : Statement}

theorem places_of_header {current : Section} {st : Statement}
    (h : st.header? = some "data" ∨ st.header? = some "code") : st.places current = true := by
  rcases h with h | h <;> simp [Statement.places, h]

/-- The first code among the items to come is where the next code header stands. -/
theorem Parts.pastData {s : LayoutState} {before after : List Placed}
    (h : Parts origin l front back s before after) :
    l.PastData origin.toNat front back (Layout.nextCode (origin.toNat + l.size) after) := by
  constructor
  · rintro between code rest rfl hnone hcode
    obtain ⟨items, others, rfl, hitems, hothers⟩ := exists_of_stands_append h.back_stands
    rw [placing, if_pos (places_of_header (.inr hcode))] at hothers
    cases hothers with
    | @cons _ c _ more hc _ =>
      have hnumber : (placing .code (front ++ between)).length = before.length + items.length := by
        have hlength : (placing (front.foldl Section.after .code) between).length = items.length :=
          hitems.length_eq
        rw [placing_append, List.length_append, h.front_stands.length_eq, hlength]
      have hget : (before ++ (items ++ c :: more))[before.length + items.length]? = some c := by
        rw [← List.append_assoc, ← List.length_append, List.getElem?_append_right (Nat.le_refl _),
          Nat.sub_self]
        rfl
      rw [Layout.nextCode_of_stands hitems hnone, Layout.nextCode,
        if_pos (hc.codeStart_iff.mpr hcode), Layout.addressBehind, hnumber, h.items, hget]
      rfl
  · intro hnone
    have hskip : Layout.nextCode (origin.toNat + l.size) (after ++ []) = origin.toNat + l.size :=
      Layout.nextCode_of_stands h.back_stands hnone
    rw [List.append_nil] at hskip
    exact hskip

/-- A data header has its item. -/
theorem Parts.exists_head {s : LayoutState} {before after : List Placed}
    (h : Parts origin l (front ++ [head]) back s before after)
    (hhead : head.header? = some "data") : ∃ earlier placed, before = earlier ++ [placed] ∧
      earlier.length = (placing .code front).length ∧ placed.item = .dataHead ∧
        placed.position = head.first.position := by
  obtain ⟨earlier, last, rfl, hearlier, hlast⟩ := exists_of_stands_append h.front_stands
  rw [placing, if_pos (places_of_header (.inl hhead))] at hlast
  cases hlast with
  | cons hplaced hnone =>
    cases hnone
    exact ⟨earlier, _, rfl, hearlier.length_eq.symm, hplaced.dataHead_of_header hhead,
      hplaced.position⟩

/-- **Data heads jump past the data.** In an assembled text the word at a `.data` header is an
unconditional jump, and its target is the address of the next code header or the end of the program,
divided by four and cut to 22 bits. So it goes there exactly if that address is below `2 ^ 24`. -/
theorem jumps_past_data (h : assemble source origin = .ok p)
    (htokens : tokenize source = .ok (front ++ head :: back))
    (hhead : head.header? = some "data") :
    ∃ l placed target word, layout source origin = .ok l ∧
      l.items[(placing .code front).length]? = some placed ∧ placed.item = .dataHead ∧
      placed.position = head.first.position ∧
      (p.bytes.drop (placed.address - origin.toNat)).take 4 = LittleEndian.wordBytes word ∧
      decode word = some ⟨.jmp, .always, word⟩ ∧
      l.PastData origin.toNat (front ++ [head]) back target ∧ origin.toNat + l.size = p.stop ∧
      (Decoded.mk .jmp .always word).imm.toNat = target / 4 % 2 ^ 22 ∧
      ((Decoded.mk .jmp .always word).imm.toNat * 4 = target ↔ target < 2 ^ 24) := by
  obtain ⟨l, hlayout, haligned, -, hp, htiles, hsized⟩ := assemble_ok h
  rw [← List.concat_append, List.concat_eq_append] at htokens
  obtain ⟨s, before, after, hparts⟩ := parts_of_layout htokens hlayout
  obtain ⟨earlier, placed, rfl, hnumber, hitem, hposition⟩ := hparts.exists_head hhead
  have hitems : l.items = earlier ++ placed :: after := by
    rw [hparts.items, List.append_assoc, List.singleton_append]
  obtain ⟨hsize, hmod⟩ := size_of_layout h hlayout
  have hstop : origin.toNat + l.size = p.stop := by
    rw [Program.stop, (size_of_assemble h).1, hsize]
  have htarget : Layout.nextCode (origin.toNat + l.size) after % 4 = 0 := by
    refine Layout.nextCode_mod (by omega) fun q hq => ?_
    obtain ⟨nearer, further, hafter⟩ := List.append_of_mem hq
    have hsplit : l.items = (earlier ++ placed :: nearer) ++ q :: further := by
      rw [hitems, hafter, List.append_assoc, List.cons_append]
    exact htiles.address_mod hsized haligned hsplit
  obtain ⟨own, hown, hlength, htake⟩ := emitted_at h hlayout hitems
  have hword : own =
      LittleEndian.wordBytes (jumpWord (Layout.nextCode (origin.toNat + l.size) after)) := by
    simp only [Placed.bytes, hitem] at hown
    exact (Except.ok.inj hown).symm
  have hfour : placed.size = 4 := by
    rw [← hlength, hword, LittleEndian.length_wordBytes]
  rw [hfour, hword] at htake
  refine ⟨l, placed, _, _, hlayout, ?_, hitem, hposition, htake, decode_jumpWord _, hparts.pastData,
    hstop, imm_jumpWord _, ?_⟩
  · rw [hitems, ← hnumber, List.getElem?_append_right (Nat.le_refl _), Nat.sub_self]
    rfl
  · rw [imm_jumpWord]
    omega

/-- One word of data at the start of a program is jumped over. -/
theorem jumps_past_data_near : ∃ p word, assemble ".data; int x 1; .code; halt;" 96 = .ok p ∧
    p.bytes.take 4 = LittleEndian.wordBytes word ∧
      decode word = some ⟨.jmp, .always, word⟩ ∧
      (Decoded.mk .jmp .always word).imm.toNat * 4 = 104 := by
  let head : Statement := ⟨⟨".data", ⟨1, 1⟩, false⟩, []⟩
  let int : Statement := ⟨⟨"int", ⟨1, 8⟩, false⟩, [⟨"x", ⟨1, 12⟩, false⟩, ⟨"1", ⟨1, 14⟩, false⟩]⟩
  let code : Statement := ⟨⟨".code", ⟨1, 17⟩, false⟩, []⟩
  let halt : Statement := ⟨⟨"halt", ⟨1, 24⟩, false⟩, []⟩
  have htokens : tokenize ".data; int x 1; .code; halt;" =
      .ok ([] ++ head :: ([int] ++ code :: [halt])) := by decide +kernel
  have hassembled :
      (assemble ".data; int x 1; .code; halt;" 96).toOption.isSome = true := by decide +kernel
  obtain ⟨p, hp⟩ := Option.isSome_iff_exists.mp hassembled
  have hassemble := ok_of_toOption hp
  obtain ⟨l, placed, target, word, hlayout, hplaced, -, -, hbytes, hdecode, hpast, -, -, himm⟩ :=
    jumps_past_data hassemble htokens (by decide +kernel)
  have hplaces : (layout ".data; int x 1; .code; halt;" 96).toOption.map (fun l =>
      (l.items[0]?.map Placed.address, l.addressBehind 96 [head, int])) =
        some (some 96, 104) := by decide +kernel
  rw [hlayout, toOption_ok, Option.map_some, Option.some.injEq, Prod.mk.injEq] at hplaces
  have hcode : (∀ st ∈ [int], st.header? ≠ some "code") ∧ code.header? = some "code" := by
    decide +kernel
  have htarget : target = 104 :=
    (hpast.code [int] code [halt] rfl hcode.1 hcode.2).trans hplaces.2
  have haddress : placed.address = 96 := by
    rw [show l.items[0]? = some placed from hplaced] at hplaces
    exact Option.some.inj hplaces.1
  rw [haddress] at hbytes
  refine ⟨p, word, hassemble, hbytes, hdecode, ?_⟩
  rw [← htarget]
  exact himm.mpr (by rw [htarget]; decide)

/-- From `2 ^ 24` on the jump of a data header goes elsewhere, where a label is refused. -/
theorem far_head_is_cut :
    (layout ".data; int x 1; .code; halt;" 0x1000000).toOption.map
        (fun l => l.items.map fun p => (p.item, p.address)) = some
          [(.dataHead, 0x1000000), (.data [1, 0, 0, 0], 0x1000004), (.codeStart, 0x1000008),
            (.instruction (.native .halt) .always "halt" [], 0x1000008)] ∧
      (assemble ".data; int x 1; .code; halt;" 0x1000000).toOption.map
        (fun p => p.words.head?.bind decode |>.map fun d => (d.instruction, d.imm.toNat * 4)) =
          some (some (.jmp, 8)) ∧
      assemble "jmp @l; :l; halt;" 0x1000000 =
        .error (.statement ⟨1, 1⟩ (.operand (.outOfRange "@l" 22))) := by
  decide +kernel

end Program

end RegisterMachine
