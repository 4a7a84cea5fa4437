import RegisterMachine.Proofs.Assembly.BackPatching
import RegisterMachine.Proofs.Assembly.Placement
import RegisterMachine.Proofs.Assembly.Relocation

/-! The two passes agree on sizes.

The first pass keeps room for every item before anything is encoded. The second
pass writes each item into exactly that room: the number of words that it encodes
is the one that was counted (`length_words`), so the bytes of an item begin at its
address and the image has the size that was measured (`assemble_tiles`). -/
namespace RegisterMachine

/-! ### One item -/

/-- `LOADWORDI` becomes as many words as were counted for it. -/
theorem length_loadWordWords {c : Condition} {rd : Arg} {value : UInt32} {isLabel : Bool}
    {words : List UInt32} (h : loadWordWords c rd value isLabel = .ok words) :
    words.length = if isLabel = false ∧ value ≤ 0xFFFF then 1 else 2 := by
  by_cases hshort : isLabel = false ∧ value ≤ 0xFFFF
  · rw [loadWordWords, if_pos (by simpa using hshort)] at h
    obtain ⟨word, -, h⟩ := bind_ok_iff.mp h
    rw [← Except.ok.inj h, if_pos hshort]
    rfl
  · rw [loadWordWords, if_neg (by simpa using hshort)] at h
    obtain ⟨low, -, h⟩ := bind_ok_iff.mp h
    obtain ⟨high, -, h⟩ := bind_ok_iff.mp h
    rw [← Except.ok.inj h, if_neg hshort]
    rfl

/-- The value of a token is a label exactly if the first pass takes it for one. -/
theorem loadWordValue_ok {token : Token} {labels : LabelTable} {value : UInt32} {isLabel : Bool}
    (h : loadWordValue token labels = .ok (value, isLabel)) :
    if token.startsWith '@' then isLabel = true
    else isLabel = false ∧
      ∃ literal, Literal.parse token.text = .ok literal ∧ literal.bits = value := by
  by_cases hmark : token.startsWith '@' = true
  · rw [if_pos hmark]
    rw [loadWordValue, Token.reference?, if_pos hmark] at h
    obtain ⟨target, -, heq⟩ := map_ok_iff.mp h
    exact (Prod.mk.inj heq).2.symm
  · rw [if_neg hmark]
    rw [loadWordValue, Token.reference?, if_neg hmark] at h
    obtain ⟨literal, hparse, heq⟩ := map_ok_iff.mp h
    obtain ⟨hbits, hlabel⟩ := Prod.mk.inj heq
    exact ⟨hlabel.symm, literal, mapError_ok_iff.mp hparse, hbits⟩

section Words
variable {c : Condition} {name : String} {operands : List Token} {address : Nat}
  {labels : LabelTable} {words : List UInt32}

theorem Mnemonic.native_words {i : Instruction}
    (h : (Mnemonic.native i).words c name operands address labels = .ok words) :
    operands.length = i.operands.length ∧ ∃ args word,
      i.args address labels (i.operands.zip operands) = .ok args ∧ i.encode c args = .ok word ∧
        words = [word] := by
  by_cases hlength : operands.length = i.operands.length
  · have h := (if_neg (not_not.mpr hlength)).symm.trans h
    obtain ⟨args, hargs, h⟩ := bind_ok_iff.mp h
    obtain ⟨word, hword, h⟩ := bind_ok_iff.mp h
    exact ⟨hlength, args, word, hargs, mapError_ok_iff.mp hword, (Except.ok.inj h).symm⟩
  · exact absurd ((if_pos hlength).symm.trans h) (by simp)

theorem Mnemonic.loadWordI_words
    (h : Mnemonic.loadWordI.words c name operands address labels = .ok words) :
    ∃ first second rd value isLabel, operands = [first, second] ∧
      Instruction.loadHwordI.arg .dst first address labels = .ok rd ∧
      loadWordValue second labels = .ok (value, isLabel) ∧
      loadWordWords c rd value isLabel = .ok words := by
  match operands, h with
  | [first, second], h =>
    obtain ⟨rd, hrd, h⟩ := bind_ok_iff.mp h
    obtain ⟨⟨value, isLabel⟩, hvalue, h⟩ := bind_ok_iff.mp h
    exact ⟨first, second, rd, value, isLabel, rfl, hrd, hvalue, mapError_ok_iff.mp h⟩

/-- The words of an instruction statement are as many as the first pass counted. -/
theorem length_words {m : Mnemonic} {counted : Nat}
    (hwords : m.words c name operands address labels = .ok words)
    (hcounted : m.wordCount operands = .ok counted) : words.length = counted := by
  cases m with
  | native i =>
    obtain ⟨-, args, word, -, -, rfl⟩ := Mnemonic.native_words hwords
    exact Except.ok.inj hcounted
  | loadWordI =>
    obtain ⟨first, second, rd, value, isLabel, rfl, -, hvalue, hwords⟩ :=
      Mnemonic.loadWordI_words hwords
    have hlength := length_loadWordWords hwords
    have hvalue := loadWordValue_ok hvalue
    by_cases hmark : second.startsWith '@' = true
    · rw [if_pos hmark] at hvalue
      rw [hlength, if_neg (by simp [hvalue])]
      exact Except.ok.inj ((if_pos hmark).symm.trans hcounted)
    · rw [if_neg hmark] at hvalue
      obtain ⟨rfl, literal, hparse, rfl⟩ := hvalue
      obtain ⟨literal', hparse', rfl⟩ :=
        map_ok_iff.mp ((if_neg hmark).symm.trans hcounted)
      obtain rfl := Except.ok.inj (hparse.symm.trans hparse')
      rw [hlength]
      by_cases hshort : literal.bits ≤ 0xFFFF
      · rw [if_pos ⟨rfl, hshort⟩, if_pos hshort]
      · rw [if_neg (fun h => hshort h.2), if_neg hshort]

end Words

theorem length_flatMap_wordBytes (words : List UInt32) :
    (words.flatMap LittleEndian.wordBytes).length = 4 * words.length := by
  induction words with
  | nil => rfl
  | cons word rest ih =>
    rw [List.flatMap_cons, List.length_append, ih, LittleEndian.length_wordBytes, List.length_cons]
    omega

/-- An item fills exactly the room that is kept for it. -/
theorem Placed.WellSized.length_bytes {p : Placed} (h : p.WellSized) {labels : LabelTable}
    {stop : Nat} {others : List Placed} {bytes : List UInt8}
    (hbytes : p.bytes labels stop others = .ok bytes) : bytes.length = p.size := by
  obtain ⟨item, address, size, position⟩ := p
  cases item with
  | instruction m c name operands =>
    obtain ⟨counted, hcounted, hsize⟩ := h
    obtain ⟨words, hwords, rfl⟩ := map_ok_iff.mp hbytes
    rw [length_flatMap_wordBytes, length_words (mapError_ok_iff.mp hwords) hcounted]
    exact hsize.symm
  | data bytes' =>
    obtain rfl := Except.ok.inj hbytes
    exact h.1.symm
  | dataHead =>
    obtain rfl := Except.ok.inj hbytes
    rw [LittleEndian.length_wordBytes]
    exact h.symm
  | codeStart =>
    obtain rfl := Except.ok.inj hbytes
    exact h.symm

/-! ### All items -/

namespace Layout

variable {labels : LabelTable} {stop : Nat} {items front back : List Placed} {p : Placed}
  {bytes : List UInt8}

theorem length_emit (hsized : ∀ p ∈ items, p.WellSized) (h : emit labels stop items = .ok bytes) :
    bytes.length = (items.map Placed.size).sum := by
  induction items generalizing bytes with
  | nil =>
    obtain rfl := Except.ok.inj h
    rfl
  | cons p rest ih =>
    obtain ⟨own, hown, h⟩ := bind_ok_iff.mp h
    obtain ⟨others, hothers, h⟩ := bind_ok_iff.mp h
    obtain rfl := Except.ok.inj h
    rw [List.length_append, (hsized p List.mem_cons_self).length_bytes hown,
      ih (fun q hq => hsized q (List.mem_cons_of_mem _ hq)) hothers, List.map_cons, List.sum_cons]

/-- The bytes of an item stand behind those of the items in front of it. -/
theorem emit_at (hsized : ∀ p ∈ items, p.WellSized) (h : emit labels stop items = .ok bytes)
    (hitems : items = front ++ p :: back) :
    ∃ own, p.bytes labels stop back = .ok own ∧
      (bytes.drop (front.map Placed.size).sum).take p.size = own := by
  induction front generalizing items bytes with
  | nil =>
    subst hitems
    obtain ⟨own, hown, h⟩ := bind_ok_iff.mp h
    obtain ⟨others, -, h⟩ := bind_ok_iff.mp h
    obtain rfl := Except.ok.inj h
    refine ⟨own, hown, ?_⟩
    have hlength := (hsized p List.mem_cons_self).length_bytes hown
    rw [List.map_nil, List.sum_nil, List.drop_zero, ← hlength, List.take_left]
  | cons q front ih =>
    subst hitems
    obtain ⟨first, hfirst, h⟩ := bind_ok_iff.mp h
    obtain ⟨others, hothers, h⟩ := bind_ok_iff.mp h
    obtain rfl := Except.ok.inj h
    obtain ⟨own, hown, htake⟩ := ih (fun r hr => hsized r (List.mem_cons_of_mem _ hr)) hothers rfl
    refine ⟨own, hown, ?_⟩
    have hlength := (hsized q List.mem_cons_self).length_bytes hfirst
    rw [List.map_cons, List.sum_cons, ← hlength, List.drop_length_add_append]
    exact htake

end Layout

/-- The items of a layout stand one behind the other, each with its own size. -/
theorem Layout.tiles_of_statements {statements : List Statement} {origin : Nat} {l : Layout}
    (h : ofStatements origin statements = .ok l) :
    Tiles origin l.items (origin + l.size) ∧ ∀ q ∈ l.items, q.WellSized := by
  obtain ⟨s, htiled, rfl⟩ := (kept_tiled origin).ofStatements (tiled_start _) h
  have hstop := htiled.tiles.stop_eq
  have hend : origin + (s.address - origin) = s.address := by omega
  refine ⟨?_, fun q hq => htiled.wellSized q (List.mem_reverse.mp hq)⟩
  rw [hend]
  exact htiled.tiles

theorem Program.tiles_of_layout {source : String} {origin : UInt32} {l : Layout}
    (hlayout : layout source origin = .ok l) :
    Tiles origin.toNat l.items (origin.toNat + l.size) ∧ ∀ q ∈ l.items, q.WellSized := by
  obtain ⟨statements, -, hstatements⟩ := bind_ok_iff.mp hlayout
  exact Layout.tiles_of_statements hstatements

/-- The program of a layout consists of what its items become. -/
theorem Program.program_of_layout {source : String} {origin : UInt32} {l : Layout}
    (hlayout : layout source origin = .ok l) :
    l.program origin = (Layout.emit l.labels (origin.toNat + l.size) l.items).map fun bytes =>
      ⟨origin, origin, l.stackSize, bytes, l.labels⟩ := by
  obtain ⟨htiles, hsized⟩ := tiles_of_layout hlayout
  refine Layout.program_eq fun bytes hemit => ?_
  rw [Layout.length_emit hsized hemit]
  exact htiles.stop_eq.symm

/-- The parts of an assembled program: its layout, tiled by items of their own sizes. -/
theorem Program.assemble_ok {source : String} {origin : UInt32} {p : Program}
    (h : assemble source origin = .ok p) :
    ∃ l, layout source origin = .ok l ∧ origin.toNat % 4 = 0 ∧
      Layout.emit l.labels (origin.toNat + l.size) l.items = .ok p.bytes ∧
      p = ⟨origin, origin, l.stackSize, p.bytes, l.labels⟩ ∧
      Tiles origin.toNat l.items (origin.toNat + l.size) ∧ ∀ q ∈ l.items, q.WellSized := by
  by_cases haligned : origin.toNat % 4 = 0
  · have h := (if_neg (not_not.mpr haligned)).symm.trans h
    obtain ⟨l, hlayout, h⟩ := bind_ok_iff.mp h
    obtain ⟨bytes, hemit, rfl⟩ := map_ok_iff.mp ((program_of_layout hlayout).symm.trans h)
    exact ⟨l, hlayout, haligned, hemit, rfl, tiles_of_layout hlayout⟩
  · exact absurd ((if_pos haligned).symm.trans h) (by simp)

/-- The image has the size that was laid out, a whole number of words. -/
theorem Program.size_of_layout {source : String} {origin : UInt32} {p : Program} {l : Layout}
    (h : assemble source origin = .ok p) (hlayout : layout source origin = .ok l) :
    p.size = l.size ∧ l.size % 4 = 0 := by
  obtain ⟨l', hlayout', -, hemit, -, htiles, hsized⟩ := assemble_ok h
  obtain rfl := Except.ok.inj (hlayout'.symm.trans hlayout)
  have hlength : p.size = (l'.items.map Placed.size).sum := Layout.length_emit hsized hemit
  have hstop := htiles.stop_eq
  have hmod := sum_size_mod hsized
  omega

/-- An assembled program begins and is entered where it was assembled for, and its size is the
measured one, a whole number of words. -/
theorem Program.size_of_assemble {source : String} {origin : UInt32} {p : Program}
    (h : assemble source origin = .ok p) :
    p.origin = origin ∧ p.entry = origin ∧ measure source = .ok p.size ∧ p.size % 4 = 0 := by
  obtain ⟨l, hlayout, -, -, heq, -, -⟩ := assemble_ok h
  obtain ⟨hsize, hmod⟩ := size_of_layout h hlayout
  rw [hsize]
  exact ⟨by rw [heq], by rw [heq], measure_of_layout hlayout, hmod⟩

/-- The image holds the bytes of every item at the item's address. -/
theorem Program.emitted_at {source : String} {origin : UInt32} {p : Program} {l : Layout}
    {front back : List Placed} {item : Placed} (h : assemble source origin = .ok p)
    (hlayout : layout source origin = .ok l) (hitems : l.items = front ++ item :: back) :
    ∃ own, item.bytes l.labels (origin.toNat + l.size) back = .ok own ∧ own.length = item.size ∧
      (p.bytes.drop (item.address - origin.toNat)).take item.size = own := by
  obtain ⟨l', hlayout', -, hemit, -, htiles, hsized⟩ := assemble_ok h
  obtain rfl := Except.ok.inj (hlayout'.symm.trans hlayout)
  obtain ⟨own, hown, htake⟩ := Layout.emit_at hsized hemit hitems
  have hmem : item ∈ l'.items := hitems ▸ List.mem_append_right _ List.mem_cons_self
  have haddress : item.address - origin.toNat = (front.map Placed.size).sum := by
    rw [htiles.address_eq hitems]
    omega
  refine ⟨own, hown, (hsized item hmem).length_bytes hown, ?_⟩
  rw [haddress]
  exact htake

/-- **The passes agree.** The items of an assembled program tile its image, each with the bytes
that the second pass makes of it in the room that the first pass kept, and the image has the
measured size, a whole number of words. -/
theorem Program.assemble_tiles {source : String} {origin : UInt32} {p : Program}
    (h : assemble source origin = .ok p) :
    ∃ l, layout source origin = .ok l ∧ Tiles origin.toNat l.items (origin.toNat + l.size) ∧
      (∀ front item back, l.items = front ++ item :: back →
        ∃ own, item.bytes l.labels (origin.toNat + l.size) back = .ok own ∧
          own.length = item.size ∧
          (p.bytes.drop (item.address - origin.toNat)).take item.size = own) ∧
      p.bytes.length = l.size ∧ l.size % 4 = 0 ∧ measure source = .ok l.size := by
  obtain ⟨l, hlayout, -, -, -, htiles, -⟩ := assemble_ok h
  obtain ⟨hsize, hmod⟩ := size_of_layout h hlayout
  exact ⟨l, hlayout, htiles, fun front item back hitems => emitted_at h hlayout hitems, hsize, hmod,
    measure_of_layout hlayout⟩

theorem Program.assemble_tiles_reference :
    ∃ p l, assemble "loadwordi r1, @x; .data; int x 5;" 96 = .ok p ∧
      layout "loadwordi r1, @x; .data; int x 5;" 96 = .ok l ∧ p.bytes.length = l.size ∧
      measure "loadwordi r1, @x; .data; int x 5;" = .ok 16 := by
  have hlength : (assemble "loadwordi r1, @x; .data; int x 5;" 96).toOption.map
      (fun p => p.bytes.length) = some 16 := by decide +kernel
  obtain ⟨p, hp, hlength⟩ := Option.map_eq_some_iff.mp hlength
  have hassemble := ok_of_toOption hp
  obtain ⟨l, hlayout, -, -, hsize, -, hmeasure⟩ := assemble_tiles hassemble
  exact ⟨p, l, hassemble, hlayout, hsize, by rw [hmeasure, ← hsize, hlength]⟩

end RegisterMachine
