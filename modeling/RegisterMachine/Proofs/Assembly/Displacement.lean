import RegisterMachine.Proofs.Assembly.Movable
import RegisterMachine.Proofs.Number.LittleEndian

/-! One source text at two places.

A layout from an address on is the layout from zero, moved there (`ofStatements_shift`),
so the first pass and the measured size do not depend on the place. Of the second pass
only some items do (`Item.Moves`): the jump of a data head, and an instruction that
names a label, unless it counts the distance to the label. Every other item has the
bytes that it has from address zero (`bytes_unmoved`), and so the words in which the
images differ belong to the items that move (`assemble_displaced`). -/
namespace RegisterMachine

/-- The bytes of the item depend on where the program stands. -/
def Item.Moves : Item → Prop
  | .instruction m _ _ operands =>
    (∃ token ∈ operands, token.startsWith '@' = true) ∧ m ≠ .native .jfw ∧ m ≠ .native .jbw
  | .dataHead => True
  | .data _ | .codeStart => False

/-- All labels stay below `2 ^ 32` when they are moved by a distance. -/
def LabelTable.Fits (t : LabelTable) (k : Nat) : Prop :=
  ∀ name target, t.find? name = some target → target.toNat + k < 2 ^ 32

variable {i : Instruction} {kind : OperandKind} {token : Token} {address k : Nat}
  {labels : LabelTable} {c : Condition} {name : String} {operands : List Token}

/-! ### Labels -/

namespace LabelTable

theorem find?_shift (k : UInt32) (t : LabelTable) (name : String) :
    (t.shift k).find? name = (t.find? name).map (· + k) :=
  lookup_map_shift k name t.entries

theorem names_shift (k : UInt32) (t : LabelTable) :
    (t.shift k).entries.map Prod.fst = t.entries.map Prod.fst := by
  simp [shift]

theorem Fits.toNat_add (h : labels.Fits k) {target : UInt32}
    (hfind : labels.find? name = some target) :
    (target + UInt32.ofNat k).toNat = target.toNat + k := by
  have hlt := h name target hfind
  rw [UInt32.toNat_add, UInt32.toNat_ofNat']
  omega

/-- Moved labels are resolved to moved addresses, and the same labels are not bound. -/
theorem resolve_shift (k : UInt32) (t : LabelTable) (name : String) :
    (t.shift k).resolve name = (t.resolve name).map (· + k) := by
  rw [resolve, resolve, lookup?_shift]
  cases t.lookup? name <;> rfl

end LabelTable

/-- Every label stands at an address that has been laid out. -/
def LayoutState.Labelled (s : LayoutState) : Prop :=
  ∀ name target, s.labels.find? name = some target →
    ∃ n, n ≤ s.address ∧ target = UInt32.ofNat n

theorem kept_labelled : Kept LayoutState.Labelled where
  settings _ _ h _ := h
  bind {s s'} label h hok := by
    obtain ⟨labels, hdefine, rfl⟩ := LayoutState.bind_ok hok
    obtain rfl := LabelTable.define_ok hdefine
    intro name target hfind
    rw [LabelTable.find?_insert] at hfind
    split at hfind
    · exact ⟨s.address, Nat.le_refl _, (Option.some.inj hfind).symm⟩
    · exact h name target hfind
  place item size position h _ _ := by
    intro name target hfind
    obtain ⟨n, hn, rfl⟩ := h name target hfind
    exact ⟨n, Nat.le_add_right_of_le hn, rfl⟩

/-- The labels of a layout from zero stand inside of it or at its end. -/
theorem Layout.fits_of_size {statements : List Statement} {base : Layout}
    (hbase : ofStatements 0 statements = .ok base) (hsize : base.size + k < 2 ^ 32) :
    base.labels.Fits k := by
  have hstart : (LayoutState.start 0).Labelled := by
    intro name target hfind
    exact absurd hfind (by simp [LayoutState.start, LabelTable.find?, LabelTable.empty])
  obtain ⟨s, hs, rfl⟩ := kept_labelled.ofStatements hstart hbase
  intro name target hfind
  obtain ⟨n, hn, rfl⟩ := hs name target hfind
  have hsize : s.address - 0 + k < 2 ^ 32 := hsize
  rw [UInt32.toNat_ofNat', Nat.mod_eq_of_lt (by omega)]
  omega

/-! ### One instruction -/

namespace Instruction

/-- A distance between a label and an instruction stays the same when both are moved. -/
theorem labelValue_add (hrelative : i = .jfw ∨ i = .jbw) (kind : OperandKind) (name : String)
    (target address k : Nat) :
    i.labelValue kind name (target + k) (address + k) = i.labelValue kind name target address := by
  have hscaled : i.scaled? kind (target + k) (address + k) = i.scaled? kind target address := by
    rcases hrelative with rfl | rfl
    · have hle : address + k + 4 ≤ target + k ↔ address + 4 ≤ target := by omega
      have hdistance : target + k - (address + k + 4) = target - (address + 4) := by omega
      simp only [scaled?, hle, hdistance]
    · have hle : target + k ≤ address + k + 4 ↔ target ≤ address + 4 := by omega
      have hdistance : address + k + 4 - (target + k) = address + 4 - target := by omega
      simp only [scaled?, hle, hdistance]
  rw [labelValue, labelValue, hscaled]

/-- A relative jump takes the same argument at any address. -/
theorem arg_of_relative (hrelative : i = .jfw ∨ i = .jbw) (hfits : labels.Fits k)
    (kind : OperandKind) (token : Token) (address : Nat) :
    i.arg kind token (address + k) (labels.shift (UInt32.ofNat k)) =
      i.arg kind token address labels := by
  cases hreference : token.reference? with
  | none => exact arg_of_no_reference hreference _ _
  | some label =>
    unfold arg
    rw [hreference]
    dsimp only
    rw [LabelTable.resolve_shift]
    cases hresolve : labels.resolve label with
    | error e => rfl
    | ok target =>
      have htarget := hfits.toNat_add (LabelTable.lookup?_of_resolve hresolve)
      have hvalue := labelValue_add hrelative kind label target.toNat address k
      rw [← htarget] at hvalue
      show ite _ _ (ite _ _ ((i.labelValue kind label (target + UInt32.ofNat k).toNat
        (address + k)).map _)) = _
      rw [hvalue]
      rfl

theorem args_congr {address' : Nat} {labels' : LabelTable}
    {operands : List (OperandKind × Token)}
    (h : ∀ o ∈ operands, i.arg o.1 o.2 address' labels' = i.arg o.1 o.2 address labels) :
    i.args address' labels' operands = i.args address labels operands := by
  induction operands with
  | nil => rfl
  | cons o rest ih =>
    rw [args, args, h o List.mem_cons_self, ih fun o' ho' => h o' (List.mem_cons_of_mem _ ho')]

end Instruction

theorem Mnemonic.native_words_congr {address' : Nat} {labels' : LabelTable}
    (h : ∀ kind, ∀ token ∈ operands,
      i.arg kind token address' labels' = i.arg kind token address labels) :
    (Mnemonic.native i).words c name operands address' labels' =
      (Mnemonic.native i).words c name operands address labels := by
  have hargs : i.args address' labels' (i.operands.zip operands) =
      i.args address labels (i.operands.zip operands) :=
    Instruction.args_congr fun o ho => h o.1 o.2 (List.of_mem_zip ho).2
  simp only [words, hargs]

theorem Mnemonic.loadWordI_words_congr (h : ∀ token ∈ operands, token.reference? = none)
    (address' : Nat) (labels' : LabelTable) :
    loadWordI.words c name operands address' labels' =
      loadWordI.words c name operands address labels := by
  match operands with
  | [] | [_] | _ :: _ :: _ :: _ => rfl
  | [rd, value] =>
    have hvalue : loadWordValue value labels' = loadWordValue value labels := by
      rw [loadWordValue, loadWordValue, h value (by simp)]
    have hrd : Instruction.loadHwordI.arg .dst rd address' labels' =
        Instruction.loadHwordI.arg .dst rd address labels :=
      Instruction.arg_of_isRegister rfl _ _
    simp only [words, hvalue, hrd]

/-! ### One item -/

/-- An item that does not move has the bytes that it has in the layout from zero. -/
theorem Placed.bytes_unmoved {p : Placed} (hstays : ¬p.item.Moves) (hfits : labels.Fits k)
    (stop stop' : Nat) (others others' : List Placed) :
    (p.shift k).bytes (labels.shift (UInt32.ofNat k)) stop' others' =
      p.bytes labels stop others := by
  obtain ⟨item, address, size, position⟩ := p
  cases item with
  | data _ | codeStart => rfl
  | dataHead => exact absurd trivial hstays
  | instruction m c name operands =>
    have hwords : m.words c name operands (address + k) (labels.shift (UInt32.ofNat k)) =
        m.words c name operands address labels := by
      by_cases hrelative : m = .native .jfw ∨ m = .native .jbw
      · obtain ⟨i, rfl, hi⟩ : ∃ i, m = .native i ∧ (i = .jfw ∨ i = .jbw) := by
          rcases hrelative with rfl | rfl <;> exact ⟨_, rfl, by decide⟩
        exact Mnemonic.native_words_congr fun kind token _ =>
          Instruction.arg_of_relative hi hfits kind token address
      · have hplain : ∀ token ∈ operands, token.reference? = none := by
          intro token htoken
          refine if_neg fun hmark => hstays ⟨⟨token, htoken, hmark⟩, ?_⟩
          exact not_or.mp hrelative
        cases m with
        | native i =>
          exact Mnemonic.native_words_congr fun kind token htoken =>
            Instruction.arg_of_no_reference (hplain token htoken) _ _
        | loadWordI => exact Mnemonic.loadWordI_words_congr hplain _ _
    simp only [Placed.bytes, Placed.shift, hwords]

/-! ### Whole programs -/

namespace Program

/-- A program of this layout and one of the same source text, from one origin and another. -/
structure Displaced (l : Layout) (origin origin' : UInt32) (p p' : Program) : Prop where
  size : p'.size = p.size
  stackSize : p'.stackSize = p.stackSize
  names : p'.labels.entries.map Prod.fst = p.labels.entries.map Prod.fst
  labels : ∀ name address, p.labels.find? name = some address →
    ∃ address', p'.labels.find? name = some address' ∧
      address'.toNat + origin.toNat = address.toNat + origin'.toNat
  words : ∀ k : Nat, p'.words[k]? ≠ p.words[k]? →
    ∃ q ∈ l.items, q.item.Moves ∧ q.address ≤ origin.toNat + 4 * k ∧
      origin.toNat + 4 * k < q.address + q.size

theorem layout_shift (source : String) (origin : UInt32) :
    (layout source origin).toOption =
      (layout source 0).toOption.map (Layout.shift origin.toNat) := by
  rw [layout, layout, toOption_bind, toOption_bind]
  cases (tokenize source).toOption with
  | none => rfl
  | some statements => exact Layout.ofStatements_shift origin.toNat statements

/-- A first pass that succeeds somewhere succeeds anywhere, and the layout is the one from zero. -/
theorem exists_base {source : String} {origin : UInt32} {l : Layout}
    (h : layout source origin = .ok l) :
    ∃ base, layout source 0 = .ok base ∧ l = base.shift origin.toNat ∧
      ∀ origin', layout source origin' = .ok (base.shift origin'.toNat) := by
  have hshift := layout_shift source origin
  rw [h] at hshift
  obtain ⟨base, hbase, rfl⟩ := Option.map_eq_some_iff.mp hshift.symm
  refine ⟨base, ok_of_toOption hbase, rfl, fun origin' => ok_of_toOption ?_⟩
  rw [layout_shift, hbase]
  rfl

theorem layout_size_iff (source : String) (origin origin' : UInt32) (n : Nat) :
    (∃ l, layout source origin = .ok l ∧ l.size = n) ↔
      ∃ l, layout source origin' = .ok l ∧ l.size = n := by
  have hmoves : ∀ o o' : UInt32, (∃ l, layout source o = .ok l ∧ l.size = n) →
      ∃ l, layout source o' = .ok l ∧ l.size = n := by
    rintro o o' ⟨l, hlayout, hsize⟩
    obtain ⟨base, -, rfl, hmoved⟩ := exists_base hlayout
    exact ⟨_, hmoved o', hsize⟩
  exact ⟨hmoves origin origin', hmoves origin' origin⟩

theorem measure_ok_iff {source : String} (origin : UInt32) {n : Nat} :
    measure source = .ok n ↔ ∃ l, layout source origin = .ok l ∧ l.size = n :=
  map_ok_iff.trans (layout_size_iff source programStart origin n)

/-- What a program has of its layout, by the layout from zero. -/
theorem parts_of_base {source : String} {origin : UInt32} {p : Program} {base : Layout}
    (hp : assemble source origin = .ok p)
    (hlayout : layout source origin = .ok (base.shift origin.toNat)) :
    p.size = base.size ∧ p.stackSize = base.stackSize ∧
      p.labels = base.labels.shift (UInt32.ofNat origin.toNat) := by
  obtain ⟨l, hl, -, -, hprogram, -, -⟩ := assemble_ok hp
  obtain rfl := Except.ok.inj (hl.symm.trans hlayout)
  have hmeasure := (measure_ok_iff origin).mpr ⟨_, hlayout, rfl⟩
  refine ⟨Except.ok.inj ((size_of_assemble hp).2.2.1.symm.trans hmeasure), ?_, ?_⟩
  · rw [hprogram]
    rfl
  · rw [hprogram]
    rfl

/-- The words of a program are those of its items. -/
theorem words_of_item {p : Program} {own : List UInt8} {start size k : Nat}
    (hown : (p.bytes.drop start).take size = own) (hstart : start ≤ 4 * k)
    (hstop : 4 * k + 4 ≤ start + size) :
    p.words[k]? = (LittleEndian.words ((own.drop (4 * k - start)).take 4)).head? := by
  have hroom : min 4 (size - (4 * k - start)) = 4 := by omega
  have hplace : start + (4 * k - start) = 4 * k := by omega
  rw [words, LittleEndian.getElem?_words, ← hown, List.drop_take, List.take_take, hroom,
    List.drop_drop, hplace]

/-- The image of a program holds the bytes from zero of each item that does not move. -/
theorem slice_of_unmoved {source : String} {origin : UInt32} {p : Program} {base : Layout}
    {front back : List Placed} {q : Placed} (hp : assemble source origin = .ok p)
    (hlayout : layout source origin = .ok (base.shift origin.toNat))
    (hitems : base.items = front ++ q :: back) (hstays : ¬q.item.Moves)
    (hfits : base.labels.Fits origin.toNat) :
    q.bytes base.labels 0 [] = .ok ((p.bytes.drop q.address).take q.size) := by
  have hmoved : (base.shift origin.toNat).items = front.map (Placed.shift origin.toNat) ++
      q.shift origin.toNat :: back.map (Placed.shift origin.toNat) := by
    rw [Layout.shift, hitems, List.map_append, List.map_cons]
  obtain ⟨own, hown, -, htake⟩ := emitted_at hp hlayout hmoved
  have hplace : (q.shift origin.toNat).address - origin.toNat = q.address := Nat.add_sub_cancel _ _
  rw [hplace] at htake
  exact (Placed.bytes_unmoved hstays hfits _ _ _ _).symm.trans (hown.trans (by rw [← htake]; rfl))

/-- Words that differ belong to an item that moves. -/
theorem exists_moves {source : String} {origin origin' : UInt32} {p p' : Program} {base : Layout}
    {statements : List Statement} {k : Nat} (hbase : Layout.ofStatements 0 statements = .ok base)
    (hp : assemble source origin = .ok p) (hp' : assemble source origin' = .ok p')
    (hlayout : layout source origin = .ok (base.shift origin.toNat))
    (hlayout' : layout source origin' = .ok (base.shift origin'.toNat))
    (hfits : base.labels.Fits origin.toNat) (hfits' : base.labels.Fits origin'.toNat)
    (hsize : p.size = base.size) (hsize' : p'.size = base.size)
    (hdiffers : p'.words[k]? ≠ p.words[k]?) :
    ∃ q ∈ base.items, q.item.Moves ∧ q.address ≤ 4 * k ∧ 4 * k < q.address + q.size := by
  obtain ⟨htiles, hsized⟩ := Layout.tiles_of_statements hbase
  rw [Nat.zero_add] at htiles
  -- Behind the image there are no words, so the words that differ stand in an item.
  have hlt : 4 * k < base.size := by
    by_contra hbehind
    have hnone : ∀ r : Program, r.size = base.size → r.words[k]? = none := by
      intro r hr
      have hr : r.bytes.length = base.size := hr
      rw [words, LittleEndian.getElem?_words, List.drop_of_length_le (by omega)]
      rfl
    exact hdiffers ((hnone p' hsize').trans (hnone p hsize).symm)
  obtain ⟨front, q, back, hitems, hfrom, huntil⟩ := htiles.exists_at (Nat.zero_le _) hlt
  have hmem : q ∈ base.items := hitems ▸ List.mem_append_right _ List.mem_cons_self
  refine ⟨q, hmem, ?_, hfrom, huntil⟩
  by_contra hstays
  have hmod := htiles.address_mod hsized (Nat.zero_mod _) hitems
  have hsizeMod := (hsized q hmem).size_mod
  have hwhole : 4 * k + 4 ≤ q.address + q.size := by omega
  have hsame := Except.ok.inj ((slice_of_unmoved hp hlayout hitems hstays hfits).symm.trans
    (slice_of_unmoved hp' hlayout' hitems hstays hfits'))
  exact hdiffers ((words_of_item hsame.symm hfrom hwhole).trans (words_of_item rfl hfrom hwhole).symm)

/-- **Relocation.** The first pass succeeds at one origin exactly if it does at another, with the
same size, which is the measured one. Two programs of a source text that both end below `2 ^ 32`
have the same size, the same stack size and the same labels, moved by the distance of the origins,
and their words are equal outside of the items that depend on the place: the heads of data sections
and the instructions, other than relative jumps, that name a label. -/
theorem assemble_displaced (source : String) (origin origin' : UInt32) :
    (∀ n, (∃ l, layout source origin = .ok l ∧ l.size = n) ↔
      ∃ l, layout source origin' = .ok l ∧ l.size = n) ∧
    (∀ n, measure source = .ok n ↔ ∃ l, layout source origin = .ok l ∧ l.size = n) ∧
    ∀ l p p', layout source origin = .ok l → assemble source origin = .ok p →
      assemble source origin' = .ok p' → origin.toNat + l.size < 2 ^ 32 →
      origin'.toNat + l.size < 2 ^ 32 → Displaced l origin origin' p p' := by
  refine ⟨layout_size_iff source origin origin', fun n => measure_ok_iff origin, ?_⟩
  intro l p p' hlayout hp hp' hend hend'
  obtain ⟨base, hbase, rfl, hmoved⟩ := exists_base hlayout
  have hlayout' := hmoved origin'
  obtain ⟨statements, -, hstatements⟩ := bind_ok_iff.mp hbase
  have hbelow : ∀ o : UInt32, o.toNat + base.size < 2 ^ 32 → base.labels.Fits o.toNat :=
    fun o ho => Layout.fits_of_size hstatements (by omega)
  have hfits := hbelow origin hend
  have hfits' := hbelow origin' hend'
  obtain ⟨hsize, hstack, hlabels⟩ := parts_of_base hp hlayout
  obtain ⟨hsize', hstack', hlabels'⟩ := parts_of_base hp' hlayout'
  refine ⟨hsize'.trans hsize.symm, hstack'.trans hstack.symm, ?_, ?_, ?_⟩
  · rw [hlabels, hlabels', LabelTable.names_shift, LabelTable.names_shift]
  · intro name address hfind
    rw [hlabels, LabelTable.find?_shift] at hfind
    obtain ⟨target, htarget, rfl⟩ := Option.map_eq_some_iff.mp hfind
    refine ⟨target + UInt32.ofNat origin'.toNat, ?_, ?_⟩
    · rw [hlabels', LabelTable.find?_shift, htarget]
      rfl
    · rw [hfits.toNat_add htarget, hfits'.toNat_add htarget]
      omega
  · intro k hdiffers
    obtain ⟨q, hq, hmoves, hfrom, huntil⟩ := exists_moves hstatements hp hp' hlayout hlayout'
      hfits hfits' hsize hsize' hdiffers
    refine ⟨q.shift origin.toNat, List.mem_map_of_mem hq, hmoves, ?_, ?_⟩
    · show q.address + origin.toNat ≤ _
      omega
    · show _ < q.address + origin.toNat + q.size
      omega

theorem assemble_displaced_jumps :
    ∃ l p p', layout "jfw @next; :next; jmp @next; .data; int x 5;" 96 = .ok l ∧
      assemble "jfw @next; :next; jmp @next; .data; int x 5;" 96 = .ok p ∧
      assemble "jfw @next; :next; jmp @next; .data; int x 5;" 4096 = .ok p' ∧
      Displaced l 96 4096 p p' ∧ p.words = [0xB0000000, 0x10000019, 0x1000001C, 5] ∧
      p'.words = [0xB0000000, 0x10000401, 0x10000404, 5] := by
  have hwords : (assemble "jfw @next; :next; jmp @next; .data; int x 5;" 96).toOption.map words =
      some [0xB0000000, 0x10000019, 0x1000001C, 5] := by decide +kernel
  have hwords' : (assemble "jfw @next; :next; jmp @next; .data; int x 5;" 4096).toOption.map words =
      some [0xB0000000, 0x10000401, 0x10000404, 5] := by decide +kernel
  obtain ⟨p, hp, hwords⟩ := Option.map_eq_some_iff.mp hwords
  obtain ⟨p', hp', hwords'⟩ := Option.map_eq_some_iff.mp hwords'
  have hp := ok_of_toOption hp
  have hp' := ok_of_toOption hp'
  obtain ⟨l, hlayout, -⟩ := assemble_ok hp
  have hsize : l.size = 16 :=
    Except.ok.inj ((measure_of_layout hlayout).symm.trans (by decide +kernel))
  refine ⟨l, p, p', hlayout, hp, hp', ?_, hwords, hwords'⟩
  have hend : (96 : UInt32).toNat + l.size < 2 ^ 32 := by rw [hsize]; decide
  have hend' : (4096 : UInt32).toNat + l.size < 2 ^ 32 := by rw [hsize]; decide
  exact (assemble_displaced _ 96 4096).2.2 l p p' hlayout hp hp' hend hend'

end Program

end RegisterMachine
