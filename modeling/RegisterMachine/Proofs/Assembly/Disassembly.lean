import RegisterMachine.Assembly.Assembler
import RegisterMachine.Proofs.Assembly.Printing
import RegisterMachine.Proofs.Assembly.Tiling
import RegisterMachine.Proofs.Instruction.Names

/-! Printed programs are assembled to the words that they were printed from.

A word that is read as an instruction is printed as a name and operands. The scanner makes
one statement of this text (`Line.yields`), the first pass gives the statement the place of
one word (`Line.step`), and the second pass writes there the canonical word, in which the
fields of constant zeros are clear (`Line.bytes_placed`). So a text of such lines is
assembled to the words themselves, up to these fields (`assemble_lines`). -/
namespace RegisterMachine

/-! ### The text of an instruction -/

theorem intercalate_cons (sep front : List Char) (rest : List (List Char)) :
    sep.intercalate (front :: rest) = front ++ rest.flatMap fun text => sep ++ text := by
  induction rest generalizing front with
  | nil => simp
  | cons text rest ih =>
    rw [List.intercalate_cons_cons, ih, List.flatMap_cons, List.append_assoc, List.append_assoc]

namespace Decoded

/-- The operands as they are printed, each with what parts it from what stands in front. -/
def pieces : List Arg → List (List Char × List Char)
  | [] => []
  | a :: rest => ([' '], a.text.toList) :: rest.map fun a => ([',', ' '], a.text.toList)

/-- The mnemonic with its condition; an instruction without one is always executed. -/
def name (d : Decoded) : String := d.instruction.mnemonic ++ d.condition.suffix

theorem toList_text {d : Decoded}
    (h : d.instruction.isConditional = false → d.condition = .always) :
    d.text.toList = d.name.toList ++ (pieces d.args).flatMap fun q => q.1 ++ q.2 := by
  have hname : (if d.instruction.isConditional then d.condition.suffix else "") =
      d.condition.suffix := by
    split
    · rfl
    · rename_i hconditional
      rw [h (by simpa using hconditional)]
      rfl
  rw [text, hname, name]
  cases hargs : d.args with
  | nil => simp [pieces]
  | cons a rest =>
    dsimp only
    rw [String.toList_append, String.toList_intercalate, List.map_cons, List.map_cons,
      intercalate_cons]
    simp [pieces, List.flatMap_map]

theorem spaced_pieces (args : List Arg) :
    ∀ q ∈ pieces args, Scan.Spaced q.1 q.2 := by
  have hword : ∀ (gap : List Char) (a : Arg), gap ≠ [] → (∀ c ∈ gap, Scan.Parts c) →
      Scan.Spaced gap a.text.toList := by
    intro gap a hgap hparts
    obtain ⟨hne, halphanum⟩ := a.alphanum_text
    exact ⟨hgap, hparts, by simpa using hne, fun c hc => Scan.plain_of_isAlphanum (halphanum c hc)⟩
  have hblank : Scan.Parts ' ' := .inr (by decide)
  cases args with
  | nil => exact fun q hq => absurd hq List.not_mem_nil
  | cons a rest =>
    intro q hq
    rcases List.mem_cons.mp hq with rfl | hq
    · exact hword _ a (by simp) (by simpa using hblank)
    · obtain ⟨b, -, rfl⟩ := List.mem_map.mp hq
      exact hword _ b (by simp) (by simpa [Scan.Parts] using hblank)

end Decoded

/-- A word that is an instruction, and the blanks that are put behind its text. -/
structure Line where
  word : UInt32
  decoded : Decoded
  decodes : decode word = some decoded
  gap : String
  blank : ∀ c ∈ gap.toList, Text.isBlank c = true

namespace Line

def text (l : Line) : String := l.decoded.text ++ ";" ++ l.gap

/-- The word with the fields of constant zeros cleared. -/
def canonical (l : Line) : UInt32 := l.decoded.instruction.canonical l.word

/-- The texts of the tokens: the name and the operands. -/
def texts (l : Line) : List String := l.decoded.name :: l.decoded.args.map Arg.text

theorem word_eq (l : Line) : l.decoded.word = l.word :=
  (Instruction.decode_eq_some_iff.mp l.decodes).1

theorem reads (l : Line) : l.decoded.instruction.Reads l.decoded.condition l.word :=
  (Instruction.decode_eq_some_iff.mp l.decodes).2

theorem mem_conditions (l : Line) :
    l.decoded.condition ∈ (Mnemonic.native l.decoded.instruction).conditions := by
  unfold Mnemonic.conditions
  dsimp only
  split
  · exact Condition.mem_all _
  · rename_i hconditional
    exact List.mem_singleton.mpr (l.reads.unconditional (by simpa using hconditional))

theorem alphanum_name (l : Line) :
    l.decoded.name ≠ "" ∧ ∀ c ∈ l.decoded.name.toList, c.isAlphanum = true := by
  have hmem := Mnemonic.native_mem_all l.decoded.instruction
  constructor
  · intro hempty
    exact (Mnemonic.upper_of_mem_all hmem).1 (String.append_eq_empty_iff.mp hempty).1
  · intro c hc
    have hupper := (Mnemonic.upper_append hmem l.decoded.condition c hc).1
    simp [Char.isAlphanum, Char.isAlpha, hupper]

/-- The text of a line is read as one statement of its name and operands. -/
theorem yields (l : Line) : Scan.Yields l.text.toList l.texts := by
  have htexts : l.texts = String.ofList l.decoded.name.toList ::
      (Decoded.pieces l.decoded.args).map fun q => String.ofList q.2 := by
    rw [texts, String.ofList_toList]
    cases l.decoded.args with
    | nil => rfl
    | cons a rest => simp [Decoded.pieces]
  have htext : l.text.toList = l.decoded.name.toList ++
      (((Decoded.pieces l.decoded.args).flatMap fun q => q.1 ++ q.2) ++ ';' :: l.gap.toList) := by
    rw [text, String.toList_append, String.toList_append,
      Decoded.toList_text l.reads.unconditional, List.append_assoc, List.append_assoc]
    rfl
  obtain ⟨hne, halphanum⟩ := l.alphanum_name
  rw [htexts, htext]
  exact Scan.run_statement (by simpa using hne)
    (fun c hc => Scan.plain_of_isAlphanum (halphanum c hc)) (Decoded.spaced_pieces _)
    fun c hc => .inr (l.blank c hc)

/-! ### The two passes -/

/-- What the first pass places for a line. -/
def item (l : Line) (operands : List Token) : Item :=
  .instruction (.native l.decoded.instruction) l.decoded.condition l.decoded.name operands

variable {l : Line} {st : Statement} {s : LayoutState}

theorem says_iff : st.Says l.texts ↔ st.first.content = (l.decoded.name, false) ∧
    st.rest.map Token.content = l.decoded.args.map fun a => (a.text, false) := by
  rw [Statement.Says, Statement.tokens, texts, List.map_cons, List.map_cons, List.map_map,
    List.cons_eq_cons]
  rfl

/-- The first pass gives a line the place of one word. -/
theorem step (h : st.Says l.texts) (hcode : s.current = .code) :
    s.step st = .ok (s.place (l.item st.rest) 4 st.first.position) := by
  obtain ⟨hfirst, -⟩ := says_iff.mp h
  obtain ⟨htext, hquoted⟩ := Prod.mk.inj hfirst
  have hmark : ∀ mark : Char, mark.isAlphanum = false → st.first.startsWith mark = false := by
    intro mark hmark
    apply Token.not_startsWith_of_alphanum hmark
    rw [htext]
    exact l.alphanum_name.2
  have hname : Mnemonic.ofName? l.decoded.name =
      some (.native l.decoded.instruction, l.decoded.condition) :=
    Mnemonic.ofName?_append (Mnemonic.native_mem_all _) l.mem_conditions
  have hcodeStatement : s.codeStatement st.first.position st =
      .ok (s.place (l.item st.rest) 4 st.first.position) := by
    rw [LayoutState.codeStatement, htext, hquoted, if_neg (by decide), hname]
    rfl
  rw [LayoutState.step, hmark '.' (by decide), hmark ':' (by decide), hcode,
    LayoutState.body, hcode]
  dsimp only
  rw [hcodeStatement]
  rfl

/-- The second pass writes the canonical word in the place of a line. -/
theorem bytes_placed (h : st.Says l.texts) (address size : Nat) (position : Position)
    (labels : LabelTable) (stop : Nat) (others : List Placed) :
    Placed.bytes ⟨l.item st.rest, address, size, position⟩ labels stop others =
      .ok (LittleEndian.wordBytes l.canonical) := by
  obtain ⟨-, hrest⟩ := says_iff.mp h
  -- what is known of the operands of the word is said of the decoded instruction
  have hargs : (Decoded.mk l.decoded.instruction l.decoded.condition l.word).args =
      l.decoded.args := by
    rw [← l.word_eq]
  have haccepts := Instruction.accepts_args l.reads
  have hcut := Instruction.cutArgs_args l.decoded.instruction l.decoded.condition l.word
  have hencode := Instruction.encode_args l.reads
  rw [hargs] at haccepts hcut hencode
  have hlength : st.rest.length = l.decoded.instruction.operands.length := by
    have hcount := congrArg List.length hrest
    rw [List.length_map, List.length_map] at hcount
    exact hcount.trans haccepts.count
  have hread : l.decoded.instruction.args address labels
      (l.decoded.instruction.operands.zip st.rest) = .ok l.decoded.args := by
    refine Instruction.args_of_texts haccepts.count.symm (fun o ho => ?_) hrest
    obtain ⟨slot, hslot⟩ := List.mem_iff_getElem?.mp ho
    obtain ⟨hkind, harg⟩ := List.getElem?_zip_eq_some.mp hslot
    have hown : l.decoded.args[slot]? = some (o.1.cut o.2) := by
      rw [← hcut, Instruction.cutArgs, List.getElem?_zipWith, hkind, harg]
    exact ⟨haccepts.holds hkind harg, Option.some.inj (hown.symm.trans harg)⟩
  have hwords : (Mnemonic.native l.decoded.instruction).words l.decoded.condition l.decoded.name
      st.rest address labels = .ok [l.canonical] := by
    rw [Mnemonic.words, if_neg (not_not_intro hlength), hread]
    show ((l.decoded.instruction.encode _ _).mapError _ >>= _) = _
    rw [hencode]
    rfl
  show Except.map _ (Except.mapError _ _) = _
  rw [hwords]
  exact congrArg Except.ok (List.append_nil _)

end Line

/-- A text of lines is laid out word by word, and the words are written one after the other. -/
theorem LayoutState.foldlM_lines {lines : List Line} {sts : List Statement} {s : LayoutState}
    (h : List.Forall₂ (fun l st => st.Says l.texts) lines sts) (hcode : s.current = .code) :
    ∃ items, sts.foldlM LayoutState.step s =
        .ok { s with items := items.reverse ++ s.items, address := s.address + 4 * lines.length } ∧
      ∀ labels stop, Layout.emit labels stop items =
        .ok (lines.flatMap fun l => LittleEndian.wordBytes l.canonical) := by
  induction h generalizing s with
  | nil => exact ⟨[], rfl, fun _ _ => rfl⟩
  | @cons l st lines sts hsays hrest ih =>
    obtain ⟨items, hfold, hemit⟩ := ih (s := s.place (l.item st.rest) 4 st.first.position) hcode
    refine ⟨⟨l.item st.rest, s.address, 4, st.first.position⟩ :: items, ?_, fun labels stop => ?_⟩
    · rw [List.foldlM_cons, Line.step hsays hcode]
      refine hfold.trans ?_
      rw [List.reverse_cons, List.append_assoc, List.length_cons]
      simp [LayoutState.place]
      omega
    · rw [Layout.emit, Line.bytes_placed hsays, hemit]
      rfl

/-- **Printed programs reassemble.** Words that are all instructions, printed one behind the other
with a `;` and any blanks after each, are assembled at any whole word: to a program that starts
there, asks for no stack, has no labels and holds the words, each with the register fields clear
whose slot is the constant zero. -/
theorem Program.assemble_lines (lines : List Line) {origin : UInt32}
    (haligned : origin.toNat % 4 = 0) :
    assemble (String.join (lines.map Line.text)) origin =
      .ok ⟨origin, origin, none, lines.flatMap fun l => LittleEndian.wordBytes l.canonical,
        .empty⟩ := by
  obtain ⟨sts, htokenize, hsays⟩ := Scan.tokenize_statements fun l (_ : l ∈ lines) => l.yields
  have hcode : (LayoutState.start origin.toNat).current = .code := rfl
  obtain ⟨items, hfold, hemit⟩ := LayoutState.foldlM_lines hsays hcode
  have hlayout : layout (String.join (lines.map Line.text)) origin =
      .ok ⟨items, .empty, none, origin.toNat + 4 * lines.length - origin.toNat⟩ := by
    rw [layout, htokenize]
    show Layout.ofStatements origin.toNat sts = _
    rw [Layout.ofStatements, hfold]
    show Except.ok (Layout.mk (items.reverse ++ []).reverse _ _ _) = _
    rw [List.append_nil, List.reverse_reverse]
    rfl
  rw [assemble, if_neg (not_not_intro haligned), hlayout]
  refine (program_of_layout hlayout).trans ?_
  rw [hemit]
  rfl

/-- The second operand is the constant zero, and its register field is lost. -/
theorem Program.assemble_lines_idle :
    (decode 0x390101).map Decoded.text = some "ADD r1, 0, r2" ∧
      assemble "ADD r1, 0, r2;\n" 0x210 =
        .ok ⟨0x210, 0x210, none, [0x01, 0x01, 0x01, 0x00], .empty⟩ := by
  let line : Line := ⟨0x390101, ⟨.add, .always, 0x390101⟩, by decide +kernel, "\n",
    List.all_eq_true.mp (by decide)⟩
  have hassemble := assemble_lines [line] (show (0x210 : UInt32).toNat % 4 = 0 by decide)
  have hsource : String.join ([line].map Line.text) = "ADD r1, 0, r2;\n" := by decide +kernel
  have hbytes : ([line].flatMap fun l => LittleEndian.wordBytes l.canonical) =
      [0x01, 0x01, 0x01, 0x00] := by decide +kernel
  rw [hsource, hbytes] at hassemble
  exact ⟨by decide +kernel, hassemble⟩

end RegisterMachine
