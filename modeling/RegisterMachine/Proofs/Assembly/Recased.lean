import RegisterMachine.Assembly.Assembler
import RegisterMachine.Proofs.Assembly.LowerCase
import RegisterMachine.Proofs.Except
import RegisterMachine.Proofs.Number.Numeral

/-! Programs in letters of another case.

Names of instructions, sections, kinds and labels, registers and literals are each read in
their own way, but none of them sees the case of a letter. So statements in lower case are laid
out alike (`ofStatements_lower`), and of items in lower case the second pass makes the same
bytes (`program_lower`). Messages quote the text, so only successes agree, which is why both
sides are compared by `toOption`. -/
namespace RegisterMachine

/-! ### Literals and registers -/

namespace Literal

theorem parse_toLower (text : String) :
    (parse (text.map Char.toLower)).toOption = (parse text).toOption := by
  have hchars : (text.map Char.toLower).toList.map Char.toLower =
      text.toList.map Char.toLower := by
    rw [← String.toList_map, map_toLower_map_toLower, String.toList_map]
  unfold parse
  rw [hchars]
  dsimp only
  split
  · rfl
  · split
    · rfl
    · split
      · rfl
      · split <;> rfl

theorem parseInt_toLower (text : String) :
    (parseInt (text.map Char.toLower)).toOption = (parseInt text).toOption := by
  rw [parseInt, parseInt, toOption_bind, toOption_bind, parse_toLower]
  cases (parse text).toOption with
  | none => rfl
  | some literal => cases literal <;> rfl

theorem parseField_toLower (width : Nat) (text : String) :
    (parseField width (text.map Char.toLower)).toOption = (parseField width text).toOption := by
  rw [parseField, parseField, toOption_bind, toOption_bind, parseInt_toLower]
  cases (parseInt text).toOption with
  | none => rfl
  | some n =>
    simp only [Option.bind_some]
    split <;> rfl

end Literal

namespace Numeral

theorem digits?_toLower (high : Nat) (text : List Char) :
    digits? 10 high (text.map Char.toLower) = digits? 10 high text := by
  induction text generalizing high with
  | nil => rfl
  | cons c rest ih =>
    rw [List.map_cons, digits?, digits?, digit?_toLower (by decide)]
    exact congrArg _ (funext fun d => ih _)

theorem natural?_toLower (text : List Char) :
    natural? 10 (text.map Char.toLower) = natural? 10 text := by
  rw [natural?, natural?, List.isEmpty_map, digits?_toLower]

theorem below?_toLower (bound : Nat) (text : List Char) :
    below? bound (text.map Char.toLower) = below? bound text := by
  cases text with
  | nil => rfl
  | cons c rest =>
    by_cases hplus : c = '+'
    · subst hplus
      exact congrArg (Option.filter _) (natural?_toLower rest)
    · have hplus' : c.toLower ≠ '+' := mt (toLower_eq_iff _ (by decide)).mp hplus
      have hsame := natural?_toLower (c :: rest)
      rw [List.map_cons] at hsame ⊢
      simp only [below?, List.cons.injEq, hplus, hplus', false_and, imp_self, implies_true]
      rw [hsame]

end Numeral

theorem Reg.parse_toLower (text : String) :
    (parse (text.map Char.toLower)).toOption = (parse text).toOption := by
  unfold parse
  rw [String.toList_map]
  cases text.toList with
  | nil => rfl
  | cons c digits =>
    have hR : c.toLower ≠ 'R' := by
      intro h
      have hupper := Char.isUpper_toLower_eq_false c
      rw [h] at hupper
      cases hupper
    have hdigits : (Numeral.below? 256 (digits.map Char.toLower)).bind ofNumber? =
        (Numeral.below? 256 digits).bind ofNumber? := by rw [Numeral.below?_toLower]
    rw [List.map_cons]
    by_cases hr : c = 'r' ∨ c = 'R'
    · have hlower : c.toLower = 'r' := by rcases hr with rfl | rfl <;> rfl
      rw [hlower]
      rcases hr with rfl | rfl
      · simp only [hdigits]
        split <;> rfl
      · simp only [hdigits]
        split <;> rfl
    · have hlower : c.toLower ≠ 'r' := mt eq_of_toLower_eq_r hr
      obtain ⟨hr, hR'⟩ := not_or.mp hr
      simp [hr, hR', hlower, hR]

namespace Token
variable (token : Token)

theorem parse_lower :
    (Literal.parse token.lower.text).toOption = (Literal.parse token.text).toOption :=
  token.lower_congr (fun text => (Literal.parse text).toOption) Literal.parse_toLower

theorem parseInt_lower :
    (Literal.parseInt token.lower.text).toOption = (Literal.parseInt token.text).toOption :=
  token.lower_congr (fun text => (Literal.parseInt text).toOption)
    Literal.parseInt_toLower

theorem parseField_lower (width : Nat) : (Literal.parseField width token.lower.text).toOption =
    (Literal.parseField width token.text).toOption :=
  token.lower_congr (fun text => (Literal.parseField width text).toOption)
    (Literal.parseField_toLower width)

theorem parseRegister_lower :
    (Reg.parse token.lower.text).toOption = (Reg.parse token.text).toOption :=
  token.lower_congr (fun text => (Reg.parse text).toOption) Reg.parse_toLower

end Token

/-! ### The first pass -/

/-- An instruction statement with its tokens in lower case. -/
def Item.lower : Item → Item
  | .instruction m c name operands =>
    .instruction m c (name.map Char.toLower) (operands.map Token.lower)
  | item => item

def Placed.lower (p : Placed) : Placed := { p with item := p.item.lower }

theorem LabelTable.define_congr {name name' : String} (t : LabelTable) (address : UInt32)
    (hname : name'.map Char.toLower = name.map Char.toLower) :
    (t.define name' address).toOption = (t.define name address).toOption := by
  have hlookup : t.lookup? name' = t.lookup? name := by rw [lookup?, lookup?, hname]
  rw [define, define, hlookup, hname]
  cases t.lookup? name with
  | none => rfl
  | some old =>
    dsimp only
    split <;> rfl

namespace DataDeclaration

theorem single_lower (kind name name' : String) (values : List Token) :
    (single kind name' (values.map Token.lower)).toOption =
      (single kind name values).toOption.map Token.lower := by
  match values with
  | [] | [_] | _ :: _ :: _ => rfl

theorem mapM_lower {α : Type} {read read' : Token → Except StatementError α}
    (hread : ∀ token, (read' token.lower).toOption = (read token).toOption)
    (values : List Token) :
    ((values.map Token.lower).mapM read').toOption = (values.mapM read).toOption := by
  induction values with
  | nil => rfl
  | cons value rest ih =>
    rw [List.map_cons, List.mapM_cons, List.mapM_cons]
    simp only [toOption_bind, hread, ih]

theorem bytes_lower (kind name name' : String) (values : List Token) :
    (bytes kind name' (values.map Token.lower)).toOption = (bytes kind name values).toOption := by
  have hsingle := fun kind => single_lower kind name name' values
  unfold bytes
  split
  · have hstring : ∀ value : Token,
        (if value.lower.quoted then .ok (Text.utf8 value.lower.text ++ [0])
          else .error (.data (.notQuoted name')) : Except StatementError (List UInt8)).toOption =
        (if value.quoted then .ok (Text.utf8 value.text ++ [0])
          else .error (.data (.notQuoted name)) : Except StatementError (List UInt8)).toOption := by
      intro value
      by_cases hquoted : value.quoted = true
      · rw [Token.lower, if_pos hquoted, if_pos hquoted, if_pos hquoted]
      · rw [Token.lower_quoted, if_neg hquoted, if_neg hquoted]
        rfl
    rw [toOption_bind, toOption_bind, hsingle, Option.bind_map]
    exact congrArg _ (funext hstring)
  · simp only [toOption_bind, toOption_mapError, toOption_ok, hsingle, Option.bind_map,
      Token.parseInt_lower, Function.comp_def]
  · simp only [toOption_bind, toOption_mapError, hsingle, Option.bind_map, Token.parse_lower,
      Function.comp_def]
  · rw [List.isEmpty_map]
    split
    · rfl
    · refine mapM_lower (fun value => ?_) values
      rw [toOption_map, toOption_map, toOption_mapError, toOption_mapError,
        value.parseField_lower]
  · rfl

theorem parse_lower (st : Statement) : (parse st.lower).toOption =
    (parse st).toOption.map fun (name, bytes) => (name.map Char.toLower, bytes) := by
  obtain ⟨first, rest⟩ := st
  have hkind : (Statement.lower ⟨first, rest⟩).first.text.map Char.toLower =
      first.text.map Char.toLower := first.lower_map_toLower
  unfold parse
  dsimp only
  rw [hkind]
  cases rest with
  | nil => rfl
  | cons name values =>
    show (ite (name.lower.quoted = true) _ _ : Except StatementError _).toOption =
      (ite (name.quoted = true) _ _ : Except StatementError _).toOption.map _
    by_cases hquoted : name.quoted = true
    · rw [Token.lower_quoted, if_pos hquoted, if_pos hquoted]
      rfl
    · have hname : name.lower.text = name.text.map Char.toLower := by
        rw [Token.lower, if_neg hquoted]
      rw [Token.lower_quoted, if_neg hquoted, if_neg hquoted, toOption_map, toOption_map,
        bytes_lower _ name.text, Option.map_map, hname]
      rfl

end DataDeclaration

theorem Mnemonic.wordCount_lower (m : Mnemonic) (operands : List Token) :
    (m.wordCount (operands.map Token.lower)).toOption = (m.wordCount operands).toOption := by
  cases m with
  | native i => rfl
  | loadWordI =>
    match operands with
    | [] | [_] | _ :: _ :: _ :: _ => rfl
    | [rd, value] =>
      show (ite (value.lower.startsWith '@' = true) _ _ : Except OperandError Nat).toOption =
        (ite (value.startsWith '@' = true) _ _ : Except OperandError Nat).toOption
      rw [value.startsWith_lower (by decide)]
      split
      · rfl
      · rw [toOption_map, toOption_map, value.parse_lower]

theorem parseStackSize_lower (token : Token) :
    (parseStackSize token.lower).toOption = (parseStackSize token).toOption := by
  rw [parseStackSize, parseStackSize, toOption_bind, toOption_bind, token.parseInt_lower]
  cases (Literal.parseInt token.text).toOption with
  | none => rfl
  | some size =>
    simp only [Option.bind_some]
    split <;> rfl

namespace LayoutState

/-- The state with everything laid out so far in lower case. -/
def lower (s : LayoutState) : LayoutState := { s with items := s.items.map Placed.lower }

variable (s : LayoutState) (st : Statement) (position : Position)

theorem bind_lower {name name' : String}
    (hname : name'.map Char.toLower = name.map Char.toLower) :
    (s.lower.bind name').toOption = (s.bind name).toOption.map lower := by
  have hdefine := s.labels.define_congr (UInt32.ofNat s.address) hname
  have hlabels : s.lower.labels.define name' (UInt32.ofNat s.lower.address) =
      s.labels.define name' (UInt32.ofNat s.address) := rfl
  simp only [bind, toOption_map, toOption_mapError, hlabels, hdefine, Option.map_map]
  rfl

theorem header_lower : (s.lower.header st.lower).toOption = (s.header st).toOption.map lower := by
  obtain ⟨first, rest⟩ := st
  have hkind : (Statement.lower ⟨first, rest⟩).first.tail.map Char.toLower =
      first.tail.map Char.toLower := first.lower_tail_map_toLower
  unfold header
  rw [hkind]
  generalize first.tail.map Char.toLower = kind
  by_cases hdata : kind = "data"
  · subst hdata
    cases rest with
    | nil => exact congrArg (fun p => some (place _ _ _ p)) first.lower_position
    | cons => rfl
  · by_cases hcode : kind = "code"
    · subst hcode
      cases rest with
      | nil => exact congrArg (fun p => some (place _ _ _ p)) first.lower_position
      | cons => rfl
    · by_cases hstack : kind = "stack"
      · subst hstack
        match rest with
        | [] | _ :: _ :: _ => rfl
        | [size] =>
          show (((parseStackSize size.lower).mapError _).map _).toOption =
            (((parseStackSize size).mapError _).map _).toOption.map lower
          simp only [toOption_map, toOption_mapError, parseStackSize_lower, Option.map_map]
          rfl
      · simp [hdata, hcode, hstack]

theorem stackStatement_lower :
    (s.lower.stackStatement st.lower).toOption = (s.stackStatement st).toOption.map lower := by
  obtain ⟨first, rest⟩ := st
  cases rest with
  | cons => rfl
  | nil =>
    show (((parseStackSize first.lower).mapError _).map _).toOption =
      (((parseStackSize first).mapError _).map _).toOption.map lower
    simp only [toOption_map, toOption_mapError, parseStackSize_lower, Option.map_map]
    rfl

theorem dataStatement_lower : (s.lower.dataStatement position st.lower).toOption =
    (s.dataStatement position st).toOption.map lower := by
  unfold dataStatement
  simp only [toOption_bind, DataDeclaration.parse_lower, toOption_ok]
  cases (DataDeclaration.parse st).toOption with
  | none => rfl
  | some parsed =>
    simp only [Option.map_some, Option.bind_some]
    rw [s.bind_lower (map_toLower_map_toLower parsed.1)]
    cases (s.bind parsed.1).toOption <;> rfl

theorem codeStatement_lower : (s.lower.codeStatement position st.lower).toOption =
    (s.codeStatement position st).toOption.map lower := by
  obtain ⟨first, rest⟩ := st
  by_cases hquoted : first.quoted = true
  · have hlower : first.lower = first := if_pos hquoted
    simp [codeStatement, Statement.lower, hlower, hquoted]
  · have hlower : first.lower = { first with text := first.text.map Char.toLower } :=
      if_neg hquoted
    have hname : Mnemonic.ofName? (first.text.map Char.toLower) = Mnemonic.ofName? first.text := by
      rw [Mnemonic.ofName?, Mnemonic.ofName?, map_toUpper_map_toLower]
    simp only [codeStatement, Statement.lower, hlower, if_neg hquoted, hname]
    cases Mnemonic.ofName? first.text with
    | none => rfl
    | some found =>
      simp only [toOption_bind, toOption_mapError, toOption_ok, Mnemonic.wordCount_lower]
      cases (found.1.wordCount rest).toOption <;> rfl

theorem body_lower : (s.lower.body position st.lower).toOption =
    (s.body position st).toOption.map lower := by
  have hcurrent : s.lower.current = s.current := rfl
  rw [body, body, hcurrent, toOption_mapError, toOption_mapError]
  split
  · exact s.dataStatement_lower st position
  · exact s.codeStatement_lower st position

theorem step_lower : (s.lower.step st.lower).toOption = (s.step st).toOption.map lower := by
  have hcurrent : s.lower.current = s.current := rfl
  have hfirst : st.lower.first = st.first.lower := rfl
  unfold step
  dsimp only
  rw [hcurrent, hfirst, st.first.startsWith_lower (by decide), st.first.startsWith_lower (by decide),
    st.first.lower_position, st.first.lower_tail_isEmpty]
  split
  · simp only [toOption_mapError, header_lower]
  · split
    · simp only [toOption_mapError, stackStatement_lower]
    · split
      · split
        · rfl
        · simp only [toOption_bind, toOption_mapError,
            s.bind_lower st.first.lower_tail_map_toLower]
          cases (s.bind st.first.tail).toOption with
          | none => rfl
          | some bound =>
            have hrest : Statement.ofTokens? st.lower.rest =
                (Statement.ofTokens? st.rest).map Statement.lower :=
              Statement.ofTokens?_lower st.rest
            simp only [Option.map_some, Option.bind_some, hrest]
            cases Statement.ofTokens? st.rest with
            | none => rfl
            | some rest => exact bound.body_lower rest _
      · exact s.body_lower st _

theorem foldlM_lower (statements : List Statement) :
    ((statements.map Statement.lower).foldlM step s.lower).toOption =
      (statements.foldlM step s).toOption.map lower := by
  induction statements generalizing s with
  | nil => rfl
  | cons st rest ih =>
    rw [List.map_cons, List.foldlM_cons, List.foldlM_cons, toOption_bind, toOption_bind, step_lower]
    cases (s.step st).toOption with
    | none => rfl
    | some next => exact ih next

end LayoutState

namespace Layout

/-- The layout with its items in lower case. -/
def lower (l : Layout) : Layout := { l with items := l.items.map Placed.lower }

/-- Statements in lower case are laid out alike. -/
theorem ofStatements_lower (origin : Nat) (statements : List Statement) :
    (ofStatements origin (statements.map Statement.lower)).toOption =
      (ofStatements origin statements).toOption.map lower := by
  have hfold := (LayoutState.start origin).foldlM_lower statements
  rw [show (LayoutState.start origin).lower = .start origin from rfl] at hfold
  unfold ofStatements
  rw [toOption_bind, toOption_bind, hfold]
  cases (statements.foldlM LayoutState.step (.start origin)).toOption with
  | none => rfl
  | some s =>
    simp only [Option.map_some, Option.bind_some, toOption_ok, lower, LayoutState.lower,
      List.map_reverse]

end Layout

/-! ### The second pass -/

section Emission
variable {i : Instruction} {labels : LabelTable} {address : Nat}

theorem LabelTable.resolve_congr {name name' : String} (t : LabelTable)
    (hname : name'.map Char.toLower = name.map Char.toLower) :
    (t.resolve name').toOption = (t.resolve name).toOption := by
  have hlookup : t.lookup? name' = t.lookup? name := by rw [lookup?, lookup?, hname]
  rw [resolve, resolve, hlookup]
  cases t.lookup? name <;> rfl

theorem Instruction.labelValue_congr (kind : OperandKind) (name name' : String)
    (target address : Nat) : (i.labelValue kind name' target address).toOption =
      (i.labelValue kind name target address).toOption := by
  rw [labelValue, labelValue]
  cases i.scaled? kind target address with
  | none => rfl
  | some n =>
    dsimp only
    split <;> rfl

theorem Token.reference?_lower (token : Token) :
    token.lower.reference? = token.reference?.map (·.map Char.toLower) := by
  rw [reference?, reference?, token.startsWith_lower (by decide)]
  by_cases hmark : token.startsWith '@' = true
  · have hquoted : ¬token.quoted = true := by
      rw [startsWith, Bool.and_eq_true, Bool.not_eq_true'] at hmark
      simp [hmark.1]
    rw [if_pos hmark, if_pos hmark, lower, if_neg hquoted, Option.map_some, tail, tail,
      map_ofList_toLower, String.toList_map, List.map_tail]
  · rw [if_neg hmark, if_neg hmark]
    rfl

theorem Instruction.arg_lower (kind : OperandKind) (token : Token) :
    (i.arg kind token.lower address labels).toOption =
      (i.arg kind token address labels).toOption := by
  have hzero : token.lower.text = "0" ↔ token.text = "0" :=
    iff_of_eq (token.lower_congr (· = "0") fun text => propext map_toLower_eq_zero_iff)
  unfold arg
  simp only [Token.lower_quoted, hzero]
  split
  · rfl
  · split
    · split
      · rfl
      · simp only [toOption_map, toOption_mapError, token.parseRegister_lower]
    · rw [token.reference?_lower]
      cases token.reference? with
      | none =>
        simp only [Option.map_none, toOption_map, toOption_mapError, token.parseField_lower]
      | some name =>
        simp only [Option.map_some, toOption_bind, toOption_map, toOption_mapError,
          labels.resolve_congr (map_toLower_map_toLower name), labelValue_congr kind name]

theorem Instruction.args_lower (operands : List (OperandKind × Token)) :
    (i.args address labels (operands.map fun o => (o.1, o.2.lower))).toOption =
      (i.args address labels operands).toOption := by
  induction operands with
  | nil => rfl
  | cons o rest ih =>
    rw [List.map_cons, args, args]
    simp only [toOption_bind, arg_lower, ih, toOption_ok]

theorem loadWordValue_lower (token : Token) :
    (loadWordValue token.lower labels).toOption = (loadWordValue token labels).toOption := by
  rw [loadWordValue, loadWordValue, token.reference?_lower]
  cases token.reference? with
  | none => simp only [Option.map_none, toOption_map, toOption_mapError, token.parse_lower]
  | some name =>
    simp only [Option.map_some, toOption_map, toOption_mapError,
      labels.resolve_congr (map_toLower_map_toLower name)]

theorem Mnemonic.words_lower (m : Mnemonic) (c : Condition) (name name' : String)
    (operands : List Token) :
    (m.words c name' (operands.map Token.lower) address labels).toOption =
      (m.words c name operands address labels).toOption := by
  cases m with
  | native i =>
    simp only [words, List.length_map]
    split
    · rfl
    · have hzip : i.operands.zip (operands.map Token.lower) =
          (i.operands.zip operands).map fun o => (o.1, o.2.lower) := List.zip_map_right
      rw [toOption_bind, toOption_bind, hzip, Instruction.args_lower]
  | loadWordI =>
    match operands with
    | [] | [_] | _ :: _ :: _ :: _ => rfl
    | [rd, value] =>
      simp only [words, List.map_cons, List.map_nil, toOption_bind, Instruction.arg_lower,
        loadWordValue_lower]

end Emission

namespace Emission

theorem step_lower (labels : LabelTable) (e : Emission) (p : Placed) :
    (step labels e p.lower).toOption = (step labels e p).toOption := by
  obtain ⟨item, address, size, position⟩ := p
  cases item with
  | instruction m c name operands =>
    simp only [step, Placed.lower, Item.lower, toOption_map, toOption_mapError,
      Mnemonic.words_lower m c name]
  | data | dataHead | codeStart => rfl

theorem foldlM_lower (labels : LabelTable) (e : Emission) (items : List Placed) :
    ((items.map Placed.lower).foldlM (step labels) e).toOption =
      (items.foldlM (step labels) e).toOption := by
  induction items generalizing e with
  | nil => rfl
  | cons p rest ih =>
    rw [List.map_cons, List.foldlM_cons, List.foldlM_cons]
    simp only [toOption_bind, step_lower, ih]

end Emission

/-- The second pass makes the same program of items in lower case. -/
theorem Layout.program_lower (l : Layout) (origin : UInt32) :
    (l.lower.program origin).toOption = (l.program origin).toOption := by
  rw [program, program, toOption_bind, toOption_bind]
  exact congrArg (fun e => Option.bind e _) (Emission.foldlM_lower l.labels .start l.items)

/-! ### Whole programs -/

namespace Program

theorem assemble_lower (source : String) (origin : UInt32) :
    (assemble (Source.lower source) origin).toOption = (assemble source origin).toOption := by
  unfold assemble layout
  split
  · rfl
  · rw [tokenize_lower]
    cases tokenize source with
    | error e => rfl
    | ok statements =>
      show ((Layout.ofStatements _ (statements.map Statement.lower)) >>= _).toOption =
        (Layout.ofStatements _ statements >>= _).toOption
      rw [toOption_bind, toOption_bind, Layout.ofStatements_lower, Option.bind_map]
      exact congrArg _ (funext fun l => l.program_lower origin)

/-- **Case of letters.** Two source texts that differ only in the case of letters outside of quotes
assemble alike: both are refused, or both become the same program. -/
theorem assemble_recased {source source' : String} (h : Source.Recased source source')
    (origin : UInt32) (p : Program) :
    assemble source origin = .ok p ↔ assemble source' origin = .ok p := by
  have hsame : (assemble source origin).toOption = (assemble source' origin).toOption := by
    rw [← assemble_lower, h, assemble_lower]
  rw [← toOption_eq_some_iff, ← toOption_eq_some_iff, hsame]

theorem assemble_recased_string :
    Source.Recased "LoadWordI R1, @Text; # \"A\n .DATA; String Text \"Ab\";"
        "loadwordi r1, @TEXT; # \"a\n .data; STRING text \"Ab\";" ∧
      ∃ p, assemble "LoadWordI R1, @Text; # \"A\n .DATA; String Text \"Ab\";" 96 = .ok p ∧
        assemble "loadwordi r1, @TEXT; # \"a\n .data; STRING text \"Ab\";" 96 = .ok p := by
  have hrecased : Source.Recased "LoadWordI R1, @Text; # \"A\n .DATA; String Text \"Ab\";"
      "loadwordi r1, @TEXT; # \"a\n .data; STRING text \"Ab\";" := by decide +kernel
  have hsome : (assemble "LoadWordI R1, @Text; # \"A\n .DATA; String Text \"Ab\";" 96).isOk =
      true := by decide +kernel
  cases hassemble : assemble "LoadWordI R1, @Text; # \"A\n .DATA; String Text \"Ab\";" 96 with
  | error e =>
    rw [hassemble] at hsome
    cases hsome
  | ok p => exact ⟨hrecased, p, rfl, (assemble_recased hrecased 96 p).mp hassemble⟩

/-- The case of a letter in quotes does matter. -/
example : ¬Source.Recased ".data; string text \"Ab\";" ".data; string text \"ab\";" := by
  decide +kernel

end Program

end RegisterMachine
