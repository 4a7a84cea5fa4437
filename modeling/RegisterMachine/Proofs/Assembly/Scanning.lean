import Mathlib
import RegisterMachine.Assembly.Token

/-! What the scanner makes of words with separators between them.

A word is read character by character and kept until a character behind it ends it. So a
scan is followed through its `allTokens`, in which the open word already stands: a
separator leaves them as they are, and a word adds itself (`run_spaced`). A `;` makes a
statement of them (`run_statement`), and what holds for one statement holds for a text of
them (`tokenize_statements`). Where the tokens stand does not matter here. -/
namespace RegisterMachine

theorem Text.isBlank_of_isAlphanum {c : Char} (h : c.isAlphanum = true) :
    Text.isBlank c = false := by
  have hrange : 48 ≤ c.toNat ∧ c.toNat ≤ 122 := by
    simp only [Char.isAlphanum, Char.isAlpha, Char.isUpper, Char.isLower, Char.isDigit,
      Bool.or_eq_true, Bool.and_eq_true, decide_eq_true_eq, UInt32.le_iff_toNat_le] at h
    have hbounds : 'A'.val.toNat = 65 ∧ 'Z'.val.toNat = 90 ∧ 'a'.val.toNat = 97 ∧
      'z'.val.toNat = 122 ∧ '0'.val.toNat = 48 ∧ '9'.val.toNat = 57 := by decide
    show 48 ≤ c.val.toNat ∧ c.val.toNat ≤ 122
    omega
  simp [Text.isBlank, Text.blankRanges]
  omega

/-- What a token says, and whether in quotes. -/
def Token.content (token : Token) : String × Bool := (token.text, token.quoted)

/-- The statement is made of unquoted tokens with these texts. -/
def Statement.Says (s : Statement) (texts : List String) : Prop :=
  s.tokens.map Token.content = texts.map (·, false)

namespace Scan

/-- The character stands between words. -/
def Parts (c : Char) : Prop := c = ',' ∨ Text.isBlank c = true

/-- The character is one of a word. -/
def Plain (c : Char) : Prop := c ≠ '#' ∧ c ≠ '"' ∧ c ≠ ';' ∧ ¬Parts c

/-- The scanner is outside of comments and quotes. -/
def Open (s : Scan) : Prop := s.mode = .gap ∨ ∃ start text, s.mode = .word start text

/-- A separator and the word behind it. -/
structure Spaced (gap word : List Char) : Prop where
  parted : gap ≠ []
  parts : ∀ c ∈ gap, Parts c
  named : word ≠ []
  plain : ∀ c ∈ word, Plain c

variable {s : Scan} {c : Char} {gap word : List Char} {tokens : List Token}
  {statements : List Statement} {p start : Position}

/-! ### Characters -/

/-- Letters and digits make words. -/
theorem plain_of_isAlphanum (h : c.isAlphanum = true) : Plain c := by
  refine ⟨?_, ?_, ?_, ?_⟩
  · rintro rfl
    exact absurd h (by decide)
  · rintro rfl
    exact absurd h (by decide)
  · rintro rfl
    exact absurd h (by decide)
  · rintro (rfl | hblank)
    · exact absurd h (by decide)
    · rw [Text.isBlank_of_isAlphanum h] at hblank
      cases hblank

theorem parts_apart (h : Parts c) : c ≠ '#' ∧ c ≠ '"' ∧ c ≠ ';' := by
  rcases h with rfl | hblank
  · decide
  · refine ⟨?_, ?_, ?_⟩ <;> rintro rfl <;> exact absurd hblank (by decide)

/-! ### One character -/

theorem step_open (h : s.Open) (c : Char) : s.step c = .ok (s.stepPlain c) := by
  obtain hmode | ⟨start, text, hmode⟩ := h <;> simp [step, hmode]

theorem open_gap : Open ⟨.gap, tokens, statements, p⟩ := .inl rfl

theorem open_word {text : List Char} : Open ⟨.word start text, tokens, statements, p⟩ :=
  .inr ⟨_, _, rfl⟩

/-- A separator ends the open word. -/
theorem step_parts (h : s.Open) (hc : Parts c) :
    s.step c = .ok ⟨.gap, s.allTokens, s.statements, s.position.after c⟩ := by
  obtain ⟨hcomment, hquote, hstatement⟩ := parts_apart hc
  rw [step_open h, stepPlain, if_neg hcomment, if_neg hquote, if_neg hstatement]
  exact congrArg Except.ok (if_pos hc)

/-- A `;` ends the statement. -/
theorem step_semicolon (h : s.Open) :
    s.step ';' = .ok ⟨.gap, [], s.allStatements, s.position.after ';'⟩ := by
  rw [step_open h]
  rfl

theorem step_plain_gap (hc : Plain c) : step ⟨.gap, tokens, statements, p⟩ c =
    .ok ⟨.word p [c], tokens, statements, p.after c⟩ := by
  obtain ⟨hcomment, hquote, hstatement, hparts⟩ := hc
  rw [step_open open_gap, stepPlain, if_neg hcomment, if_neg hquote, if_neg hstatement]
  exact congrArg Except.ok (if_neg hparts)

theorem step_plain_word {text : List Char} (hc : Plain c) :
    step ⟨.word start text, tokens, statements, p⟩ c =
      .ok ⟨.word start (c :: text), tokens, statements, p.after c⟩ := by
  obtain ⟨hcomment, hquote, hstatement, hparts⟩ := hc
  rw [step_open open_word, stepPlain, if_neg hcomment, if_neg hquote, if_neg hstatement]
  exact congrArg Except.ok (if_neg hparts)

/-! ### Separators and words -/

theorem run_cons {t : Scan} (text : List Char) (h : s.step c = .ok t) :
    s.run (c :: text) = t.run text := by
  rw [run, List.foldlM_cons, h]
  rfl

theorem run_parts (tokens : List Token) (statements : List Statement) (p : Position)
    (h : ∀ c ∈ gap, Parts c) :
    ∃ p', run ⟨.gap, tokens, statements, p⟩ gap = .ok ⟨.gap, tokens, statements, p'⟩ := by
  induction gap generalizing p with
  | nil => exact ⟨p, rfl⟩
  | cons c rest ih =>
    rw [run_cons rest (step_parts open_gap (h c List.mem_cons_self))]
    exact ih _ fun c hc => h c (List.mem_cons_of_mem _ hc)

theorem run_plain {text : List Char} (h : ∀ c ∈ word, Plain c) :
    ∃ p', run ⟨.word start text, tokens, statements, p⟩ word =
      .ok ⟨.word start (word.reverse ++ text), tokens, statements, p'⟩ := by
  induction word generalizing p text with
  | nil => exact ⟨p, rfl⟩
  | cons c rest ih =>
    rw [run_cons rest (step_plain_word (h c List.mem_cons_self)), List.reverse_cons,
      List.append_assoc]
    exact ih fun c hc => h c (List.mem_cons_of_mem _ hc)

/-- A word that begins in a gap is the open word at its end. -/
theorem run_word (tokens : List Token) (statements : List Statement) (p : Position)
    (hne : word ≠ []) (h : ∀ c ∈ word, Plain c) :
    ∃ p', run ⟨.gap, tokens, statements, p⟩ word =
      .ok ⟨.word p word.reverse, tokens, statements, p'⟩ := by
  cases word with
  | nil => exact absurd rfl hne
  | cons c rest =>
    rw [run_cons rest (step_plain_gap (h c List.mem_cons_self)), List.reverse_cons]
    exact run_plain fun c hc => h c (List.mem_cons_of_mem _ hc)

/-- A separator leaves the tokens, and the word behind it is added to them. -/
theorem run_spaced (hopen : s.Open) (h : Spaced gap word) :
    ∃ t, s.run (gap ++ word) = .ok t ∧ t.Open ∧ t.statements = s.statements ∧
      t.allTokens.map Token.content =
        (String.ofList word, false) :: s.allTokens.map Token.content := by
  obtain ⟨hparted, hparts, hnamed, hplain⟩ := h
  cases gap with
  | nil => exact absurd rfl hparted
  | cons c rest =>
    obtain ⟨p, hgap⟩ := run_parts s.allTokens s.statements (s.position.after c)
      fun c hc => hparts c (List.mem_cons_of_mem _ hc)
    obtain ⟨p', hword⟩ := run_word s.allTokens s.statements p hnamed hplain
    refine ⟨⟨.word p word.reverse, s.allTokens, s.statements, p'⟩, ?_, open_word, rfl, ?_⟩
    · rw [List.cons_append, run_cons _ (step_parts hopen (hparts c List.mem_cons_self)), run_append,
        hgap]
      exact hword
    · show (String.ofList word.reverse.reverse, false) :: _ = _
      rw [List.reverse_reverse]

theorem run_pieces {pieces : List (List Char × List Char)} (hopen : s.Open)
    (h : ∀ q ∈ pieces, Spaced q.1 q.2) :
    ∃ t, s.run (pieces.flatMap fun q => q.1 ++ q.2) = .ok t ∧ t.Open ∧
      t.statements = s.statements ∧ t.allTokens.map Token.content =
        (pieces.map fun q => (String.ofList q.2, false)).reverse ++
          s.allTokens.map Token.content := by
  induction pieces generalizing s with
  | nil => exact ⟨s, rfl, hopen, rfl, rfl⟩
  | cons q rest ih =>
    obtain ⟨t, hrun, hopen, hstatements, htokens⟩ := run_spaced hopen (h q List.mem_cons_self)
    obtain ⟨t', hrun', hopen', hstatements', htokens'⟩ :=
      ih hopen fun q hq => h q (List.mem_cons_of_mem _ hq)
    refine ⟨t', ?_, hopen', hstatements'.trans hstatements, ?_⟩
    · rw [List.flatMap_cons, run_append, hrun]
      exact hrun'
    · rw [htokens', htokens, List.map_cons, List.reverse_cons, List.append_assoc]
      rfl

/-! ### Statements -/

/-- From a gap between statements the text is read as one statement of these texts. -/
def Yields (text : List Char) (texts : List String) : Prop :=
  ∀ statements p, ∃ st p', run ⟨.gap, [], statements, p⟩ text =
    .ok ⟨.gap, [], st :: statements, p'⟩ ∧ st.Says texts

/-- Words with separators between them and a `;` behind them are a statement. -/
theorem run_statement {pieces : List (List Char × List Char)} (hnamed : word ≠ [])
    (hplain : ∀ c ∈ word, Plain c) (hpieces : ∀ q ∈ pieces, Spaced q.1 q.2)
    (hgap : ∀ c ∈ gap, Parts c) :
    Yields (word ++ ((pieces.flatMap fun q => q.1 ++ q.2) ++ ';' :: gap))
      (String.ofList word :: pieces.map fun q => String.ofList q.2) := by
  intro statements p
  obtain ⟨p₁, hword⟩ := run_word [] statements p hnamed hplain
  have hopened : Open ⟨.word p word.reverse, [], statements, p₁⟩ := open_word
  obtain ⟨t, hrun, hopen, hstatements, htokens⟩ := run_pieces hopened hpieces
  -- the tokens are known by what they say, which is enough to see that there is a first one
  have hcontent : t.allTokens.reverse.map Token.content =
      (String.ofList word, false) :: pieces.map fun q => (String.ofList q.2, false) := by
    rw [List.map_reverse, htokens, List.reverse_append, List.reverse_reverse]
    simp [allTokens, Token.content]
  cases hreverse : t.allTokens.reverse with
  | nil =>
    rw [hreverse] at hcontent
    cases hcontent
  | cons first rest =>
    have hall : t.allStatements = ⟨first, rest⟩ :: statements := by
      rw [allStatements, hreverse, hstatements]
      rfl
    obtain ⟨p₂, hend⟩ := run_parts [] (⟨first, rest⟩ :: statements) (t.position.after ';') hgap
    refine ⟨⟨first, rest⟩, p₂, ?_, ?_⟩
    · rw [run_append, hword]
      show run _ _ = _
      rw [run_append, hrun]
      show run _ _ = _
      rw [run_cons gap (step_semicolon hopen), hall]
      exact hend
    · rw [hreverse] at hcontent
      rw [Statement.Says, Statement.tokens, hcontent, List.map_cons, List.map_map]
      rfl

theorem run_statements {α : Type} {text : α → String} {texts : α → List String} {lines : List α}
    (h : ∀ l ∈ lines, Yields (text l).toList (texts l)) (statements : List Statement)
    (p : Position) :
    ∃ sts p', run ⟨.gap, [], statements, p⟩ (String.join (lines.map text)).toList =
      .ok ⟨.gap, [], sts.reverse ++ statements, p'⟩ ∧
      List.Forall₂ (fun l st => st.Says (texts l)) lines sts := by
  induction lines generalizing statements p with
  | nil => exact ⟨[], p, rfl, .nil⟩
  | cons l rest ih =>
    obtain ⟨st, p₁, hfirst, hsays⟩ := h l List.mem_cons_self statements p
    obtain ⟨sts, p₂, hrest, hall⟩ :=
      ih (fun l hl => h l (List.mem_cons_of_mem _ hl)) (st :: statements) p₁
    refine ⟨st :: sts, p₂, ?_, .cons hsays hall⟩
    rw [List.map_cons, String.toList_join, List.flatMap_cons, run_append, hfirst,
      ← String.toList_join, List.reverse_cons, List.append_assoc]
    exact hrest

/-- A text of statements is read as these statements. -/
theorem tokenize_statements {α : Type} {text : α → String} {texts : α → List String}
    {lines : List α} (h : ∀ l ∈ lines, Yields (text l).toList (texts l)) :
    ∃ sts, tokenize (String.join (lines.map text)) = .ok sts ∧
      List.Forall₂ (fun l st => st.Says (texts l)) lines sts := by
  obtain ⟨sts, p, hrun, hall⟩ := run_statements h [] ⟨1, 1⟩
  refine ⟨sts, ?_, hall⟩
  rw [tokenize, show Scan.start = ⟨.gap, [], [], ⟨1, 1⟩⟩ from rfl, hrun, List.append_nil]
  show Except.ok sts.reverse.reverse = _
  rw [List.reverse_reverse]

end Scan
end RegisterMachine
