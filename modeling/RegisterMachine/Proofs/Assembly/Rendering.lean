import RegisterMachine.Proofs.Assembly.Scanning
import RegisterMachine.Proofs.Except

/-! The texts that statements are written as.

A text is written piece by piece (`Written`): blanks, commas and comments anywhere between tokens,
words that do not touch each other, quotes, and a `;` behind each statement. The place of a token
is counted in the characters in front of it (`Position.behind`). `tokenize_renderings` says that
the scanner accepts these texts and no others, and finds in each the statements that it was written
from, and that all statements of sensible tokens can be written. -/
namespace RegisterMachine

/-- The place of a character that has these in front of it. -/
def Position.behind (front : List Char) : Position :=
  ⟨front.count '\n' + 1, (front.reverse.takeWhile (· != '\n')).length + 1⟩

/-- What each statement is made of, places aside. -/
def Statement.contents (s : Statement) : List (String × Bool) := s.tokens.map Token.content

namespace Scan

/-! ### Written texts -/

/-- The characters that a backslash and a mark stand for, with their marks. -/
def escapes : List (Char × Char) :=
  [('\n', 'n'), ('\t', 't'), ('\\', '\\'), ('"', '"'), ('\x00', '0')]

/-- How a character may be written in quotes. -/
inductive Glyph : Char → List Char → Prop where
  | raw {c : Char} (hquote : c ≠ '"') (hbackslash : c ≠ '\\') : Glyph c [c]
  | escaped {c mark : Char} (h : (c, mark) ∈ escapes) : Glyph c ['\\', mark]

/-- How a text may be written in quotes. -/
inductive Body : List Char → List Char → Prop where
  | empty : Body [] []
  | glyph {text body glyph : List Char} {c : Char} (h : Body text body) (hglyph : Glyph c glyph) :
    Body (text ++ [c]) (body ++ glyph)

/-- The text is made of these statements and, behind the last `;`, of these tokens. The flag says
that it ends in a word, which another word would run into. -/
inductive Written : List Char → List Statement → List Token → Bool → Prop where
  | start : Written [] [] [] false
  | gap {text : List Char} {statements : List Statement} {tokens : List Token} {worded : Bool}
      {c : Char} (h : Written text statements tokens worded) (hc : Parts c) :
    Written (text ++ [c]) statements tokens false
  | comment {text note : List Char} {statements : List Statement} {tokens : List Token}
      {worded : Bool} (h : Written text statements tokens worded) (hnote : '\n' ∉ note) :
    Written (text ++ '#' :: (note ++ ['\n'])) statements tokens false
  | word {text word : List Char} {statements : List Statement} {tokens : List Token}
      (h : Written text statements tokens false) (hnamed : word ≠ [])
      (hplain : ∀ c ∈ word, Plain c) :
    Written (text ++ word) statements
      (tokens ++ [⟨String.ofList word, .behind text, false⟩]) true
  | quote {text quoted body : List Char} {statements : List Statement} {tokens : List Token}
      {worded : Bool} (h : Written text statements tokens worded) (hbody : Body quoted body) :
    Written (text ++ '"' :: (body ++ ['"'])) statements
      (tokens ++ [⟨String.ofList quoted, .behind text, true⟩]) false
  | stop {text : List Char} {statements : List Statement} {tokens : List Token} {worded : Bool}
      (h : Written text statements tokens worded) :
    Written (text ++ [';']) (statements ++ (Statement.ofTokens? tokens).toList) [] false

/-- The whole text is made of these statements. A comment at its end need not end in a new line. -/
def Renders (text : List Char) (statements : List Statement) : Prop :=
  ∃ front ending worded, text = front ++ ending ∧ Written front statements [] worded ∧
    (ending = [] ∨ ∃ note, '\n' ∉ note ∧ ending = '#' :: note)

/-- A token that can be written: what is not quoted is a word. -/
def Writable (token : String × Bool) : Prop :=
  token.2 = false → token.1.toList ≠ [] ∧ ∀ c ∈ token.1.toList, Plain c

variable {s t u : Scan} {c : Char} {text note word body quoted front : List Char}
  {tokens : List Token} {statements : List Statement} {worded : Bool} {p start : Position}

/-! ### Places -/

theorem behind_snoc (front : List Char) (c : Char) :
    Position.behind (front ++ [c]) = (Position.behind front).after c := by
  rw [Position.behind, Position.behind, Position.after, List.count_append, List.reverse_append]
  by_cases hc : c = '\n'
  · subst hc
    simp
  · have hnot : ¬(c == '\n') = true := by simpa using hc
    simp [hc, Nat.add_comm]

theorem behind_append (front back : List Char) :
    Position.behind (front ++ back) = back.foldl Position.after (.behind front) := by
  induction back generalizing front with
  | nil => rw [List.append_nil]; rfl
  | cons c rest ih => rw [List.append_cons, ih, behind_snoc, List.foldl_cons]

theorem position_stepPlain (s : Scan) (c : Char) :
    (s.stepPlain c).position = s.position.after c := by
  unfold stepPlain
  dsimp only
  split
  · rfl
  · split
    · rfl
    · split
      · rfl
      · split
        · rfl
        · split <;> rfl

theorem position_step (h : s.step c = .ok t) : t.position = s.position.after c := by
  obtain ⟨mode, tokens, statements, p⟩ := s
  cases mode with
  | gap | word => exact Except.ok.inj h ▸ position_stepPlain _ c
  | comment => exact Except.ok.inj h ▸ rfl
  | quote start text =>
    rw [← Except.ok.inj h]
    split
    · rfl
    · split <;> rfl
  | escape start text mark =>
    simp only [step] at h
    split at h
    · exact Except.ok.inj h ▸ rfl
    · cases h

theorem position_run (h : s.run text = .ok t) :
    t.position = text.foldl Position.after s.position := by
  induction text generalizing s with
  | nil => exact Except.ok.inj h ▸ rfl
  | cons c rest ih =>
    cases hstep : s.step c with
    | error e =>
      rw [run, List.foldlM_cons, hstep] at h
      cases h
    | ok u =>
      rw [run_cons rest hstep] at h
      rw [ih h, position_step hstep, List.foldl_cons]

theorem position_of_run (h : Scan.start.run text = .ok s) : s.position = .behind text := by
  rw [position_run h]
  exact (behind_append [] text).symm

theorem run_snoc (hrun : s.run text = .ok t) (hstep : t.step c = .ok u) :
    s.run (text ++ [c]) = .ok u := by
  rw [run_append, hrun]
  exact run_cons [] hstep

theorem exists_of_run_snoc (h : s.run (text ++ [c]) = .ok u) :
    ∃ t, s.run text = .ok t ∧ t.step c = .ok u := by
  rw [run_append] at h
  obtain ⟨t, hrun, hlast⟩ := bind_ok_iff.mp h
  rw [run, List.foldlM_cons] at hlast
  obtain ⟨v, hstep, hrest⟩ := bind_ok_iff.mp hlast
  exact ⟨t, hrun, Except.ok.inj hrest ▸ hstep⟩

/-! ### Characters of quotes and comments -/

theorem unescape?_eq_some_iff {mark : Char} : unescape? mark = some c ↔ (c, mark) ∈ escapes := by
  unfold unescape? escapes
  split <;> simp_all [eq_comm]

theorem step_quote (h : s.Open) :
    s.step '"' = .ok ⟨.quote s.position [], s.allTokens, s.statements, s.position.after '"'⟩ := by
  rw [step_open h]
  rfl

theorem step_comment (h : s.Open) :
    s.step '#' = .ok ⟨.comment, s.allTokens, s.statements, s.position.after '#'⟩ := by
  rw [step_open h]
  rfl

theorem run_glyph {glyph : List Char} (h : Glyph c glyph) (text : List Char) (p : Position) :
    ∃ p', run ⟨.quote start text, tokens, statements, p⟩ glyph =
      .ok ⟨.quote start (c :: text), tokens, statements, p'⟩ := by
  cases h with
  | raw hquote hbackslash =>
    have hstep : step ⟨.quote start text, tokens, statements, p⟩ c =
        .ok ⟨.quote start (c :: text), tokens, statements, p.after c⟩ := by
      simp only [step, if_neg hquote, if_neg hbackslash]
    exact ⟨_, run_cons [] hstep⟩
  | @escaped mark h =>
    have hstep : step ⟨.escape start text p, tokens, statements, p.after '\\'⟩ mark =
        .ok ⟨.quote start (c :: text), tokens, statements, (p.after '\\').after mark⟩ := by
      simp only [step, unescape?_eq_some_iff.mpr h]
    exact ⟨_, (run_cons [mark] rfl).trans (run_cons [] hstep)⟩

theorem run_body (start : Position) (h : Body quoted body) (text : List Char) (p : Position) :
    ∃ p', run ⟨.quote start text, tokens, statements, p⟩ body =
      .ok ⟨.quote start (quoted.reverse ++ text), tokens, statements, p'⟩ := by
  induction h with
  | empty => exact ⟨p, rfl⟩
  | glyph h hglyph ih =>
    obtain ⟨p₁, hbody⟩ := ih
    obtain ⟨p₂, hrun⟩ := run_glyph hglyph _ p₁
    refine ⟨p₂, ?_⟩
    rw [run_append, hbody, List.reverse_append]
    exact hrun

theorem run_note (h : '\n' ∉ note) (p : Position) :
    ∃ p', run ⟨.comment, tokens, statements, p⟩ note =
      .ok ⟨.comment, tokens, statements, p'⟩ := by
  induction note generalizing p with
  | nil => exact ⟨p, rfl⟩
  | cons c rest ih =>
    simp only [List.mem_cons, not_or] at h
    have hstep : step ⟨.comment, tokens, statements, p⟩ c =
        .ok ⟨.comment, tokens, statements, p.after c⟩ := by
      simp only [step, if_neg (Ne.symm h.1)]
    rw [run_cons rest hstep]
    exact ih h.2 _

/-! ### Written texts are scanned -/

/-- The scanner has read the text and found these statements and tokens in it. -/
structure Finds (text : List Char) (statements : List Statement) (tokens : List Token)
    (worded : Bool) (s : Scan) : Prop where
  run : Scan.start.run text = .ok s
  opened : s.Open
  ended : worded = false → s.mode = .gap
  statements : s.statements = statements.reverse
  tokens : s.allTokens = tokens.reverse

theorem finds_gap (hrun : Scan.start.run text = .ok ⟨.gap, tokens.reverse, statements.reverse, p⟩) :
    Finds text statements tokens false ⟨.gap, tokens.reverse, statements.reverse, p⟩ :=
  ⟨hrun, open_gap, fun _ => rfl, rfl, rfl⟩

/-- What ends a statement adds it to the others, if it has a token. -/
theorem allStatements_reverse (s : Scan) : s.allStatements.reverse =
    s.statements.reverse ++ (Statement.ofTokens? s.allTokens.reverse).toList := by
  rw [allStatements]
  cases Statement.ofTokens? s.allTokens.reverse with
  | none => simp
  | some st => simp

theorem finds_of_written (h : Written text statements tokens worded) :
    ∃ s, Finds text statements tokens worded s := by
  induction h with
  | start => exact ⟨Scan.start, rfl, open_gap, fun _ => rfl, rfl, rfl⟩
  | @gap text statements tokens worded c h hc ih =>
    obtain ⟨s, hs⟩ := ih
    have hstep := step_parts hs.opened hc
    rw [hs.tokens, hs.statements] at hstep
    exact ⟨_, finds_gap (run_snoc hs.run hstep)⟩
  | @comment text note statements tokens worded h hnote ih =>
    obtain ⟨s, hs⟩ := ih
    obtain ⟨p, hrun⟩ := run_note hnote (s.position.after '#')
    refine ⟨_, finds_gap (p := p.after '\n') ?_⟩
    rw [run_append, hs.run]
    show s.run _ = _
    rw [run_cons _ (step_comment hs.opened), hs.tokens, hs.statements]
    exact run_snoc hrun rfl
  | @word text word statements tokens h hnamed hplain ih =>
    obtain ⟨s, hs⟩ := ih
    obtain ⟨mode, found, others, p⟩ := s
    obtain rfl : mode = .gap := hs.ended rfl
    obtain ⟨p', hrun⟩ := run_word found others p hnamed hplain
    refine ⟨⟨.word p word.reverse, found, others, p'⟩, ?_, open_word, nofun, hs.statements, ?_⟩
    · rw [run_append, hs.run]
      exact hrun
    · have hfound : found = tokens.reverse := hs.tokens
      have hp : p = .behind text := position_of_run hs.run
      show (⟨String.ofList word.reverse.reverse, p, false⟩ : Token) :: found = _
      rw [List.reverse_reverse, hfound, hp, List.reverse_concat]
  | @quote text quoted body statements tokens worded h hbody ih =>
    obtain ⟨s, hs⟩ := ih
    obtain ⟨p, hrun⟩ := run_body s.position hbody [] (s.position.after '"')
    have hp : s.position = .behind text := position_of_run hs.run
    refine ⟨⟨.gap, ⟨String.ofList quoted, s.position, true⟩ :: s.allTokens, s.statements,
      p.after '"'⟩, ?_, open_gap, fun _ => rfl, hs.statements, ?_⟩
    · rw [run_append, hs.run]
      show s.run _ = _
      rw [run_cons _ (step_quote hs.opened)]
      refine run_snoc hrun ?_
      simp [step]
    · show _ :: s.allTokens = _
      rw [hs.tokens, hp, List.reverse_concat]
  | @stop text statements tokens worded h ih =>
    obtain ⟨s, hs⟩ := ih
    have hall : s.allStatements =
        (statements ++ (Statement.ofTokens? tokens).toList).reverse := by
      rw [← List.reverse_eq_iff, allStatements_reverse, hs.statements, hs.tokens,
        List.reverse_reverse, List.reverse_reverse]
    have hstep := step_semicolon hs.opened
    rw [hall] at hstep
    exact ⟨_, finds_gap (run_snoc hs.run hstep)⟩

theorem tokenize_of_run {source : String} (h : Scan.start.run source.toList = .ok s) :
    tokenize source = s.finish := by
  rw [tokenize, h]
  rfl

/-- A text may end in a comment, but not in a quote, and not in a statement. -/
theorem finish_ok_iff : s.finish = .ok statements ↔
    (s.Open ∨ s.mode = .comment) ∧ s.allTokens = [] ∧ s.statements.reverse = statements := by
  have hends (hmode : s.Open ∨ s.mode = .comment) : s.finish = .ok statements ↔
      s.allTokens = [] ∧ s.statements.reverse = statements := by
    rw [finish, ← List.getLast?_eq_none_iff]
    obtain (hmode | ⟨start, text, hmode⟩) | hmode := hmode <;> rw [hmode] <;>
      cases s.allTokens.getLast? <;> simp
  constructor
  · intro h
    have hmode : s.Open ∨ s.mode = .comment := by
      cases hmode : s.mode with
      | gap => exact .inl (.inl hmode)
      | word start text => exact .inl (.inr ⟨start, text, hmode⟩)
      | comment => exact .inr rfl
      | quote start text | escape start text mark =>
        rw [finish, hmode] at h
        cases h
    exact ⟨hmode, (hends hmode).mp h⟩
  · rintro ⟨hmode, h⟩
    exact (hends hmode).mpr h

theorem tokenize_of_renders {source : String} (h : Renders source.toList statements) :
    tokenize source = .ok statements := by
  obtain ⟨front, ending, worded, htext, hwritten, hending⟩ := h
  obtain ⟨s, hs⟩ := finds_of_written hwritten
  rcases hending with rfl | ⟨note, hnote, rfl⟩
  · rw [List.append_nil] at htext
    rw [tokenize_of_run (htext ▸ hs.run)]
    exact finish_ok_iff.mpr ⟨.inl hs.opened, hs.tokens, by rw [hs.statements, List.reverse_reverse]⟩
  · obtain ⟨p, hrun⟩ := run_note hnote (s.position.after '#')
    have hall : Scan.start.run source.toList = .ok ⟨.comment, s.allTokens, s.statements, p⟩ := by
      rw [htext, run_append, hs.run]
      exact (run_cons _ (step_comment hs.opened)).trans hrun
    rw [tokenize_of_run hall]
    exact finish_ok_iff.mpr ⟨.inr rfl, hs.tokens, by rw [hs.statements, List.reverse_reverse]⟩

/-! ### Scanned texts are written -/

/-- The text that was read is written as what has been found in it, but for the word, comment or
quote that the scanner is inside of. -/
def Reads (s : Scan) (text : List Char) : Prop :=
  match s.mode with
  | .gap => Written text s.statements.reverse s.tokens.reverse false
  | .word start cs => ∃ front, text = front ++ cs.reverse ∧ start = .behind front ∧ cs ≠ [] ∧
      (∀ c ∈ cs, Plain c) ∧ Written front s.statements.reverse s.tokens.reverse false
  | .comment => ∃ front note worded, text = front ++ '#' :: note ∧ '\n' ∉ note ∧
      Written front s.statements.reverse s.tokens.reverse worded
  | .quote start cs => ∃ front body worded, text = front ++ '"' :: body ∧
      start = .behind front ∧ Body cs.reverse body ∧
      Written front s.statements.reverse s.tokens.reverse worded
  | .escape start cs _ => ∃ front body worded, text = front ++ '"' :: (body ++ ['\\']) ∧
      start = .behind front ∧ Body cs.reverse body ∧
      Written front s.statements.reverse s.tokens.reverse worded

/-- Between two characters the open word stands among the tokens. -/
theorem written_of_open (hopen : s.Open) (h : s.Reads text) :
    ∃ worded, Written text s.statements.reverse s.allTokens.reverse worded := by
  obtain ⟨mode, tokens, statements, p⟩ := s
  obtain hmode | ⟨start, cs, hmode⟩ := hopen
  · obtain rfl : mode = .gap := hmode
    exact ⟨false, h⟩
  · obtain rfl : mode = .word start cs := hmode
    obtain ⟨front, rfl, rfl, hnamed, hplain, hwritten⟩ := h
    have hnamed' : cs.reverse ≠ [] := by simpa using hnamed
    have hword := hwritten.word hnamed' (by simpa using hplain)
    rw [← List.reverse_cons] at hword
    exact ⟨true, hword⟩

theorem reads_stepPlain (hopen : s.Open) (hposition : s.position = .behind text)
    (h : s.Reads text) (c : Char) : (s.stepPlain c).Reads (text ++ [c]) := by
  obtain ⟨worded, hwritten⟩ := written_of_open hopen h
  unfold stepPlain
  dsimp only
  split
  · rename_i hc
    exact ⟨text, [], worded, by rw [hc], List.not_mem_nil, hwritten⟩
  · rename_i hcomment
    split
    · rename_i hc
      exact ⟨text, [], worded, by rw [hc], hposition, .empty, hwritten⟩
    · rename_i hquote
      split
      · rename_i hc
        subst hc
        have hstop := hwritten.stop
        rw [← allStatements_reverse] at hstop
        exact hstop
      · rename_i hstop
        split
        · rename_i hc
          exact hwritten.gap hc
        · rename_i hparts
          have hplain : Plain c := ⟨hcomment, hquote, hstop, hparts⟩
          obtain ⟨mode, tokens, statements, p⟩ := s
          obtain hmode | ⟨start, cs, hmode⟩ := hopen
          · obtain rfl : mode = .gap := hmode
            exact ⟨text, rfl, hposition, by simp, by simpa using hplain, h⟩
          · obtain rfl : mode = .word start cs := hmode
            obtain ⟨front, rfl, hstart, -, hall, hfront⟩ := h
            refine ⟨front, ?_, hstart, by simp, ?_, hfront⟩
            · rw [List.reverse_cons, List.append_assoc]
            · exact List.forall_mem_cons.mpr ⟨hplain, hall⟩

theorem reads_step (hposition : s.position = .behind text) (h : s.Reads text)
    (hstep : s.step c = .ok t) : t.Reads (text ++ [c]) := by
  obtain ⟨mode, tokens, statements, p⟩ := s
  cases mode with
  | gap => exact Except.ok.inj hstep ▸ reads_stepPlain open_gap hposition h c
  | word start cs => exact Except.ok.inj hstep ▸ reads_stepPlain open_word hposition h c
  | comment =>
    obtain ⟨front, note, worded, rfl, hnote, hwritten⟩ := h
    obtain rfl := Except.ok.inj hstep
    rw [List.append_assoc, List.cons_append]
    split
    · rename_i hc
      exact hc ▸ hwritten.comment hnote
    · rename_i hc
      exact ⟨front, note ++ [c], worded, rfl, by simp [hnote, Ne.symm hc], hwritten⟩
  | quote start cs =>
    obtain ⟨front, body, worded, rfl, rfl, hbody, hwritten⟩ := h
    obtain rfl := Except.ok.inj hstep
    rw [List.append_assoc, List.cons_append]
    split
    · rename_i hc
      have hquote := hwritten.quote hbody
      rw [← List.reverse_cons] at hquote
      exact hc ▸ hquote
    · rename_i hquote
      split
      · rename_i hc
        exact ⟨front, body, worded, by rw [hc], rfl, hbody, hwritten⟩
      · rename_i hbackslash
        refine ⟨front, body ++ [c], worded, rfl, rfl, ?_, hwritten⟩
        rw [List.reverse_cons]
        exact hbody.glyph (.raw hquote hbackslash)
  | escape start cs mark =>
    obtain ⟨front, body, worded, rfl, rfl, hbody, hwritten⟩ := h
    simp only [step] at hstep
    split at hstep
    · rename_i e hescape
      obtain rfl := Except.ok.inj hstep
      refine ⟨front, body ++ ['\\', c], worded, by simp, rfl, ?_, hwritten⟩
      rw [List.reverse_cons]
      exact hbody.glyph (.escaped (unescape?_eq_some_iff.mp hescape))
    · cases hstep

theorem reads_run (h : Scan.start.run text = .ok s) : s.Reads text := by
  induction text using List.reverseRecOn generalizing s with
  | nil => exact Except.ok.inj h ▸ .start
  | append_singleton front c ih =>
    obtain ⟨t, hrun, hstep⟩ := exists_of_run_snoc h
    exact reads_step (position_of_run hrun) (ih hrun) hstep

theorem renders_of_finish (h : s.Reads text) (hfinish : s.finish = .ok statements) :
    Renders text statements := by
  obtain ⟨hmode, htokens, rfl⟩ := finish_ok_iff.mp hfinish
  rcases hmode with hopen | hcomment
  · obtain ⟨worded, hwritten⟩ := written_of_open hopen h
    rw [htokens] at hwritten
    exact ⟨text, [], worded, (List.append_nil text).symm, hwritten, .inl rfl⟩
  · obtain ⟨mode, tokens, found, p⟩ := s
    obtain rfl : mode = .comment := hcomment
    obtain rfl : tokens = [] := htokens
    obtain ⟨front, note, worded, rfl, hnote, hwritten⟩ := h
    exact ⟨front, _, worded, rfl, hwritten, .inr ⟨note, hnote, rfl⟩⟩

theorem renders_of_tokenize {source : String} (h : tokenize source = .ok statements) :
    Renders source.toList statements := by
  obtain ⟨s, hrun, hfinish⟩ := bind_ok_iff.mp h
  exact renders_of_finish (reads_run hrun) hfinish

/-! ### What can be written -/

theorem writable_of_written (h : Written text statements tokens worded) :
    (∀ token ∈ tokens, Writable token.content) ∧
      ∀ st ∈ statements, ∀ token ∈ st.tokens, Writable token.content := by
  induction h with
  | start => exact ⟨by simp, by simp⟩
  | gap h hc ih | comment h hnote ih => exact ih
  | @word text word statements tokens h hnamed hplain ih =>
    refine ⟨fun token htoken => ?_, ih.2⟩
    rcases List.mem_append.mp htoken with htoken | htoken
    · exact ih.1 token htoken
    · obtain rfl := List.mem_singleton.mp htoken
      intro _
      simpa [Token.content] using ⟨hnamed, hplain⟩
  | quote h hbody ih =>
    refine ⟨fun token htoken => ?_, ih.2⟩
    rcases List.mem_append.mp htoken with htoken | htoken
    · exact ih.1 token htoken
    · obtain rfl := List.mem_singleton.mp htoken
      intro hquoted
      cases hquoted
  | @stop text statements tokens worded h ih =>
    refine ⟨by simp, fun st hst => ?_⟩
    rcases List.mem_append.mp hst with hst | hst
    · exact ih.2 st hst
    · cases tokens with
      | nil => cases hst
      | cons first rest =>
        obtain rfl := List.mem_singleton.mp hst
        exact ih.1

theorem body_exists (quoted : List Char) : ∃ body, Body quoted body := by
  induction quoted using List.reverseRecOn with
  | nil => exact ⟨[], .empty⟩
  | append_singleton front c ih =>
    obtain ⟨body, hbody⟩ := ih
    by_cases hquote : c = '"'
    · have hmark : (c, '"') ∈ escapes := by
        rw [hquote]
        decide
      exact ⟨_, hbody.glyph (.escaped hmark)⟩
    · by_cases hbackslash : c = '\\'
      · have hmark : (c, '\\') ∈ escapes := by
          rw [hbackslash]
          decide
        exact ⟨_, hbody.glyph (.escaped hmark)⟩
      · exact ⟨_, hbody.glyph (.raw hquote hbackslash)⟩

theorem written_token {content : String × Bool} (h : Written text statements tokens false)
    (hcontent : Writable content) : ∃ text' token,
      Written text' statements (tokens ++ [token]) false ∧ token.content = content := by
  obtain ⟨said, quoted⟩ := content
  cases quoted with
  | true =>
    obtain ⟨body, hbody⟩ := body_exists said.toList
    exact ⟨_, _, h.quote hbody, by rw [Token.content, String.ofList_toList]⟩
  | false =>
    obtain ⟨hnamed, hplain⟩ := hcontent rfl
    have hcomma : Parts ',' := .inl rfl
    exact ⟨_, _, (h.word hnamed hplain).gap hcomma, by rw [Token.content, String.ofList_toList]⟩

theorem written_tokens {contents : List (String × Bool)}
    (h : Written text statements tokens false) (hcontents : ∀ token ∈ contents, Writable token) :
    ∃ text' more, Written text' statements (tokens ++ more) false ∧
      more.map Token.content = contents := by
  induction contents generalizing text tokens with
  | nil => exact ⟨text, [], by rwa [List.append_nil], rfl⟩
  | cons content rest ih =>
    obtain ⟨hcontent, hrest⟩ := List.forall_mem_cons.mp hcontents
    obtain ⟨text', token, htoken, rfl⟩ := written_token h hcontent
    obtain ⟨text'', more, hmore, rfl⟩ := ih htoken hrest
    exact ⟨text'', token :: more, by rwa [List.append_cons], rfl⟩

theorem written_statements {contents : List (List (String × Bool))}
    (hcontents : ∀ st ∈ contents, st ≠ [] ∧ ∀ token ∈ st, Writable token) :
    ∃ text statements, Written text statements [] false ∧
      statements.map Statement.contents = contents := by
  induction contents using List.reverseRecOn with
  | nil => exact ⟨[], [], .start, rfl⟩
  | append_singleton front st ih =>
    obtain ⟨text, statements, hwritten, hfront⟩ :=
      ih fun st hst => hcontents st (List.mem_append_left _ hst)
    obtain ⟨hne, hst⟩ := hcontents st (by simp)
    obtain ⟨text', tokens, htokens, rfl⟩ := written_tokens hwritten hst
    cases tokens with
    | nil => exact absurd rfl hne
    | cons first rest =>
      refine ⟨_, _, htokens.stop, ?_⟩
      rw [List.map_append, hfront]
      rfl

/-- **The scanner accepts the texts that statements are written as, and loses nothing.** From each
such text, and from no other, it gets the statements that the text was written from, with the place
of every token; and whatever statements of writable tokens there are, they have such a text. -/
theorem tokenize_renderings :
    (∀ source statements, tokenize source = .ok statements ↔ Renders source.toList statements) ∧
      ∀ contents : List (List (String × Bool)),
        (∃ text statements, Renders text statements ∧
          statements.map Statement.contents = contents) ↔
        ∀ st ∈ contents, st ≠ [] ∧ ∀ token ∈ st, Writable token := by
  refine ⟨fun source statements => ⟨renders_of_tokenize, tokenize_of_renders⟩, fun contents => ?_⟩
  constructor
  · rintro ⟨text, statements, ⟨front, ending, worded, -, hwritten, -⟩, rfl⟩ st hst
    obtain ⟨s, hs, rfl⟩ := List.mem_map.mp hst
    refine ⟨by simp [Statement.contents, Statement.tokens], fun content hcontent => ?_⟩
    obtain ⟨token, htoken, rfl⟩ := List.mem_map.mp hcontent
    exact (writable_of_written hwritten).2 s hs token htoken
  · intro hcontents
    obtain ⟨text, statements, hwritten, rfl⟩ := written_statements hcontents
    exact ⟨text, statements, ⟨text, [], false, (List.append_nil text).symm, hwritten, .inl rfl⟩,
      rfl⟩

/-- A quote needs no separator next to it, and a `;` in a quote or in a comment ends nothing. -/
example : (tokenize "putchar\"a;\\n\",r1 # no ;\n;;").toOption.map (·.map Statement.contents) =
    some [[("putchar", false), ("a;\n", true), ("r1", false)]] := by
  decide +kernel

end Scan
end RegisterMachine
