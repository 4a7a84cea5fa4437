import RegisterMachine.Assembly.Assembler
import RegisterMachine.Proofs.Assembly.Excerpt
import RegisterMachine.Proofs.Assembly.Placement
import RegisterMachine.Proofs.Assembly.Rendering

/-! Where an assembly error points to.

An error carries a place, and what stands there (`AssemblyError.Marks`) is a quote without an
end, an escape that is none, or a token: the first one of its statement, or the first one behind
a label. The scanner names the places that it has noted (`marks_of_tokenize`). The first pass names a
token of the statement at hand (`pointsInto_of_step`), and the second one the place of an item,
which is that of its statement (`placed_of_foldlM`). All of these are characters of the text, in
a line that the excerpt can show (`assemble_error_marks`). -/
namespace RegisterMachine

/-! ### Tokens in the text -/

namespace Scan

/-- Behind this text and the tokens that it ends in, a further token begins with this character. -/
def Begins (front : List Char) (before : List Token) (c : Char) : Prop :=
  ∃ statements worded, Written front statements before worded ∧
    (c = '"' ∨ worded = false ∧ Plain c)

/-- The token begins in the text where its place says, behind these others of its statement. -/
def Starts (text : List Char) (before : List Token) (token : Token) : Prop :=
  ∃ front c back, text = front ++ c :: back ∧ Begins front before c ∧
    token.position = .behind front

variable {text : List Char} {before after tokens : List Token} {token : Token}
  {statements : List Statement} {worded : Bool} {s t : Scan}

theorem Starts.append (h : Starts text before token) (more : List Char) :
    Starts (text ++ more) before token := by
  obtain ⟨front, c, back, rfl, hbegins, hposition⟩ := h
  exact ⟨front, c, back ++ more, by simp, hbegins, hposition⟩

/-- All tokens of these statements, and these further ones, are written in the text. -/
structure Located (text : List Char) (statements : List Statement) (tokens : List Token) :
    Prop where
  statements : ∀ st ∈ statements, ∀ before token after,
    st.tokens = before ++ token :: after → Starts text before token
  tokens : ∀ before token after, tokens = before ++ token :: after → Starts text before token

theorem Located.append (h : Located text statements tokens) (more : List Char) :
    Located (text ++ more) statements tokens where
  statements st hst before token after hsplit :=
    (h.statements st hst before token after hsplit).append more
  tokens before token after hsplit := (h.tokens before token after hsplit).append more

/-- The next token is at the end of the tokens. -/
theorem Located.snoc (h : Located text statements tokens) {more : List Char}
    (hstarts : Starts (text ++ more) tokens token) :
    Located (text ++ more) statements (tokens ++ [token]) where
  statements := (h.append more).statements
  tokens before other after hsplit := by
    rcases List.eq_nil_or_concat after with rfl | ⟨inner, last, rfl⟩
    · obtain ⟨rfl, hother⟩ := List.append_inj' hsplit rfl
      exact (List.cons.inj hother).1 ▸ hstarts
    · rw [List.concat_eq_append, ← List.cons_append, ← List.append_assoc] at hsplit
      exact (h.tokens before other inner (List.append_inj' hsplit rfl).1).append more

theorem located_of_written (h : Written text statements tokens worded) :
    Located text statements tokens := by
  induction h with
  | start => exact ⟨nofun, fun before token after h => absurd h (by simp)⟩
  | gap h hc ih => exact ih.append _
  | comment h hnote ih => exact ih.append _
  | @word text word statements tokens h hnamed hplain ih =>
    refine ih.snoc ?_
    cases word with
    | nil => exact absurd rfl hnamed
    | cons c rest =>
      have hbegins : Begins text tokens c :=
        ⟨statements, false, h, .inr ⟨rfl, hplain c List.mem_cons_self⟩⟩
      exact ⟨text, c, rest, rfl, hbegins, rfl⟩
  | @quote text quoted body statements tokens worded h hbody ih =>
    exact ih.snoc ⟨text, '"', body ++ ['"'], rfl, ⟨statements, worded, h, .inl rfl⟩, rfl⟩
  | @stop text statements tokens worded h ih =>
    refine ⟨fun st hst before token after hsplit => ?_, fun before token after h =>
      absurd h (by simp)⟩
    rcases List.mem_append.mp hst with hst | hst
    · exact (ih.statements st hst before token after hsplit).append _
    · cases tokens with
      | nil => cases hst
      | cons first rest =>
        obtain rfl := List.mem_singleton.mp hst
        exact (ih.tokens before token after hsplit).append _

end Scan

/-! ### What an error points to -/

namespace AssemblyError

/-- What stands at the place of an error, behind `front` in the source text: a token that is the
first one of its statement or the first one behind a label, the beginning of a quote that does not
end, or a backslash in a quote with a mark behind it that means nothing. -/
inductive Marks : AssemblyError → List Char → Char → List Char → Prop where
  | token {e : AssemblyError} {front back : List Char} {c : Char} {before : List Token}
      (hplace : e.position? = some (.behind front)) (hbegins : Scan.Begins front before c)
      (hfirst : before = [] ∨ ∃ label, before = [label] ∧ label.startsWith ':' = true) :
    Marks e front c back
  | openQuote {front body back quoted : List Char} {statements : List Statement}
      {tokens : List Token} {worded : Bool}
      (hwritten : Scan.Written front statements tokens worded) (hbody : Scan.Body quoted body)
      (hback : back = body ∨ back = body ++ ['\\']) :
    Marks (.text (.behind front) .openQuote) front '"' back
  | badEscape {opening body back quoted : List Char} {mark : Char} {statements : List Statement}
      {tokens : List Token} {worded : Bool}
      (hwritten : Scan.Written opening statements tokens worded)
      (hbody : Scan.Body quoted body) (hmark : ∀ meant, (meant, mark) ∉ Scan.escapes) :
    Marks (.statement (.behind (opening ++ '"' :: body)) (.invalidEscape mark))
      (opening ++ '"' :: body) '\\' (mark :: back)

variable {e : AssemblyError} {front back : List Char} {c : Char}

theorem Marks.position? (h : e.Marks front c back) : e.position? = some (.behind front) := by
  cases h with
  | token hplace => exact hplace
  | openQuote | badEscape => rfl

/-- What is marked does not end a line. -/
theorem Marks.ne_return (h : e.Marks front c back) : c ≠ '\n' ∧ c ≠ '\r' := by
  cases h with
  | token _ hbegins =>
    obtain ⟨statements, worded, -, rfl | ⟨-, -, -, -, hparts⟩⟩ := hbegins
    · decide
    · constructor <;> rintro rfl <;> exact hparts (.inr (by decide))
  | openQuote | badEscape => decide

/-- A token of a written text is marked by an error that names its place. -/
theorem marks_of_starts {text : List Char} {before : List Token} {token : Token}
    (h : Scan.Starts text before token) (hplace : e.position? = some token.position)
    (hfirst : before = [] ∨ ∃ label, before = [label] ∧ label.startsWith ':' = true) :
    ∃ front c back, text = front ++ c :: back ∧ e.Marks front c back := by
  obtain ⟨front, c, back, htext, hbegins, hposition⟩ := h
  exact ⟨front, c, back, htext, .token (hposition ▸ hplace) hbegins hfirst⟩

end AssemblyError

/-! ### The scanner -/

namespace Scan

variable {text : List Char} {s t : Scan} {e : AssemblyError} {c : Char}

/-- The scanner stops only behind a backslash. -/
theorem step_error (h : s.step c = .error e) :
    ∃ start cs mark, s.mode = .escape start cs mark ∧ unescape? c = none ∧
      e = .statement mark (.invalidEscape c) := by
  obtain ⟨mode, tokens, statements, p⟩ := s
  cases mode with
  | gap | word | comment | quote => cases h
  | escape start cs mark =>
    simp only [step] at h
    split at h
    · cases h
    · rename_i hnone
      exact ⟨start, cs, mark, rfl, hnone, (Except.error.inj h).symm⟩

/-- A backslash is read in a quote, and its place is noted. -/
theorem step_escape {start : Position} {cs : List Char} {mark : Position}
    (h : s.step c = .ok t) (hmode : t.mode = .escape start cs mark) :
    s.mode = .quote start cs ∧ c = '\\' ∧ mark = s.position := by
  obtain ⟨mode, tokens, statements, p⟩ := s
  cases mode with
  | gap | word =>
    obtain rfl := Except.ok.inj h
    unfold stepPlain at hmode
    dsimp only at hmode
    split at hmode
    · cases hmode
    · split at hmode
      · cases hmode
      · split at hmode
        · cases hmode
        · split at hmode
          · cases hmode
          · cases hmode
  | comment =>
    obtain rfl := Except.ok.inj h
    dsimp only at hmode
    split at hmode <;> cases hmode
  | quote start' cs' =>
    obtain rfl := Except.ok.inj h
    split at hmode
    · cases hmode
    · split at hmode
      · rename_i hc
        cases hmode
        exact ⟨rfl, hc, rfl⟩
      · cases hmode
  | escape start' cs' mark' =>
    simp only [step] at h
    split at h
    · obtain rfl := Except.ok.inj h
      cases hmode
    · cases h

theorem run_error {text : List Char} (h : s.run text = .error e) :
    ∃ front c back t, text = front ++ c :: back ∧ s.run front = .ok t ∧ t.step c = .error e := by
  induction text generalizing s with
  | nil => cases h
  | cons c rest ih =>
    cases hstep : s.step c with
    | error e' =>
      rw [run, List.foldlM_cons, hstep] at h
      obtain rfl := Except.error.inj h
      exact ⟨[], c, rest, s, rfl, rfl, hstep⟩
    | ok t =>
      rw [run_cons rest hstep] at h
      obtain ⟨front, d, back, u, rfl, hrun, herror⟩ := ih h
      exact ⟨c :: front, d, back, u, rfl, (run_cons front hstep).trans hrun, herror⟩

/-- Behind a backslash the text is a quote up to it. That the place of the backslash was noted is
seen from the step that read it. -/
theorem exists_of_escape {start : Position} {cs : List Char} {mark : Position}
    (hrun : Scan.start.run text = .ok s) (hmode : s.mode = .escape start cs mark) :
    ∃ opening body statements tokens worded, text = opening ++ '"' :: body ++ ['\\'] ∧
      start = .behind opening ∧ mark = .behind (opening ++ '"' :: body) ∧ Body cs.reverse body ∧
      Written opening statements tokens worded := by
  induction text using List.reverseRecOn with
  | nil =>
    obtain rfl := Except.ok.inj hrun
    cases hmode
  | append_singleton front c _ =>
    obtain ⟨t, hfront, hstep⟩ := exists_of_run_snoc hrun
    obtain ⟨hquote, rfl, rfl⟩ := step_escape hstep hmode
    have hreads := reads_run hfront
    rw [Reads, hquote] at hreads
    obtain ⟨opening, body, worded, rfl, hstart, hbody, hwritten⟩ := hreads
    exact ⟨opening, body, _, _, worded, rfl, hstart, position_of_run hfront, hbody, hwritten⟩

/-- An open statement has its first token in the text. -/
theorem starts_of_open {first : Token} (hreads : s.Reads text) (hmode : s.Open ∨ s.mode = .comment)
    (hfirst : s.allTokens.getLast? = some first) : Starts text [] first := by
  have htokens : s.allTokens.reverse = [] ++ first :: s.allTokens.reverse.tail := by
    rw [List.nil_append]
    exact (List.cons_head?_tail (by rw [List.head?_reverse, hfirst]; rfl)).symm
  rcases hmode with hopen | hcomment
  · obtain ⟨worded, hwritten⟩ := written_of_open hopen hreads
    exact (located_of_written hwritten).tokens _ _ _ htokens
  · have hall : s.allTokens = s.tokens := by rw [allTokens, hcomment]
    rw [Reads, hcomment] at hreads
    obtain ⟨front, note, worded, rfl, -, hwritten⟩ := hreads
    rw [hall] at htokens
    exact ((located_of_written hwritten).append _).tokens _ _ _ htokens

/-- A backslash that is refused is marked. -/
theorem marks_of_run (h : Scan.start.run text = .error e) :
    ∃ front c back, text = front ++ c :: back ∧ e.Marks front c back := by
  obtain ⟨front, c, back, t, rfl, hfront, hstep⟩ := run_error h
  obtain ⟨start, cs, mark, hmode, hnone, rfl⟩ := step_error hstep
  obtain ⟨opening, body, statements, tokens, worded, rfl, -, rfl, hbody, hwritten⟩ :=
    exists_of_escape hfront hmode
  have hmark : ∀ meant, (meant, c) ∉ escapes := by
    intro meant hmeant
    rw [unescape?_eq_some_iff.mpr hmeant] at hnone
    cases hnone
  exact ⟨opening ++ '"' :: body, '\\', c :: back, by simp, .badEscape hwritten hbody hmark⟩

/-- A text that ends too early has the beginning of what is open in it marked. -/
theorem marks_of_finish (hrun : Scan.start.run text = .ok s) (h : s.finish = .error e) :
    ∃ front c back, text = front ++ c :: back ∧ e.Marks front c back := by
  have hreads := reads_run hrun
  by_cases hopen : s.Open ∨ s.mode = .comment
  · cases hfirst : s.allTokens.getLast? with
    | none =>
      rw [finish_ok_iff.mpr ⟨hopen, List.getLast?_eq_none_iff.mp hfirst, rfl⟩] at h
      cases h
    | some first =>
      have hplace : e.position? = some first.position := by
        obtain (hmode | ⟨start, text, hmode⟩) | hmode := hopen <;>
          · rw [finish, hmode, hfirst] at h
            exact Except.error.inj h ▸ rfl
      exact AssemblyError.marks_of_starts (starts_of_open hreads hopen hfirst) hplace (.inl rfl)
  · cases hmode : s.mode with
    | gap => exact absurd (.inl (.inl hmode)) hopen
    | word start cs => exact absurd (.inl (.inr ⟨start, cs, hmode⟩)) hopen
    | comment => exact absurd (.inr hmode) hopen
    | quote start cs =>
      rw [finish, hmode] at h
      obtain rfl := Except.error.inj h
      rw [Reads, hmode] at hreads
      obtain ⟨front, body, worded, rfl, rfl, hbody, hwritten⟩ := hreads
      exact ⟨front, '"', body, rfl, .openQuote hwritten hbody (.inl rfl)⟩
    | escape start cs mark =>
      rw [finish, hmode] at h
      obtain rfl := Except.error.inj h
      obtain ⟨opening, body, statements, tokens, worded, rfl, rfl, -, hbody, hwritten⟩ :=
        exists_of_escape hrun hmode
      exact ⟨opening, '"', body ++ ['\\'], by simp, .openQuote hwritten hbody (.inr rfl)⟩

/-- What the scanner refuses it marks. -/
theorem marks_of_tokenize {source : String} (h : tokenize source = .error e) :
    ∃ front c back, source.toList = front ++ c :: back ∧ e.Marks front c back := by
  rcases bind_error_iff.mp h with hrun | ⟨s, hrun, hfinish⟩
  · exact marks_of_run hrun
  · exact marks_of_finish hrun hfinish

end Scan

/-! ### The first pass -/

namespace LayoutState

/-- The error names the place of the first token of the statement, or of the first one behind its
label. -/
def PointsInto (e : AssemblyError) (st : Statement) : Prop :=
  ∃ before token after, st.tokens = before ++ token :: after ∧
    e.position? = some token.position ∧
    (before = [] ∨ ∃ label, before = [label] ∧ label.startsWith ':' = true)

variable {s s' : LayoutState} {st : Statement} {e : AssemblyError} {position : Position}

theorem pointsInto_first (h : e.position? = some st.first.position) : PointsInto e st :=
  ⟨[], st.first, st.rest, rfl, h, .inl rfl⟩

theorem position_of_mapError {x : Except StatementError LayoutState} {e : AssemblyError}
    (h : x.mapError (.statement position) = .error e) : e.position? = some position := by
  obtain ⟨e', -, rfl⟩ := mapError_error_iff.mp h
  rfl

theorem pointsInto_of_step (h : s.step st = .error e) : PointsInto e st := by
  unfold step at h
  dsimp only at h
  split at h
  · exact pointsInto_first (position_of_mapError h)
  · split at h
    · exact pointsInto_first (position_of_mapError h)
    · split at h
      · rename_i hlabel
        split at h
        · obtain rfl := Except.error.inj h
          exact pointsInto_first rfl
        · rcases bind_error_iff.mp h with hbind | ⟨bound, -, h⟩
          · exact pointsInto_first (position_of_mapError hbind)
          · split at h
            · cases h
            · rename_i rest hrest
              -- What is wrong at once behind the label is reported where that begins.
              obtain ⟨token, others, htokens⟩ : ∃ token others, st.rest = token :: others := by
                cases htokens : st.rest with
                | nil => rw [htokens] at hrest; cases hrest
                | cons token others => exact ⟨token, others, rfl⟩
              rw [htokens] at hrest
              obtain rfl := Option.some.inj hrest
              refine ⟨[st.first], token, others, ?_, position_of_mapError h, .inr ⟨_, rfl, hlabel⟩⟩
              rw [Statement.tokens, htokens]
              rfl
      · exact pointsInto_first (position_of_mapError h)

/-- A statement adds items only that have its place. -/
theorem Changes.items (h : Changes position s s') :
    ∀ p ∈ s'.items, p ∈ s.items ∨ p.position = position := by
  induction h with
  | settings => exact fun p hp => .inl hp
  | bind name hbind =>
    obtain ⟨labels, -, rfl⟩ := bind_ok hbind
    exact fun p hp => .inl hp
  | place item size =>
    intro p hp
    rcases List.mem_cons.mp hp with rfl | hp
    · exact .inr rfl
    · exact .inl hp
  | trans _ _ ih ih' =>
    intro p hp
    rcases ih' p hp with hp | hposition
    · exact ih p hp
    · exact .inr hposition

/-- Every item has the place of a statement. -/
theorem placed_of_foldlM {statements : List Statement} (h : statements.foldlM step s = .ok s') :
    ∀ p ∈ s'.items, p ∈ s.items ∨ ∃ st ∈ statements, p.position = st.first.position := by
  induction statements generalizing s with
  | nil =>
    obtain rfl := Except.ok.inj h
    exact fun p hp => .inl hp
  | cons st rest ih =>
    rw [List.foldlM_cons] at h
    obtain ⟨next, hstep, h⟩ := bind_ok_iff.mp h
    intro p hp
    rcases ih h p hp with hp | ⟨other, hother, hposition⟩
    · rcases (changes_step hstep).items p hp with hp | hposition
      · exact .inl hp
      · exact .inr ⟨st, List.mem_cons_self, hposition⟩
    · exact .inr ⟨other, List.mem_cons_of_mem _ hother, hposition⟩

theorem pointsInto_of_foldlM {statements : List Statement}
    (h : statements.foldlM step s = .error e) : ∃ st ∈ statements, PointsInto e st := by
  induction statements generalizing s with
  | nil => cases h
  | cons st rest ih =>
    rw [List.foldlM_cons] at h
    rcases bind_error_iff.mp h with h | ⟨next, -, h⟩
    · exact ⟨st, List.mem_cons_self, pointsInto_of_step h⟩
    · obtain ⟨other, hother, hpoints⟩ := ih h
      exact ⟨other, List.mem_cons_of_mem _ hother, hpoints⟩

end LayoutState

/-! ### The second pass -/

theorem Emission.position_of_step {labels : LabelTable} {emission : Emission} {p : Placed}
    {e : AssemblyError} (h : step labels emission p = .error e) :
    e.position? = some p.position := by
  unfold step at h
  split at h
  · obtain ⟨e', -, rfl⟩ := mapError_error_iff.mp (map_error_iff.mp h)
    rfl
  · cases h
  · cases h
  · cases h

theorem Emission.position_of_foldlM {labels : LabelTable} {emission : Emission}
    {items : List Placed} {e : AssemblyError}
    (h : items.foldlM (step labels) emission = .error e) :
    ∃ p ∈ items, e.position? = some p.position := by
  induction items generalizing emission with
  | nil => cases h
  | cons p rest ih =>
    rw [List.foldlM_cons] at h
    rcases bind_error_iff.mp h with h | ⟨next, -, h⟩
    · exact ⟨p, List.mem_cons_self, position_of_step h⟩
    · obtain ⟨q, hq, hposition⟩ := ih h
      exact ⟨q, List.mem_cons_of_mem _ hq, hposition⟩

namespace Program

/-- What either pass refuses stands in a statement. -/
theorem pointsInto_of_assemble {statements : List Statement} {origin : UInt32} {e : AssemblyError}
    (h : (Layout.ofStatements origin.toNat statements >>= (·.program origin)) = .error e) :
    ∃ st ∈ statements, LayoutState.PointsInto e st := by
  rcases bind_error_iff.mp h with h | ⟨l, hlayout, h⟩
  · rcases bind_error_iff.mp h with h | ⟨s, -, h⟩
    · exact LayoutState.pointsInto_of_foldlM h
    · cases h
  · rcases bind_error_iff.mp h with h | ⟨bytes, -, h⟩
    · obtain ⟨s, hfold, hs⟩ := bind_ok_iff.mp hlayout
      obtain rfl := Except.ok.inj hs
      obtain ⟨p, hp, hplace⟩ := Emission.position_of_foldlM h
      rcases LayoutState.placed_of_foldlM hfold p (List.mem_reverse.mp hp) with hp |
        ⟨st, hst, hposition⟩
      · cases hp
      · exact ⟨st, hst, LayoutState.pointsInto_first (hplace.trans (congrArg some hposition))⟩
    · cases h

/-- Every error of an assembly marks a character of the source text. -/
theorem marks_of_assemble {source : String} {origin : UInt32} {e : AssemblyError}
    (haligned : origin.toNat % 4 = 0) (h : assemble source origin = .error e) :
    ∃ front c back, source.toList = front ++ c :: back ∧ e.Marks front c back := by
  have h := (if_neg (not_not.mpr haligned)).symm.trans h
  cases htokens : tokenize source with
  | error e' =>
    rw [layout, htokens] at h
    obtain rfl : e' = e := Except.error.inj h
    exact Scan.marks_of_tokenize htokens
  | ok statements =>
    rw [layout, htokens] at h
    obtain ⟨st, hst, before, token, after, hsplit, hplace, hfirst⟩ := pointsInto_of_assemble h
    obtain ⟨front, ending, worded, hsource, hwritten, -⟩ := Scan.renders_of_tokenize htokens
    have hlocated := (Scan.located_of_written hwritten).append ending
    rw [← hsource] at hlocated
    exact AssemblyError.marks_of_starts (hlocated.statements st hst before token after hsplit)
      hplace hfirst

/-- **Assembly errors point into the source.** Every error at an origin that is a multiple of four
names the place of a character of the source text, and that character is the first one of a token
that stands first in its statement or first behind a label, the quote that a text without an end
begins with, or the backslash of an escape that is none. The character is in the line that the
message shows, and the mark is under that line, but three columns or more to the left of it. -/
theorem assemble_error_marks {source : String} {origin : UInt32} {e : AssemblyError}
    (haligned : origin.toNat % 4 = 0) (h : assemble source origin = .error e) :
    ∃ front c back line, source.toList = front ++ c :: back ∧ e.Marks front c back ∧
      e.position? = some (.behind front) ∧
      Text.line? source (Position.behind front).line = some line ∧
      line.toList[(Position.behind front).column - 1]? = some c ∧
      ∀ name, Diagnostic.Shows (e.diagnostic name source) line (Position.behind front).column
        (max 4 (Nat.toDigits 10 (Position.behind front).line).length - 1) := by
  obtain ⟨front, c, back, hsource, hmarks⟩ := marks_of_assemble haligned h
  obtain ⟨hfeed, hreturn⟩ := hmarks.ne_return
  obtain ⟨line, hline, hwhole, hc⟩ := Text.line?_at hsource hfeed hreturn
  have hcolumn : (Position.behind front).column - 1 =
      (front.reverse.takeWhile (· != '\n')).length := Nat.add_sub_cancel _ _
  refine ⟨front, c, back, line, hsource, hmarks, hmarks.position?, hline, ?_, fun name => ?_⟩
  · rw [hcolumn]
    exact hc
  · exact AssemblyError.shows_diagnostic hmarks.position? hline hwhole name

theorem assemble_error_marks_unknown :
    ∃ e, assemble "halt;\n  bogus;\n" 96 = .error e ∧
      ∃ front back, "halt;\n  bogus;\n".toList = front ++ 'b' :: back ∧ e.Marks front 'b' back ∧
        e.position? = some ⟨2, 3⟩ ∧
        Diagnostic.Shows (e.diagnostic "bad.asm" "halt;\n  bogus;\n") "  bogus;" 3 3 := by
  have herror : assemble "halt;\n  bogus;\n" 96 =
      .error (.statement ⟨2, 3⟩ (.unknownInstruction "bogus")) := by decide +kernel
  obtain ⟨front, c, back, line, hsource, hmarks, hplace, hline, hc, hshows⟩ :=
    assemble_error_marks (by decide) herror
  have hposition : Position.behind front = ⟨2, 3⟩ := (Option.some.inj hplace).symm
  rw [hposition] at hline hc hshows
  have hbogus : Text.line? "halt;\n  bogus;\n" 2 = some "  bogus;" := by decide +kernel
  obtain rfl : line = "  bogus;" := Option.some.inj (hline.symm.trans hbogus)
  obtain rfl : 'b' = c := Option.some.inj hc
  exact ⟨_, herror, front, back, hsource, hmarks, rfl, hshows "bad.asm"⟩

/-- The mark does not stand under the character. -/
theorem mark_not_under_character :
    assemble "halt;\n  bogus;\n" 96 = .error (.statement ⟨2, 3⟩ (.unknownInstruction "bogus")) ∧
      Text.line? "halt;\n  bogus;\n" 2 = some "  bogus;" ∧
      ¬Diagnostic.Shows (AssemblyError.diagnostic
        (.statement ⟨2, 3⟩ (.unknownInstruction "bogus")) "bad.asm" "halt;\n  bogus;\n")
        "  bogus;" 3 0 := by
  refine ⟨by decide +kernel, by decide +kernel, ?_⟩
  rintro ⟨lines, gutter, blanks, hlines, hdistance⟩
  have hmessage : Text.splitLines [] (AssemblyError.diagnostic
      (.statement ⟨2, 3⟩ (.unknownInstruction "bogus")) "bad.asm" "halt;\n  bogus;\n").toList =
        ["error: invalid instruction name: bogus".toList, " --> bad.asm:2:3".toList, "  |".toList] ++
          ["   2 |   bogus;".toList, "  |   ^".toList, []] := by decide +kernel
  obtain ⟨-, hlast⟩ := List.append_inj' (hmessage.symm.trans hlines) rfl
  obtain ⟨hshown, hmark⟩ := List.cons.inj hlast
  have hwidth : 15 = gutter.length + 8 := by
    simpa using congrArg List.length hshown
  have hroom : 7 = blanks.length + 1 := by
    simpa using congrArg List.length (List.cons.inj hmark).1
  omega

end Program

end RegisterMachine
