import RegisterMachine.Proofs.Assembly.Scanning
import RegisterMachine.Proofs.Text.LetterCase

/-! Source texts in lower case.

A source text is put in lower case outside of its quotes (`Source.lower`). Which characters
stand in quotes is told by marks alone, and these have no case. So the scanner goes through
the same modes, and finds the same tokens in lower case (`tokenize_lower`). -/
namespace RegisterMachine

namespace Source

/-- What a character of a source text stands in. -/
inductive Place where
  | code
  | comment
  | quote
  /-- Behind a backslash in a quote. -/
  | escape
  deriving DecidableEq

namespace Place

/-- The place behind a character. -/
def next : Place → Char → Place
  | .code, c => if c = '#' then .comment else if c = '"' then .quote else .code
  | .comment, c => if c = '\n' then .code else .comment
  | .quote, c => if c = '"' then .code else if c = '\\' then .escape else .quote
  | .escape, _ => .quote

/-- The character, in lower case outside of quotes. -/
def lowerChar : Place → Char → Char
  | .code, c | .comment, c => c.toLower
  | .quote, c | .escape, c => c

/-- The characters from a place on, in lower case outside of quotes. -/
def lower : Place → List Char → List Char
  | _, [] => []
  | place, c :: rest => place.lowerChar c :: lower (place.next c) rest

end Place

/-- The text with the letters outside of its quotes in lower case. -/
def lower (source : String) : String := String.ofList (Place.code.lower source.toList)

/-- The texts differ only in the case of letters outside of quotes. -/
def Recased (source source' : String) : Prop := lower source = lower source'

instance (source source' : String) : Decidable (Recased source source') :=
  inferInstanceAs (Decidable (_ = _))

end Source

/-! ### Characters -/

theorem isBlank_toLower (c : Char) : Text.isBlank c.toLower = Text.isBlank c := by
  cases halpha : c.isAlpha with
  | false => rw [toLower_of_not_isAlpha halpha]
  | true =>
    have hlower : c.toLower.isAlpha = true := (Char.isAlpha_toLower_eq_isAlpha c).trans halpha
    rw [Text.isBlank_of_isAlphanum (by rw [Char.isAlphanum, hlower, Bool.true_or]),
      Text.isBlank_of_isAlphanum (by rw [Char.isAlphanum, halpha, Bool.true_or])]

theorem parts_toLower {c : Char} : Scan.Parts c.toLower ↔ Scan.Parts c := by
  rw [Scan.Parts, Scan.Parts, toLower_eq_iff _ (by decide), isBlank_toLower]

theorem Position.after_toLower (p : Position) (c : Char) : p.after c.toLower = p.after c := by
  simp only [Position.after, toLower_eq_iff '\n' (by decide)]

/-! ### Tokens -/

namespace Token

/-- The token in lower case, unless it stood in quotes. -/
def lower (token : Token) : Token :=
  if token.quoted then token else { token with text := token.text.map Char.toLower }

variable (token : Token)

@[simp] theorem lower_quoted : token.lower.quoted = token.quoted := by
  unfold lower
  split <;> rfl

@[simp] theorem lower_position : token.lower.position = token.position := by
  unfold lower
  split <;> rfl

/-- What is read of a text in any case is read of the token in lower case. -/
theorem lower_congr {α : Type} (read : String → α)
    (hread : ∀ text : String, read (text.map Char.toLower) = read text) :
    read token.lower.text = read token.text := by
  unfold lower
  split
  · rfl
  · exact hread token.text

theorem startsWith_lower {mark : Char} (hmark : mark.isAlpha = false) :
    token.lower.startsWith mark = token.startsWith mark := by
  have hhead : ∀ text : String, ((text.map Char.toLower).toList.head? == some mark) =
      (text.toList.head? == some mark) := by
    intro text
    rw [String.toList_map, List.head?_map]
    cases text.toList.head? with
    | none => rfl
    | some c =>
      rw [Bool.eq_iff_iff]
      simp [toLower_eq_iff mark hmark]
  rw [startsWith, startsWith, lower_quoted,
    token.lower_congr (fun text => text.toList.head? == some mark) hhead]

theorem lower_map_toLower :
    token.lower.text.map Char.toLower = token.text.map Char.toLower :=
  token.lower_congr _ map_toLower_map_toLower

theorem lower_tail_map_toLower :
    token.lower.tail.map Char.toLower = token.tail.map Char.toLower := by
  refine token.lower_congr (fun text =>
    (String.ofList text.toList.tail).map Char.toLower) fun text => ?_
  rw [String.toList_map, ← List.map_tail, map_ofList_toLower, map_ofList_toLower, List.map_map]
  exact congrArg (fun f => String.ofList (text.toList.tail.map f))
    (funext Char.toLower_toLower_eq_toLower)

theorem lower_tail_isEmpty : token.lower.tail.isEmpty = token.tail.isEmpty := by
  refine token.lower_congr (fun text => (String.ofList text.toList.tail).isEmpty)
    fun text => ?_
  rw [Bool.eq_iff_iff, String.isEmpty_iff, String.isEmpty_iff, String.ofList_eq_empty_iff,
    String.ofList_eq_empty_iff, String.toList_map, ← List.map_tail, List.map_eq_nil_iff]

end Token

def Statement.lower (s : Statement) : Statement := ⟨s.first.lower, s.rest.map Token.lower⟩

theorem Statement.ofTokens?_lower (tokens : List Token) :
    ofTokens? (tokens.map Token.lower) = (ofTokens? tokens).map lower := by
  cases tokens <;> rfl

/-! ### Scanning -/

def Mode.lower : Mode → Mode
  | .word start text => .word start (text.map Char.toLower)
  | mode => mode

/-- What the next character stands in. -/
def Mode.place : Mode → Source.Place
  | .gap | .word _ _ => .code
  | .comment => .comment
  | .quote _ _ => .quote
  | .escape _ _ _ => .escape

namespace Scan

open Source

/-- The scanner on the text in lower case. -/
def lower (s : Scan) : Scan :=
  ⟨s.mode.lower, s.tokens.map Token.lower, s.statements.map Statement.lower, s.position⟩

variable {s t : Scan} {c : Char}

theorem allTokens_lower (s : Scan) : s.lower.allTokens = s.allTokens.map Token.lower := by
  obtain ⟨mode, tokens, statements, position⟩ := s
  cases mode with
  | word start text =>
    have hword : Token.lower ⟨String.ofList text.reverse, start, false⟩ =
        ⟨String.ofList (text.map Char.toLower).reverse, start, false⟩ := by
      rw [Token.lower, if_neg (by simp), map_ofList_toLower, List.map_reverse]
    show _ = List.map _ (_ :: _)
    rw [List.map_cons, hword]
    rfl
  | gap | comment | quote | escape => rfl

theorem allStatements_lower (s : Scan) :
    s.lower.allStatements = s.allStatements.map Statement.lower := by
  rw [allStatements, allStatements, allTokens_lower, ← List.map_reverse,
    Statement.ofTokens?_lower]
  cases Statement.ofTokens? s.allTokens.reverse <;> rfl

theorem stepPlain_lower (s : Scan) (c : Char) :
    s.lower.stepPlain c.toLower = (s.stepPlain c).lower := by
  have hposition : s.lower.position.after c.toLower = s.position.after c :=
    Position.after_toLower _ _
  have hparts : c.toLower = ',' ∨ Text.isBlank c.toLower = true ↔ c = ',' ∨ Text.isBlank c = true :=
    parts_toLower
  unfold stepPlain
  simp only [toLower_eq_iff '#' (by decide), toLower_eq_iff '"' (by decide),
    toLower_eq_iff ';' (by decide), hposition, hparts, allTokens_lower,
    allStatements_lower]
  split
  · rfl
  · split
    · rfl
    · split
      · rfl
      · split
        · rfl
        · obtain ⟨mode, tokens, statements, position⟩ := s
          cases mode <;> rfl

/-- The scanner goes from mode to mode as the characters from place to place. -/
theorem step_place (h : s.step c = .ok t) : t.mode.place = s.mode.place.next c := by
  obtain ⟨mode, tokens, statements, position⟩ := s
  have hplain : ∀ s : Scan, (s.stepPlain c).mode.place = Place.code.next c := by
    intro s
    show _ = ite _ _ _
    unfold stepPlain
    dsimp only
    split
    · rfl
    · split
      · rfl
      · split
        · rfl
        · split
          · rfl
          · split <;> rfl
  cases mode with
  | gap | word =>
    obtain rfl := Except.ok.inj h
    exact hplain _
  | comment =>
    obtain rfl := Except.ok.inj h
    show (ite _ _ _ : Mode).place = ite _ _ _
    split <;> rfl
  | quote =>
    obtain rfl := Except.ok.inj h
    show Mode.place (mode (ite _ _ _)) = ite _ _ _
    split
    · rfl
    · split <;> rfl
  | escape =>
    simp only [step] at h
    split at h
    · obtain rfl := Except.ok.inj h
      rfl
    · cases h

theorem step_lower (s : Scan) (c : Char) :
    s.lower.step (s.mode.place.lowerChar c) = (s.step c).map lower := by
  obtain ⟨mode, tokens, statements, position⟩ := s
  cases mode with
  | gap | word => exact congrArg Except.ok (stepPlain_lower _ c)
  | comment =>
    have hposition : position.after c.toLower = position.after c := Position.after_toLower _ _
    show Except.ok (Scan.mk (ite (c.toLower = '\n') _ _) _ _ (position.after c.toLower)) = _
    rw [hposition]
    simp only [toLower_eq_iff '\n' (by decide)]
    by_cases hend : c = '\n'
    · simp only [if_pos hend, step, Except.map]
      rfl
    · simp only [if_neg hend, step, Except.map]
      rfl
  | quote start text =>
    refine congrArg Except.ok ?_
    show ite (c = '"') _ (ite (c = '\\') _ _) = lower (ite (c = '"') _ (ite (c = '\\') _ _))
    split
    · rfl
    · split <;> rfl
  | escape start text mark =>
    have hchar : (Mode.escape start text mark).place.lowerChar c = c := rfl
    simp only [step, lower, Mode.lower, hchar]
    cases unescape? c <;> rfl

theorem run_lower (s : Scan) (text : List Char) :
    s.lower.run (s.mode.place.lower text) = (s.run text).map lower := by
  induction text generalizing s with
  | nil => rfl
  | cons c rest ih =>
    rw [Place.lower, run, run, List.foldlM_cons, List.foldlM_cons, step_lower]
    cases hstep : s.step c with
    | error e => rfl
    | ok t =>
      rw [← step_place hstep]
      exact ih t

theorem finish_lower (s : Scan) : s.lower.finish = s.finish.map (List.map Statement.lower) := by
  have htokens : s.lower.allTokens.getLast? = s.allTokens.getLast?.map Token.lower := by
    rw [allTokens_lower, List.getLast?_map]
  have hstatements : s.lower.statements = s.statements.map Statement.lower := rfl
  have hmode : s.lower.mode = s.mode.lower := rfl
  rw [finish, finish, htokens, hmode, hstatements]
  cases s.mode with
  | quote | escape => rfl
  | gap | word | comment =>
    cases s.allTokens.getLast? with
    | none => exact congrArg Except.ok (List.map_reverse).symm
    | some first =>
      have hplace : first.lower.position = first.position := first.lower_position
      simp only [Mode.lower, Option.map_some, hplace]
      rfl

end Scan

/-- The tokens of the text in lower case are its tokens in lower case. -/
theorem tokenize_lower (source : String) :
    tokenize (Source.lower source) = (tokenize source).map (List.map Statement.lower) := by
  have hrun := Scan.run_lower .start source.toList
  rw [show Scan.start.lower = Scan.start from rfl,
    show Scan.start.mode.place = Source.Place.code from rfl] at hrun
  rw [tokenize, tokenize, Source.lower, String.toList_ofList, hrun]
  cases Scan.start.run source.toList with
  | error e => rfl
  | ok s => exact s.finish_lower

end RegisterMachine
