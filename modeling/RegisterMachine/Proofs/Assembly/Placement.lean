import Mathlib
import RegisterMachine.Assembly.Layout
import RegisterMachine.Proofs.Assembly.IntegerLiteral

/-! What the first pass keeps.

Reading a statement changes the state in three ways only (`LayoutState.changes_step`):
it sets the section or the stack size, binds a label to the next free address, or gives
an item of the right size that address. What these keep is kept by the whole pass
(`Kept.ofStatements`), and so the items tile the program and the labels stand at whole
words of it. -/
namespace RegisterMachine

/-- The item has the size that its kind asks for. -/
def Placed.WellSized (p : Placed) : Prop :=
  match p.item with
  | .instruction m _ _ operands => ∃ words, m.wordCount operands = .ok words ∧ p.size = 4 * words
  | .data bytes => p.size = bytes.length ∧ bytes.length % 4 = 0
  | .dataHead => p.size = 4
  | .codeStart => p.size = 0

/-- An instruction statement is placed with the mnemonic and condition that its name means. -/
def Placed.WellNamed (p : Placed) : Prop :=
  match p.item with
  | .instruction m c name _ => Mnemonic.ofName? name = some (m, c)
  | .data _ | .dataHead | .codeStart => True

theorem Placed.WellSized.size_mod {p : Placed} (h : p.WellSized) : p.size % 4 = 0 := by
  obtain ⟨item, address, size, position⟩ := p
  cases item with
  | instruction m c name operands =>
    obtain ⟨counted, -, hsize⟩ := h
    have hsize : size = 4 * counted := hsize
    show size % 4 = 0
    omega
  | data bytes =>
    obtain ⟨hsize, hmod⟩ := h
    exact (congrArg (· % 4) hsize).trans hmod
  | dataHead => exact congrArg (· % 4) h
  | codeStart => exact congrArg (· % 4) h

theorem sum_size_mod {items : List Placed} (hsized : ∀ p ∈ items, p.WellSized) :
    (items.map Placed.size).sum % 4 = 0 := by
  induction items with
  | nil => rfl
  | cons p rest ih =>
    have hp := (hsized p List.mem_cons_self).size_mod
    have hrest := ih fun q hq => hsized q (List.mem_cons_of_mem _ hq)
    rw [List.map_cons, List.sum_cons]
    omega

/-- The items stand one behind the other, from one address up to another. -/
inductive Tiles : Nat → List Placed → Nat → Prop where
  | nil (address : Nat) : Tiles address [] address
  | cons {address stop : Nat} {p : Placed} {rest : List Placed} (haddress : p.address = address)
    (hrest : Tiles (address + p.size) rest stop) : Tiles address (p :: rest) stop

namespace Tiles

variable {start stop : Nat} {p : Placed} {items front back : List Placed}

theorem append {middle : Nat} (hfront : Tiles start front middle) (hback : Tiles middle back stop) :
    Tiles start (front ++ back) stop := by
  induction hfront with
  | nil => exact hback
  | cons haddress _ ih => exact .cons haddress (ih hback)

theorem stop_eq (h : Tiles start items stop) : stop = start + (items.map Placed.size).sum := by
  induction h with
  | nil => rfl
  | cons _ _ ih =>
    rw [ih, List.map_cons, List.sum_cons]
    omega

/-- An item stands behind those in front of it. -/
theorem address_eq (h : Tiles start items stop) (hitems : items = front ++ p :: back) :
    p.address = start + (front.map Placed.size).sum := by
  induction front generalizing start items with
  | nil =>
    subst hitems
    cases h with
    | cons haddress _ => exact haddress
  | cons q front ih =>
    subst hitems
    cases h with
    | cons _ hrest =>
      rw [ih hrest rfl, List.map_cons, List.sum_cons]
      omega

/-- Every address between the two belongs to an item. -/
theorem exists_at (h : Tiles start items stop) {address : Nat} (hstart : start ≤ address)
    (hstop : address < stop) :
    ∃ front p back, items = front ++ p :: back ∧ p.address ≤ address ∧
      address < p.address + p.size := by
  induction h with
  | nil start => omega
  | @cons start stop p rest haddress _ ih =>
    by_cases hhere : address < start + p.size
    · exact ⟨[], p, rest, rfl, by omega, by omega⟩
    · obtain ⟨front, q, back, rfl, hfrom, huntil⟩ := ih (by omega) hstop
      exact ⟨p :: front, q, back, rfl, hfrom, huntil⟩

/-- Items of their own sizes stand at whole words if the first one does. -/
theorem address_mod (h : Tiles start items stop) (hsized : ∀ p ∈ items, p.WellSized)
    (hstart : start % 4 = 0) (hitems : items = front ++ p :: back) : p.address % 4 = 0 := by
  have haddress := h.address_eq hitems
  have hfront : (front.map Placed.size).sum % 4 = 0 :=
    sum_size_mod fun q hq => hsized q (hitems ▸ List.mem_append_left _ hq)
  omega

end Tiles

/-! ### The first pass -/

/-- The three changes that the first pass makes to its state keep a property. Among its settings, a
stack size is never set to zero. -/
structure Kept (P : LayoutState → Prop) : Prop where
  settings : ∀ {s} current stackSize, P s → (s.stackSize ≠ some 0 → stackSize ≠ some 0) →
    P { s with current, stackSize }
  bind : ∀ {s s'} name, P s → s.bind name = .ok s' → P s'
  place : ∀ {s} item size position, P s →
    Placed.WellSized ⟨item, s.address, size, position⟩ →
    Placed.WellNamed ⟨item, s.address, size, position⟩ → P (s.place item size position)

theorem length_padWord (bytes : List UInt8) : (padWord bytes).length % 4 = 0 := by
  rw [padWord, List.length_append, List.length_replicate]
  omega

theorem DataDeclaration.length_of_parse {st : Statement} {name : String} {bytes : List UInt8}
    (h : DataDeclaration.parse st = .ok (name, bytes)) : bytes.length % 4 = 0 := by
  cases hrest : st.rest with
  | nil => simp [parse, hrest] at h
  | cons token values =>
    rw [parse, hrest] at h
    by_cases hquoted : token.quoted = true
    · exact absurd ((if_pos hquoted).symm.trans h) (by simp)
    · obtain ⟨unpadded, -, heq⟩ := map_ok_iff.mp ((if_neg hquoted).symm.trans h)
      obtain ⟨-, rfl⟩ := Prod.mk.inj heq
      exact length_padWord unpadded

/-- A call stack has room for a word at least. -/
theorem parseStackSize_ne_zero {token : Token} {size : UInt32}
    (h : parseStackSize token = .ok size) : size ≠ 0 := by
  obtain ⟨n, hn, h⟩ := bind_ok_iff.mp h
  obtain ⟨⟨-, hlt⟩, -⟩ := Literal.parse_int_iff.mp (Literal.parseInt_ok_iff.mp hn)
  by_cases hpositive : 1 ≤ n
  · rw [if_pos hpositive] at h
    obtain rfl := Except.ok.inj h
    intro hzero
    have hvalue := congrArg UInt32.toNat hzero
    have hsize : UInt32.size = 2 ^ 32 := rfl
    have hnone : (0 : UInt32).toNat = 0 := rfl
    rw [UInt32.ofInt, UInt32.toNat_ofNat', hnone] at hvalue
    omega
  · rw [if_neg hpositive] at h
    exact absurd h (by simp)

namespace LayoutState

/-- What a statement at this place does to the state: one change or several. -/
inductive Changes (position : Position) : LayoutState → LayoutState → Prop where
  | settings {s : LayoutState} (current : Section) (stackSize : Option UInt32)
      (h : s.stackSize ≠ some 0 → stackSize ≠ some 0) :
    Changes position s { s with current, stackSize }
  | bind {s s' : LayoutState} (name : String) (h : s.bind name = .ok s') : Changes position s s'
  | place {s : LayoutState} (item : Item) (size : Nat)
      (hsized : Placed.WellSized ⟨item, s.address, size, position⟩)
      (hnamed : Placed.WellNamed ⟨item, s.address, size, position⟩) :
    Changes position s (s.place item size position)
  | trans {s s' s'' : LayoutState} (h : Changes position s s') (h' : Changes position s' s'') :
    Changes position s s''

variable {s s' : LayoutState} {st : Statement} {position : Position}

theorem changes_header (hok : s.header st = .ok s') : Changes st.first.position s s' := by
  unfold header at hok
  split at hok
  · obtain rfl := Except.ok.inj hok
    exact .trans (.settings .data s.stackSize id) (.place _ _ rfl trivial)
  · obtain rfl := Except.ok.inj hok
    exact .trans (.settings .code s.stackSize id) (.place _ _ rfl trivial)
  · obtain rfl := Except.ok.inj hok
    exact .settings _ _ id
  · obtain ⟨n, hn, rfl⟩ := map_ok_iff.mp hok
    have hsize := parseStackSize_ne_zero (mapError_ok_iff.mp hn)
    exact .settings _ _ fun _ heq => hsize (Option.some.inj heq)
  · exact absurd hok (by simp)

theorem changes_stackStatement (hok : s.stackStatement st = .ok s') : Changes position s s' := by
  unfold stackStatement at hok
  split at hok
  · obtain ⟨n, hn, rfl⟩ := map_ok_iff.mp hok
    have hsize := parseStackSize_ne_zero (mapError_ok_iff.mp hn)
    exact .settings _ _ fun _ heq => hsize (Option.some.inj heq)
  · exact absurd hok (by simp)

theorem changes_dataStatement (hok : s.dataStatement position st = .ok s') :
    Changes position s s' := by
  obtain ⟨⟨name, bytes⟩, hparse, hok⟩ := bind_ok_iff.mp hok
  obtain ⟨bound, hbind, hok⟩ := bind_ok_iff.mp hok
  obtain rfl := Except.ok.inj hok
  have hsized : bytes.length % 4 = 0 := DataDeclaration.length_of_parse hparse
  exact .trans (.bind name hbind) (.place _ _ ⟨rfl, hsized⟩ trivial)

theorem changes_codeStatement (hok : s.codeStatement position st = .ok s') :
    Changes position s s' := by
  unfold codeStatement at hok
  dsimp only at hok
  split at hok
  · exact absurd hok (by simp)
  · rename_i m condition hname
    obtain ⟨words, hwords, hok⟩ := bind_ok_iff.mp hok
    obtain rfl := Except.ok.inj hok
    refine .place _ _ ⟨words, mapError_ok_iff.mp hwords, rfl⟩ ?_
    exact (Option.ite_none_left_eq_some.mp hname).2

theorem changes_body (hok : s.body position st = .ok s') : Changes position s s' := by
  have hok := mapError_ok_iff.mp hok
  split at hok
  · exact changes_dataStatement hok
  · exact changes_codeStatement hok

/-- One statement makes changes at its own place only. -/
theorem changes_step (hok : s.step st = .ok s') : Changes st.first.position s s' := by
  unfold step at hok
  dsimp only at hok
  split at hok
  · exact changes_header (mapError_ok_iff.mp hok)
  · split at hok
    · exact changes_stackStatement (mapError_ok_iff.mp hok)
    · split at hok
      · split at hok
        · exact absurd hok (by simp)
        · obtain ⟨bound, hbind, hok⟩ := bind_ok_iff.mp hok
          have hbound : Changes st.first.position s bound := .bind _ (mapError_ok_iff.mp hbind)
          split at hok
          · exact Except.ok.inj hok ▸ hbound
          · exact hbound.trans (changes_body hok)
      · exact changes_body hok

end LayoutState

namespace Kept

variable {P : LayoutState → Prop} {s s' : LayoutState} {position : Position}

theorem changes (h : Kept P) (hs : P s) (hchanges : LayoutState.Changes position s s') : P s' := by
  induction hchanges with
  | settings current stackSize hsize => exact h.settings current stackSize hs hsize
  | bind name hbind => exact h.bind name hs hbind
  | place item size hsized hnamed => exact h.place item size _ hs hsized hnamed
  | trans _ _ ih ih' => exact ih' (ih hs)

theorem foldlM (h : Kept P) (hs : P s) {statements : List Statement}
    (hok : statements.foldlM LayoutState.step s = .ok s') : P s' := by
  induction statements generalizing s with
  | nil => exact Except.ok.inj hok ▸ hs
  | cons st rest ih =>
    rw [List.foldlM_cons] at hok
    obtain ⟨next, hstep, hok⟩ := bind_ok_iff.mp hok
    exact ih (h.changes hs (LayoutState.changes_step hstep)) hok

/-- What the three changes keep holds at the end of the pass if it holds at its start. -/
theorem ofStatements (h : Kept P) {origin : Nat} (hstart : P (.start origin))
    {statements : List Statement} {l : Layout}
    (hok : Layout.ofStatements origin statements = .ok l) :
    ∃ s, P s ∧ l = ⟨s.items.reverse, s.labels, s.stackSize, s.address - origin⟩ := by
  obtain ⟨s, hfold, hok⟩ := bind_ok_iff.mp hok
  exact ⟨s, h.foldlM hstart hfold, (Except.ok.inj hok).symm⟩

end Kept

/-! ### Where the items stand -/

/-- The items tile what has been laid out so far, each with its own size. -/
structure LayoutState.Tiled (origin : Nat) (s : LayoutState) : Prop where
  tiles : Tiles origin s.items.reverse s.address
  wellSized : ∀ p ∈ s.items, p.WellSized

theorem LayoutState.bind_ok {s s' : LayoutState} {name : String} (h : s.bind name = .ok s') :
    ∃ labels, s.labels.define name (UInt32.ofNat s.address) = .ok labels ∧
      s' = { s with labels } := by
  obtain ⟨labels, hlabels, rfl⟩ := map_ok_iff.mp h
  exact ⟨labels, mapError_ok_iff.mp hlabels, rfl⟩

theorem kept_tiled (origin : Nat) : Kept (LayoutState.Tiled origin) where
  settings _ _ h _ := ⟨h.tiles, h.wellSized⟩
  bind name h hok := by
    obtain ⟨labels, -, rfl⟩ := LayoutState.bind_ok hok
    exact ⟨h.tiles, h.wellSized⟩
  place item size position h hsized _ := by
    constructor
    · show Tiles origin (_ :: _).reverse _
      rw [List.reverse_cons]
      exact h.tiles.append (.cons rfl (.nil _))
    · intro p hp
      rcases List.mem_cons.mp hp with rfl | hp
      · exact hsized
      · exact h.wellSized p hp

theorem tiled_start (origin : Nat) : (LayoutState.start origin).Tiled origin :=
  ⟨.nil _, fun _ hp => absurd hp List.not_mem_nil⟩

end RegisterMachine
