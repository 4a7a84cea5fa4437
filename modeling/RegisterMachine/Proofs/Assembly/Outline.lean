import RegisterMachine.Proofs.Assembly.LabelOperand

/-! What the statements of a source text say.

A statement is a header, the size of a stack, or something to be placed, behind a label or alone.
Which of these it is, which names it binds (`names`) and what it takes a place for (`Becomes`)
depends on nothing but the statement and the section that it stands in, and that section on the
statements in front of it (`Section.behind`). The first pass reads them so: it places one item for
every statement that takes a place, in their order, and binds the names of each statement to the
next free address (`reads_step`). So a text may be parted anywhere, and the items part in the same
place (`parts_of_layout`). -/
namespace RegisterMachine

/-! ### Statements in their sections -/

namespace Statement

variable {st : Statement}

/-- The name of a header. -/
def header? (st : Statement) : Option String :=
  if st.first.startsWith '.' then some (st.first.tail.map Char.toLower) else none

/-- The label in front of a statement. -/
def label? (st : Statement) : Option String :=
  if st.first.startsWith ':' then some st.first.tail else none

/-- What stands behind the label, if anything does. -/
def body? (st : Statement) : Option Statement :=
  if st.first.startsWith ':' then Statement.ofTokens? st.rest else some st

/-- Among data, what stands behind a label declares the name behind its kind. -/
def declared (body : Statement) (current : Section) : Option String :=
  if current = .data then body.rest.head?.map Token.text else none

/-- The names that a statement binds in this section. -/
def names (st : Statement) (current : Section) : List String :=
  if st.header? = none ∧ current ≠ .stack then
    st.label?.toList ++ (st.body?.bind (·.declared current)).toList
  else []

/-- Whether a statement takes a place in this section. -/
def places (st : Statement) (current : Section) : Bool :=
  match st.header? with
  | some name => name = "data" ∨ name = "code"
  | none => current ≠ .stack && st.body?.isSome

end Statement

/-- The section that the next statement stands in. -/
def Section.after (current : Section) (st : Statement) : Section :=
  match st.header? with
  | some name =>
    if name = "data" then .data
    else if name = "code" then .code
    else if st.rest.isEmpty then .stack
    else current
  | none => if current = .stack then .code else current

/-- The section that stands behind these statements. -/
def Section.behind (statements : List Statement) : Section :=
  statements.foldl Section.after .code

/-- The statements that take a place, each with the section it stands in. -/
def placing (current : Section) : List Statement → List (Section × Statement)
  | [] => []
  | st :: rest =>
    if st.places current then (current, st) :: placing (current.after st) rest
    else placing (current.after st) rest

theorem placing_append (current : Section) (front back : List Statement) :
    placing current (front ++ back) =
      placing current front ++ placing (front.foldl Section.after current) back := by
  induction front generalizing current with
  | nil => rfl
  | cons st rest ih =>
    simp only [List.cons_append, placing, List.foldl_cons, ih]
    split <;> rfl

/-! ### What a statement becomes -/

/-- The values of a declaration of this kind stand for these bytes. -/
inductive DataDeclaration.Encodes : String → List Token → List UInt8 → Prop where
  /-- A text in quotes, and a zero behind it. -/
  | string {value : Token} (hquoted : value.quoted = true) :
    Encodes "string" [value] (Text.utf8 value.text ++ [0])
  /-- An integer as a word, its lowest byte in front. -/
  | int {value : Token} {n : Int} (hvalue : Literal.parse value.text = .ok (.int n)) :
    Encodes "int" [value] (LittleEndian.wordBytes (UInt32.ofInt n))
  | float {value : Token} {bits : UInt32} (hvalue : Literal.parse value.text = .ok (.float bits)) :
    Encodes "float" [value] (LittleEndian.wordBytes bits)
  /-- An integer that a float is declared with is converted. -/
  | floatOfInt {value : Token} {n : Int} (hvalue : Literal.parse value.text = .ok (.int n)) :
    Encodes "float" [value] (LittleEndian.wordBytes (Float32.ofInt n).toBits)
  /-- Integers of eight bits, with a sign or without one. -/
  | bytes {values : List Token} {bytes : List UInt8}
    (hvalues : List.Forall₂ (fun value byte => ∃ n : Int,
      Literal.parse value.text = .ok (.int n) ∧ -128 ≤ n ∧ n < 256 ∧ byte = UInt8.ofInt n)
      values bytes) :
    Encodes "bytes" values bytes

/-- What stands behind a label in this section is this item. -/
inductive Statement.Means (body : Statement) : Section → Item → Prop where
  | data {name : Token} {values : List Token} {bytes : List UInt8}
    (hrest : body.rest = name :: values)
    (hbytes : DataDeclaration.Encodes (body.first.text.map Char.toLower) values bytes) :
    Means body .data (.data (padWord bytes))
  | instruction {m : Mnemonic} {c : Condition}
    (hname : Mnemonic.ofName? body.first.text = some (m, c)) :
    Means body .code (.instruction m c body.first.text body.rest)

/-- A statement takes its place in this section for this item. -/
inductive Statement.Becomes (st : Statement) (current : Section) : Item → Prop where
  | dataHead (hheader : st.header? = some "data") : Becomes st current .dataHead
  | codeStart (hheader : st.header? = some "code") : Becomes st current .codeStart
  | body {body : Statement} {item : Item} (hheader : st.header? = none)
    (hbody : st.body? = some body) (hmeans : body.Means current item) : Becomes st current item

/-- The item is placed for the statement. -/
structure StandsFor (q : Section × Statement) (p : Placed) : Prop where
  becomes : q.2.Becomes q.1 p.item
  position : p.position = q.2.first.position

/-! ### The first pass -/

theorem toUInt8_ofInt_mod (n : Int) :
    (UInt32.ofInt (n % (1 <<< 8 : Nat))).toUInt8 = UInt8.ofInt n := by
  have hsize : ((1 <<< 8 : Nat) : Int) = 2 ^ 8 := rfl
  apply UInt8.toNat_inj.mp
  rw [UInt32.toNat_toUInt8, UInt32.ofInt, UInt32.toNat_ofNat', UInt8.ofInt, UInt8.toNat_ofNat',
    hsize]
  norm_num only
  omega

theorem Literal.byte_of_parseField {text : String} {field : UInt32}
    (h : parseField 8 text = .ok field) : ∃ n : Int,
      parse text = .ok (.int n) ∧ -128 ≤ n ∧ n < 256 ∧ field.toUInt8 = UInt8.ofInt n := by
  obtain ⟨n, hn, h⟩ := bind_ok_iff.mp h
  dsimp only at h
  split at h
  · rename_i hrange
    obtain ⟨hlow, hhigh⟩ := hrange
    obtain rfl := Except.ok.inj h
    exact ⟨n, parseInt_ok_iff.mp hn, hlow, hhigh, toUInt8_ofInt_mod n⟩
  · cases h

theorem forall₂_of_mapM {α β ε : Type} {f : α → Except ε β} {as : List α} {bs : List β}
    (h : as.mapM f = .ok bs) : List.Forall₂ (fun a b => f a = .ok b) as bs := by
  induction as generalizing bs with
  | nil =>
    obtain rfl := Except.ok.inj h
    exact .nil
  | cons a rest ih =>
    rw [List.mapM_cons] at h
    obtain ⟨b, hb, h⟩ := bind_ok_iff.mp h
    obtain ⟨others, hothers, h⟩ := bind_ok_iff.mp h
    obtain rfl := Except.ok.inj h
    exact .cons hb (ih hothers)

namespace DataDeclaration

variable {kind name : String} {values : List Token} {bs : List UInt8}

theorem single_ok {value : Token} (h : single kind name values = .ok value) : values = [value] := by
  match values, h with
  | [_], h => rw [Except.ok.inj h]

theorem encodes_of_bytes (h : bytes kind name values = .ok bs) : Encodes kind values bs := by
  unfold bytes at h
  split at h
  · obtain ⟨value, hvalue, hbytes⟩ := bind_ok_iff.mp h
    obtain rfl := single_ok hvalue
    split at hbytes
    · rename_i hquoted
      exact Except.ok.inj hbytes ▸ .string hquoted
    · cases hbytes
  · obtain ⟨value, hvalue, hbytes⟩ := bind_ok_iff.mp h
    obtain rfl := single_ok hvalue
    obtain ⟨n, hn, hbytes⟩ := bind_ok_iff.mp hbytes
    exact Except.ok.inj hbytes ▸ .int (Literal.parseInt_ok_iff.mp (mapError_ok_iff.mp hn))
  · obtain ⟨value, hvalue, hbytes⟩ := bind_ok_iff.mp h
    obtain rfl := single_ok hvalue
    obtain ⟨literal, hliteral, hbytes⟩ := bind_ok_iff.mp hbytes
    have hliteral := mapError_ok_iff.mp hliteral
    cases literal with
    | int n => exact Except.ok.inj hbytes ▸ .floatOfInt hliteral
    | float bits => exact Except.ok.inj hbytes ▸ .float hliteral
  · split at h
    · cases h
    · refine .bytes ((forall₂_of_mapM h).imp fun value byte hbyte => ?_)
      obtain ⟨field, hfield, rfl⟩ := map_ok_iff.mp hbyte
      exact Literal.byte_of_parseField (mapError_ok_iff.mp hfield)
  · cases h

/-- What a declaration binds and takes a place for. -/
theorem parse_ok {body : Statement} (h : parse body = .ok (name, bs)) :
    body.declared .data = some name ∧ body.Means .data (.data bs) := by
  unfold parse at h
  dsimp only at h
  split at h
  · cases h
  · rename_i token values hrest
    split at h
    · cases h
    · obtain ⟨unpadded, hbytes, heq⟩ := map_ok_iff.mp h
      obtain ⟨rfl, rfl⟩ := Prod.mk.inj heq
      exact ⟨by simp [Statement.declared, hrest], .data hrest (encodes_of_bytes hbytes)⟩

end DataDeclaration

namespace LabelTable

variable {t t' : LabelTable} {names : List String} {address : UInt32}

/-- Binds names to an address, one after the other. -/
def defineAll (t : LabelTable) (names : List String) (address : UInt32) :
    Except LabelError LabelTable :=
  names.foldlM (fun t name => t.define name address) t

theorem old_of_define {name : String} (h : t.define name address = .ok t') {old : UInt32}
    (hold : t.lookup? name = some old) : old = address := by
  by_contra hne
  rw [define, hold] at h
  exact absurd ((if_pos hne).symm.trans h) (by simp)

/-- What was bound stays bound so, and what is bound in addition is these names. -/
theorem find?_of_defineAll (h : t.defineAll names address = .ok t') {key : String} {a : UInt32} :
    t'.find? key = some a ↔
      t.find? key = some a ∨ (∃ name ∈ names, name.map Char.toLower = key) ∧ a = address := by
  induction names generalizing t with
  | nil =>
    obtain rfl := Except.ok.inj h
    simp
  | cons name rest ih =>
    rw [defineAll, List.foldlM_cons] at h
    obtain ⟨next, hdefine, h⟩ := bind_ok_iff.mp h
    rw [ih h, define_ok hdefine, find?_insert]
    by_cases hkey : key = name.map Char.toLower
    · have hold : t.find? key = some a → a = address := fun hfind =>
        old_of_define hdefine (show t.find? (name.map Char.toLower) = some a from hkey ▸ hfind)
      rw [if_pos hkey, Option.some.injEq]
      grind
    · grind

end LabelTable

namespace LayoutState

variable {s s' : LayoutState} {st body : Statement} {position : Position} {name : String}

/-- What the first pass does when it reads a statement: the statement leaves the section that it
leaves, its names are bound to the next free address, and if it takes a place it gets one. -/
structure Reads (s : LayoutState) (st : Statement) (s' : LayoutState) : Prop where
  current : s'.current = s.current.after st
  labels : s.labels.defineAll (st.names s.current) (UInt32.ofNat s.address) = .ok s'.labels
  items : ∃ placed, s'.items.reverse = s.items.reverse ++ placed ∧
    List.Forall₂ StandsFor (placing s.current [st]) placed

/-- Nothing is placed for a statement that takes no place. -/
theorem exists_placed_nil (hitems : s'.items = s.items) (hplaces : st.places s.current = false) :
    ∃ placed, s'.items.reverse = s.items.reverse ++ placed ∧
      List.Forall₂ StandsFor (placing s.current [st]) placed := by
  refine ⟨[], by rw [hitems, List.append_nil], ?_⟩
  rw [placing, if_neg (by simp [hplaces])]
  exact .nil

theorem exists_placed (item : Item) (size : Nat) (hplaces : st.places s.current = true)
    (hbecomes : st.Becomes s.current item) (hitems : s'.items =
      ⟨item, s.address, size, st.first.position⟩ :: s.items) :
    ∃ placed, s'.items.reverse = s.items.reverse ++ placed ∧
      List.Forall₂ StandsFor (placing s.current [st]) placed := by
  refine ⟨[⟨item, s.address, size, st.first.position⟩], by rw [hitems, List.reverse_cons], ?_⟩
  rw [placing, if_pos hplaces]
  exact .cons ⟨hbecomes, rfl⟩ .nil

/-- A header binds nothing. -/
theorem reads_header (hmark : st.first.startsWith '.' = true) (h : s.header st = .ok s') :
    s.Reads st s' := by
  have hheader : st.header? = some (st.first.tail.map Char.toLower) := if_pos hmark
  have hnames : st.names s.current = [] := by simp [Statement.names, hheader]
  unfold header at h
  split at h
  · rename_i hname hrest
    obtain rfl := Except.ok.inj h
    rw [hname] at hheader
    refine ⟨by simp [place, Section.after, hheader], by rw [hnames]; rfl, ?_⟩
    exact exists_placed .dataHead 4 (by simp [Statement.places, hheader]) (.dataHead hheader) rfl
  · rename_i hname hrest
    obtain rfl := Except.ok.inj h
    rw [hname] at hheader
    refine ⟨by simp [place, Section.after, hheader], by rw [hnames]; rfl, ?_⟩
    exact exists_placed .codeStart 0 (by simp [Statement.places, hheader]) (.codeStart hheader) rfl
  · rename_i hname hrest
    obtain rfl := Except.ok.inj h
    rw [hname] at hheader
    refine ⟨by simp [Section.after, hheader, hrest], by rw [hnames]; rfl, ?_⟩
    exact exists_placed_nil rfl (by simp [Statement.places, hheader])
  · rename_i size hname hrest
    obtain ⟨n, -, rfl⟩ := map_ok_iff.mp h
    rw [hname] at hheader
    refine ⟨by simp [Section.after, hheader, hrest], by rw [hnames]; rfl, ?_⟩
    exact exists_placed_nil rfl (by simp [Statement.places, hheader])
  · cases h

theorem reads_stackStatement (hheader : st.header? = none) (hcurrent : s.current = .stack)
    (h : s.stackStatement st = .ok s') : s.Reads st s' := by
  unfold stackStatement at h
  split at h
  · obtain ⟨n, -, rfl⟩ := map_ok_iff.mp h
    refine ⟨by simp [Section.after, hheader, hcurrent], ?_, ?_⟩
    · simp only [Statement.names, hheader, hcurrent]
      rfl
    · exact exists_placed_nil rfl (by simp [Statement.places, hheader, hcurrent])
  · cases h

/-- What stands behind a label binds its name, if it declares one, and is placed. -/
theorem body_ok (hcurrent : s.current ≠ .stack) (h : s.body position body = .ok s') :
    s'.current = s.current ∧
      s.labels.defineAll (body.declared s.current).toList (UInt32.ofNat s.address) =
        .ok s'.labels ∧
      ∃ item size, body.Means s.current item ∧
        s'.items = ⟨item, s.address, size, position⟩ :: s.items := by
  have h := mapError_ok_iff.mp h
  split at h
  · rename_i hdata
    obtain ⟨⟨name, bytes⟩, hparse, h⟩ := bind_ok_iff.mp h
    obtain ⟨bound, hbind, h⟩ := bind_ok_iff.mp h
    obtain rfl := Except.ok.inj h
    obtain ⟨labels, hdefine, rfl⟩ := bind_ok hbind
    obtain ⟨hdeclared, hmeans⟩ := DataDeclaration.parse_ok hparse
    rw [hdata, hdeclared]
    refine ⟨rfl, ?_, _, _, hmeans, rfl⟩
    rw [Option.toList_some, LabelTable.defineAll, List.foldlM_cons, hdefine]
    rfl
  · rename_i hdata
    have hcode : s.current = .code := by
      cases hsection : s.current with
      | data => exact absurd hsection hdata
      | code => rfl
      | stack => exact absurd hsection hcurrent
    unfold codeStatement at h
    dsimp only at h
    split at h
    · cases h
    · rename_i m condition hname
      obtain ⟨words, -, h⟩ := bind_ok_iff.mp h
      obtain rfl := Except.ok.inj h
      rw [hcode]
      refine ⟨hcode, ?_, _, _, .instruction (Option.ite_none_left_eq_some.mp hname).2, rfl⟩
      rfl

/-- Behind its label, a plain statement is read for its body. -/
theorem reads_plain {bound : LayoutState} (hheader : st.header? = none)
    (hstack : s.current ≠ .stack)
    (hbound : ∃ labels, s.labels.defineAll st.label?.toList (UInt32.ofNat s.address) = .ok labels ∧
      bound = { s with labels })
    (h : match st.body? with
      | none => s' = bound
      | some body => bound.body st.first.position body = .ok s') : s.Reads st s' := by
  obtain ⟨labels, hlabel, rfl⟩ := hbound
  have hafter : s.current.after st = s.current := by simp [Section.after, hheader, hstack]
  have hnames : st.names s.current =
      st.label?.toList ++ (st.body?.bind (·.declared s.current)).toList :=
    if_pos ⟨hheader, hstack⟩
  have hplaces : st.places s.current = st.body?.isSome := by
    simp [Statement.places, hheader, hstack]
  have hdefine : s.labels.defineAll (st.names s.current) (UInt32.ofNat s.address) =
      labels.defineAll (st.body?.bind (·.declared s.current)).toList (UInt32.ofNat s.address) := by
    rw [hnames, LabelTable.defineAll, List.foldlM_append]
    exact congrArg (· >>= _) hlabel
  cases hbody : st.body? with
  | none =>
    rw [hbody] at h hdefine hplaces
    obtain rfl := h
    exact ⟨hafter.symm, hdefine, exists_placed_nil rfl hplaces⟩
  | some body =>
    rw [hbody] at h hdefine hplaces
    obtain ⟨hcurrent, hlabels, item, size, hmeans, hitems⟩ :=
      body_ok (s := { s with labels }) hstack h
    refine ⟨hcurrent.trans hafter.symm, hdefine.trans hlabels, ?_⟩
    exact exists_placed item size hplaces (.body hheader hbody hmeans) hitems

/-- The first pass reads every statement for what it says. -/
theorem reads_step (h : s.step st = .ok s') : s.Reads st s' := by
  unfold step at h
  dsimp only at h
  by_cases hmark : st.first.startsWith '.' = true
  · rw [if_pos hmark] at h
    exact reads_header hmark (mapError_ok_iff.mp h)
  have hheader : st.header? = none := if_neg hmark
  rw [if_neg hmark] at h
  by_cases hstack : s.current = .stack
  · rw [if_pos hstack] at h
    exact reads_stackStatement hheader hstack (mapError_ok_iff.mp h)
  rw [if_neg hstack] at h
  by_cases hlabel : st.first.startsWith ':' = true
  · have hfirst : st.label? = some st.first.tail := if_pos hlabel
    have hbody : st.body? = Statement.ofTokens? st.rest := if_pos hlabel
    rw [if_pos hlabel] at h
    split at h
    · cases h
    obtain ⟨bound, hbind, h⟩ := bind_ok_iff.mp h
    obtain ⟨labels, hdefine, rfl⟩ := bind_ok (mapError_ok_iff.mp hbind)
    refine reads_plain hheader hstack ⟨labels, ?_, rfl⟩ ?_
    · rw [hfirst, Option.toList_some, LabelTable.defineAll, List.foldlM_cons, hdefine]
      rfl
    · rw [hbody]
      cases hrest : Statement.ofTokens? st.rest with
      | none =>
        rw [hrest] at h
        exact (Except.ok.inj h).symm
      | some body =>
        rw [hrest] at h
        exact h
  · have hfirst : st.label? = none := if_neg hlabel
    have hbody : st.body? = some st := if_neg hlabel
    rw [if_neg hlabel] at h
    refine reads_plain hheader hstack ⟨s.labels, ?_, rfl⟩ ?_
    · rw [hfirst]
      rfl
    · rw [hbody]
      exact h

/-- The first pass reads the statements one after the other, each in its section. -/
theorem reads_run {statements : List Statement} (h : statements.foldlM step s = .ok s') :
    s'.current = statements.foldl Section.after s.current ∧
      ∃ placed, s'.items.reverse = s.items.reverse ++ placed ∧
        List.Forall₂ StandsFor (placing s.current statements) placed := by
  induction statements generalizing s with
  | nil =>
    obtain rfl := Except.ok.inj h
    exact ⟨rfl, [], (List.append_nil _).symm, .nil⟩
  | cons st rest ih =>
    rw [List.foldlM_cons] at h
    obtain ⟨next, hstep, h⟩ := bind_ok_iff.mp h
    obtain ⟨hcurrent, -, first, hfirst, hstands⟩ := reads_step hstep
    obtain ⟨hbehind, others, hothers, hrest⟩ := ih h
    rw [hcurrent] at hbehind hrest
    refine ⟨hbehind, first ++ others, ?_, ?_⟩
    · rw [hothers, hfirst, List.append_assoc]
    · rw [← List.singleton_append, placing_append]
      exact List.rel_append hstands hrest

/-- Among these statements one binds this key to this address, the next free one when it is read. -/
def Binds (s : LayoutState) (statements : List Statement) (key : String) (address : UInt32) :
    Prop :=
  ∃ front st back name reached, statements = front ++ st :: back ∧
    front.foldlM step s = .ok reached ∧ name ∈ st.names reached.current ∧
      name.map Char.toLower = key ∧ address = UInt32.ofNat reached.address

theorem binds_cons {next : LayoutState} {rest : List Statement} {key : String} {address : UInt32}
    (hstep : s.step st = .ok next) : s.Binds (st :: rest) key address ↔
      ((∃ name ∈ st.names s.current, name.map Char.toLower = key) ∧
        address = UInt32.ofNat s.address) ∨ next.Binds rest key address := by
  constructor
  · rintro ⟨front, st', back, name, reached, hsplit, hreached, hname, hkey, haddress⟩
    cases front with
    | nil =>
      obtain ⟨rfl, rfl⟩ := List.cons.inj hsplit
      obtain rfl := Except.ok.inj hreached
      exact .inl ⟨⟨name, hname, hkey⟩, haddress⟩
    | cons first front =>
      obtain ⟨rfl, rfl⟩ := List.cons.inj hsplit
      rw [List.foldlM_cons, hstep] at hreached
      exact .inr ⟨front, st', back, name, reached, rfl, hreached, hname, hkey, haddress⟩
  · rintro (⟨⟨name, hname, hkey⟩, haddress⟩ | hlater)
    · exact ⟨[], st, rest, name, s, rfl, rfl, hname, hkey, haddress⟩
    · obtain ⟨front, st', back, name, reached, rfl, hreached, hbound⟩ := hlater
      refine ⟨st :: front, st', back, name, reached, rfl, ?_, hbound⟩
      rw [List.foldlM_cons, hstep]
      exact hreached

/-- What was bound before stays bound so, and what the statements bind is bound in addition. -/
theorem find?_of_run {statements : List Statement} (h : statements.foldlM step s = .ok s')
    {key : String} {address : UInt32} : s'.labels.find? key = some address ↔
      s.labels.find? key = some address ∨ s.Binds statements key address := by
  induction statements generalizing s with
  | nil =>
    obtain rfl := Except.ok.inj h
    simp [Binds]
  | cons st rest ih =>
    rw [List.foldlM_cons] at h
    obtain ⟨next, hstep, h⟩ := bind_ok_iff.mp h
    rw [ih h, LabelTable.find?_of_defineAll (reads_step hstep).labels, binds_cons hstep, or_assoc]

end LayoutState

/-! ### Texts in parts -/

/-- The address of the item that follows these statements, or else where the program stops. -/
def Layout.addressBehind (l : Layout) (origin : Nat) (statements : List Statement) : Nat :=
  (l.items[(placing .code statements).length]?.map Placed.address).getD (origin + l.size)

theorem Tiles.of_append {start stop : Nat} {front back : List Placed}
    (h : Tiles start (front ++ back) stop) {middle : Nat} (hfront : Tiles start front middle) :
    Tiles middle back stop := by
  induction hfront with
  | nil => exact h
  | cons _ _ ih =>
    cases h with
    | cons _ hrest => exact ih hrest

theorem Tiles.address_head? {start stop : Nat} {items : List Placed} (h : Tiles start items stop) :
    (items.head?.map Placed.address).getD stop = start := by
  cases h with
  | nil => rfl
  | cons haddress _ => exact haddress

namespace Program

variable {source : String} {origin : UInt32} {l : Layout} {front back : List Statement}

/-- A text that is read in two parts: its items part in the same place, and there the address stands
that was free between the two. -/
structure Parts (origin : UInt32) (l : Layout) (front back : List Statement) (s : LayoutState)
    (before after : List Placed) : Prop where
  reached : front.foldlM LayoutState.step (.start origin.toNat) = .ok s
  current : s.current = Section.behind front
  items : l.items = before ++ after
  front_stands : List.Forall₂ StandsFor (placing .code front) before
  back_stands : List.Forall₂ StandsFor (placing (Section.behind front) back) after
  tiles : Tiles s.address after (origin.toNat + l.size)

theorem Parts.address {s : LayoutState} {before after : List Placed}
    (h : Parts origin l front back s before after) :
    l.addressBehind origin.toNat front = s.address := by
  rw [Layout.addressBehind, h.front_stands.length_eq, h.items,
    List.getElem?_append_right (Nat.le_refl _), Nat.sub_self, ← List.head?_eq_getElem?]
  exact h.tiles.address_head?

/-- The statement between the two parts has the first item behind it, if it takes a place. -/
theorem Parts.exists_placed {s : LayoutState} {before after : List Placed} {st : Statement}
    (h : Parts origin l front (st :: back) s before after)
    (hplaces : st.places (Section.behind front) = true) : ∃ placed more, after = placed :: more ∧
      StandsFor (Section.behind front, st) placed ∧ placed.address = s.address := by
  have hstands := h.back_stands
  have htiles := h.tiles
  rw [placing, if_pos hplaces] at hstands
  cases hstands with
  | cons hplaced _ =>
    cases htiles with
    | cons haddress _ => exact ⟨_, _, rfl, hplaced, haddress⟩

/-- A layout is what the first pass leaves. -/
theorem run_of_layout {statements : List Statement} (htokens : tokenize source = .ok statements)
    (hlayout : layout source origin = .ok l) :
    ∃ s, statements.foldlM LayoutState.step (.start origin.toNat) = .ok s ∧
      l = ⟨s.items.reverse, s.labels, s.stackSize, s.address - origin.toNat⟩ := by
  obtain ⟨statements', htokens', hlaid⟩ := bind_ok_iff.mp hlayout
  obtain rfl := Except.ok.inj (htokens.symm.trans htokens')
  obtain ⟨s, hrun, hl⟩ := bind_ok_iff.mp hlaid
  exact ⟨s, hrun, (Except.ok.inj hl).symm⟩

/-- The items stand for the statements that take a place, one for each, in their order. -/
theorem stands_of_layout {statements : List Statement} (htokens : tokenize source = .ok statements)
    (hlayout : layout source origin = .ok l) :
    List.Forall₂ StandsFor (placing .code statements) l.items := by
  obtain ⟨s, hrun, rfl⟩ := run_of_layout htokens hlayout
  obtain ⟨-, placed, hplaced, hstands⟩ := LayoutState.reads_run hrun
  obtain rfl : s.items.reverse = placed := hplaced
  exact hstands

theorem parts_of_layout (htokens : tokenize source = .ok (front ++ back))
    (hlayout : layout source origin = .ok l) :
    ∃ s before after, Parts origin l front back s before after := by
  obtain ⟨s', hrun, rfl⟩ := run_of_layout htokens hlayout
  rw [List.foldlM_append] at hrun
  obtain ⟨s, hfront, hback⟩ := bind_ok_iff.mp hrun
  obtain ⟨hbehind, before, hbefore, hstands⟩ := LayoutState.reads_run hfront
  have hcurrent : s.current = Section.behind front := hbehind
  obtain ⟨-, after, hafter, hstands'⟩ := LayoutState.reads_run hback
  have htiled := (kept_tiled origin.toNat).foldlM (tiled_start _) hfront
  have htiled' := (kept_tiled origin.toNat).foldlM htiled hback
  have hend : origin.toNat + (s'.address - origin.toNat) = s'.address := by
    have hstop := htiled'.tiles.stop_eq
    omega
  refine ⟨s, before, after, hfront, hcurrent, ?_, hstands, ?_, ?_⟩
  · exact hafter.trans (congrArg (· ++ after) hbefore)
  · rw [← hcurrent]
    exact hstands'
  · have htiles := htiled'.tiles
    rw [hafter] at htiles
    rw [hend]
    exact htiles.of_append htiled.tiles

end Program

end RegisterMachine
