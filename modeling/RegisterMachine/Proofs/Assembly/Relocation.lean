import RegisterMachine.Assembly.Assembler
import RegisterMachine.Proofs.Except

/-! The first pass from another address.

A layout from an address on is the layout from zero, with every address in it
moved by as much (`ofStatements_shift`): what the first pass compares are
addresses of the same layout, and a shift keeps their differences. Its messages
name addresses, so only successes agree, which is why the two sides are compared
by `toOption`. -/
namespace RegisterMachine

/-! ### Labels -/

namespace LabelTable

/-- All labels moved by a distance. -/
def shift (k : UInt32) (t : LabelTable) : LabelTable where
  entries := t.entries.map fun (name, address) => (name, address + k)
  ascending := by
    have hnames : (t.entries.map fun (name, address) => (name, address + k)).map Prod.fst =
        t.entries.map Prod.fst := by simp
    rw [hnames]
    exact t.ascending

theorem lookup_map_shift (k : UInt32) (name : String) (entries : List (String × UInt32)) :
    (entries.map fun (n, a) => (n, a + k)).lookup name = (entries.lookup name).map (· + k) := by
  induction entries with
  | nil => rfl
  | cons e rest ih =>
    obtain ⟨n, a⟩ := e
    rw [List.map_cons, List.lookup_cons, List.lookup_cons]
    cases name == n with
    | true => rfl
    | false => exact ih

theorem insertEntry_map_shift (k : UInt32) (name : String) (address : UInt32)
    (entries : List (String × UInt32)) :
    insertEntry name (address + k) (entries.map fun (n, a) => (n, a + k)) =
      (insertEntry name address entries).map fun (n, a) => (n, a + k) := by
  induction entries with
  | nil => rfl
  | cons e rest ih =>
    obtain ⟨n, a⟩ := e
    simp only [List.map_cons, insertEntry]
    split
    · rfl
    · split
      · rw [ih]
        rfl
      · rfl

theorem lookup?_shift (k : UInt32) (t : LabelTable) (name : String) :
    (t.shift k).lookup? name = (t.lookup? name).map (· + k) :=
  lookup_map_shift k _ t.entries

theorem insert_shift (k : UInt32) (t : LabelTable) (name : String) (address : UInt32) :
    (t.shift k).insert name (address + k) = (t.insert name address).shift k := by
  have hentries := insertEntry_map_shift k name address t.entries
  simp only [insert, shift, hentries]

theorem define_shift (k : UInt32) (t : LabelTable) (name : String) (address : UInt32) :
    ((t.shift k).define name (address + k)).toOption =
      (t.define name address).toOption.map (shift k) := by
  rw [define, define, lookup?_shift, insert_shift]
  cases t.lookup? name with
  | none => rfl
  | some old =>
    simp only [Option.map_some, ne_eq, UInt32.add_left_inj]
    split <;> rfl

end LabelTable

/-! ### Statements -/

def Placed.shift (k : Nat) (p : Placed) : Placed := { p with address := p.address + k }

namespace LayoutState

/-- The state with everything laid out so far, and what is still to come, moved by a distance. -/
def shift (k : Nat) (s : LayoutState) : LayoutState :=
  { s with
    items := s.items.map (Placed.shift k)
    labels := s.labels.shift (UInt32.ofNat k)
    address := s.address + k }

variable (k : Nat) (s : LayoutState)

theorem place_shift (item : Item) (size : Nat) (position : Position) :
    (s.shift k).place item size position = (s.place item size position).shift k := by
  have haddress : s.address + k + size = s.address + size + k := by omega
  simp only [shift, place, haddress]
  rfl

theorem bind_shift (name : String) :
    ((s.shift k).bind name).toOption = (s.bind name).toOption.map (shift k) := by
  have hdefine := s.labels.define_shift (UInt32.ofNat k) name (UInt32.ofNat s.address)
  rw [← UInt32.ofNat_add] at hdefine
  have hlabels : (s.shift k).labels.define name (UInt32.ofNat (s.shift k).address) =
      (s.labels.shift (UInt32.ofNat k)).define name (UInt32.ofNat (s.address + k)) := rfl
  simp only [bind, toOption_map, toOption_mapError, hlabels, hdefine, Option.map_map]
  rfl

theorem header_shift (st : Statement) :
    ((s.shift k).header st).toOption = (s.header st).toOption.map (shift k) := by
  unfold header
  split
  · exact congrArg some (place_shift k { s with current := .data } _ _ _)
  · exact congrArg some (place_shift k { s with current := .code } _ _ _)
  · rfl
  · simp only [toOption_map, toOption_mapError, Option.map_map]
    rfl
  · rfl

theorem stackStatement_shift (st : Statement) :
    ((s.shift k).stackStatement st).toOption = (s.stackStatement st).toOption.map (shift k) := by
  unfold stackStatement
  split
  · simp only [toOption_map, toOption_mapError, Option.map_map]
    rfl
  · rfl

theorem dataStatement_shift (position : Position) (st : Statement) :
    ((s.shift k).dataStatement position st).toOption =
      (s.dataStatement position st).toOption.map (shift k) := by
  unfold dataStatement
  simp only [toOption_bind, bind_shift, toOption_ok]
  cases (DataDeclaration.parse st).toOption with
  | none => rfl
  | some parsed =>
    simp only [Option.bind_some]
    cases (s.bind parsed.1).toOption with
    | none => rfl
    | some bound => exact congrArg some (place_shift k bound _ _ _)

theorem codeStatement_shift (position : Position) (st : Statement) :
    ((s.shift k).codeStatement position st).toOption =
      (s.codeStatement position st).toOption.map (shift k) := by
  unfold codeStatement
  dsimp only
  split
  · rfl
  · simp only [toOption_bind, toOption_mapError, toOption_ok, place_shift]
    rename_i m _ _
    cases (m.wordCount st.rest).toOption <;> rfl

theorem body_shift (position : Position) (st : Statement) :
    ((s.shift k).body position st).toOption = (s.body position st).toOption.map (shift k) := by
  have hcurrent : (s.shift k).current = s.current := rfl
  rw [body, body, hcurrent, toOption_mapError, toOption_mapError]
  split
  · exact s.dataStatement_shift k position st
  · exact s.codeStatement_shift k position st

theorem step_shift (st : Statement) :
    ((s.shift k).step st).toOption = (s.step st).toOption.map (shift k) := by
  have hcurrent : (s.shift k).current = s.current := rfl
  unfold step
  dsimp only
  rw [hcurrent]
  split
  · rw [toOption_mapError, toOption_mapError]
    exact s.header_shift k st
  · split
    · rw [toOption_mapError, toOption_mapError]
      exact s.stackStatement_shift k st
    · split
      · split
        · rfl
        · simp only [toOption_bind, toOption_mapError, bind_shift]
          cases (s.bind st.first.tail).toOption with
          | none => rfl
          | some bound =>
            simp only [Option.map_some, Option.bind_some]
            cases Statement.ofTokens? st.rest with
            | none => rfl
            | some rest => exact bound.body_shift k _ rest
      · exact s.body_shift k _ st

theorem foldlM_shift (statements : List Statement) :
    (statements.foldlM step (s.shift k)).toOption =
      (statements.foldlM step s).toOption.map (shift k) := by
  induction statements generalizing s with
  | nil => rfl
  | cons st rest ih =>
    rw [List.foldlM_cons, List.foldlM_cons, toOption_bind, toOption_bind, step_shift]
    cases (s.step st).toOption with
    | none => rfl
    | some next => exact ih next

theorem start_eq_shift (origin : Nat) : start origin = (start 0).shift origin := by
  have haddress : 0 + origin = origin := Nat.zero_add _
  simp only [start, shift, haddress]
  rfl

end LayoutState

namespace Layout

/-- The layout of the same statements from an address that is higher by `k`. -/
def shift (k : Nat) (l : Layout) : Layout :=
  { l with
    items := l.items.map (Placed.shift k)
    labels := l.labels.shift (UInt32.ofNat k) }

/-- A layout from an address on is the one from zero on, moved there. -/
theorem ofStatements_shift (origin : Nat) (statements : List Statement) :
    (ofStatements origin statements).toOption =
      (ofStatements 0 statements).toOption.map (shift origin) := by
  unfold ofStatements
  rw [LayoutState.start_eq_shift, toOption_bind, toOption_bind, LayoutState.foldlM_shift]
  cases (statements.foldlM LayoutState.step (.start 0)).toOption with
  | none => rfl
  | some s =>
    have hsize : (s.shift origin).address - origin = s.address - 0 := Nat.add_sub_cancel _ _
    simp only [Option.map_some, Option.bind_some, toOption_ok, hsize]
    simp only [shift, LayoutState.shift, List.map_reverse]

end Layout

/-- The size of a source text is that of each of its layouts. -/
theorem Program.measure_of_layout {source : String} {origin : UInt32} {l : Layout}
    (h : Program.layout source origin = .ok l) : Program.measure source = .ok l.size := by
  obtain ⟨statements, htokens, h⟩ := bind_ok_iff.mp h
  have hshift := Layout.ofStatements_shift origin.toNat statements
  rw [h] at hshift
  obtain ⟨base, hbase, rfl⟩ := Option.map_eq_some_iff.mp hshift.symm
  have hstart := Layout.ofStatements_shift programStart.toNat statements
  rw [hbase] at hstart
  have hlayout : Program.layout source programStart = .ok (base.shift programStart.toNat) := by
    rw [Program.layout, htokens]
    exact ok_of_toOption hstart
  rw [Program.measure, hlayout]
  rfl

end RegisterMachine
