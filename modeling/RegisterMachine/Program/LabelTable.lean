import RegisterMachine.Text.Hex

/-!
Labels and their addresses. The entries stand in strictly ascending order of their names, so two
tables with the same labels are equal. `define` and `resolve` do not see the case of ASCII letters.
-/

namespace RegisterMachine

structure LabelTable where
  entries : List (String × UInt32)
  ascending : (entries.map Prod.fst).Pairwise (· < ·)
  deriving DecidableEq

inductive LabelError where
  | redefined (label : String) (old new : UInt32)
  | undefined (label : String)
  deriving DecidableEq, Repr

namespace LabelError

def message : LabelError → String
  | .redefined label old new =>
    s!"label {label} redefined: old address {Text.hexMarked 0 old.toNat}, new address "
      ++ Text.hexMarked 0 new.toNat
  | .undefined label => s!"undefined label: {label}"

end LabelError

namespace LabelTable

/-- Puts a name in its place, with its old address replaced if it has one. -/
def insertEntry (name : String) (address : UInt32) :
    List (String × UInt32) → List (String × UInt32)
  | [] => [(name, address)]
  | (n, a) :: rest =>
    if name < n then (name, address) :: (n, a) :: rest
    else if n < name then (n, a) :: insertEntry name address rest
    else (name, address) :: rest

theorem mem_map_insertEntry {name n : String} {address : UInt32} {entries : List (String × UInt32)}
    (h : n ∈ (insertEntry name address entries).map Prod.fst) :
    n = name ∨ n ∈ entries.map Prod.fst := by
  induction entries with
  | nil => simpa [insertEntry] using h
  | cons e rest ih =>
    obtain ⟨m, a⟩ := e
    simp only [insertEntry] at h
    split at h
    · simpa [or_assoc] using h
    · split at h
      · rcases List.mem_cons.mp h with h | h
        · exact .inr (List.mem_cons.mpr (.inl h))
        · rcases ih h with h | h
          · exact .inl h
          · exact .inr (List.mem_cons.mpr (.inr h))
      · rcases List.mem_cons.mp h with h | h
        · exact .inl h
        · exact .inr (List.mem_cons.mpr (.inr h))

theorem ascending_insertEntry (name : String) (address : UInt32)
    {entries : List (String × UInt32)} (h : (entries.map Prod.fst).Pairwise (· < ·)) :
    ((insertEntry name address entries).map Prod.fst).Pairwise (· < ·) := by
  induction entries with
  | nil => simp [insertEntry]
  | cons e rest ih =>
    obtain ⟨m, a⟩ := e
    rw [List.map_cons, List.pairwise_cons] at h
    simp only [insertEntry]
    split
    · rename_i lt
      refine List.pairwise_cons.mpr ⟨?_, List.pairwise_cons.mpr h⟩
      intro n hn
      rcases List.mem_cons.mp hn with rfl | hn
      · exact lt
      · exact String.lt_trans lt (h.1 n hn)
    · split
      · rename_i lt
        refine List.pairwise_cons.mpr ⟨?_, ih h.2⟩
        intro n hn
        rcases mem_map_insertEntry hn with rfl | hn
        · exact lt
        · exact h.1 n hn
      · rename_i notLess notGreater
        have same : name = m := Std.Trichotomous.trichotomous name m notLess notGreater
        subst same
        exact List.pairwise_cons.mpr h

theorem lookup_insertEntry (name n : String) (address : UInt32)
    (entries : List (String × UInt32)) :
    (insertEntry name address entries).lookup n =
      if n = name then some address else entries.lookup n := by
  induction entries with
  | nil =>
    by_cases same : n = name
    · simp [insertEntry, same]
    · simp [insertEntry, List.lookup_cons, beq_false_of_ne same, same]
  | cons e rest ih =>
    obtain ⟨m, a⟩ := e
    simp only [insertEntry]
    split
    · by_cases same : n = name
      · simp [same]
      · simp [List.lookup_cons, beq_false_of_ne same, same]
    · split
      · rename_i lt
        by_cases here : n = m
        · subst here
          have apart : n ≠ name := by
            rintro rfl
            exact String.lt_irrefl n lt
          simp [apart]
        · simp [List.lookup_cons, beq_false_of_ne here, ih]
      · rename_i notLess notGreater
        have same : name = m := Std.Trichotomous.trichotomous name m notLess notGreater
        subst same
        by_cases here : n = name
        · simp [here]
        · simp [List.lookup_cons, beq_false_of_ne here, here]

def empty : LabelTable := ⟨[], .nil⟩

/-- Sets the address of exactly this name. -/
def insert (table : LabelTable) (name : String) (address : UInt32) : LabelTable :=
  ⟨insertEntry name address table.entries, ascending_insertEntry name address table.ascending⟩

/-- The table of these pairs; of a name given more than once the last address counts. -/
def ofList (pairs : List (String × UInt32)) : LabelTable :=
  pairs.foldl (fun table (name, address) => table.insert name address) empty

/-- The address of exactly this name. -/
def find? (table : LabelTable) (name : String) : Option UInt32 := table.entries.lookup name

/-- The address that was set last counts, and no other name is touched. -/
theorem find?_insert (table : LabelTable) (name n : String) (address : UInt32) :
    (table.insert name address).find? n = if n = name then some address else table.find? n :=
  lookup_insertEntry name n address table.entries

def size (table : LabelTable) : Nat := table.entries.length

/-- The address of a label in any case of its letters. -/
def lookup? (table : LabelTable) (name : String) : Option UInt32 :=
  table.find? (name.map Char.toLower)

/-- Binds a label to an address. It may be bound again, but only to the same address. -/
def define (table : LabelTable) (name : String) (address : UInt32) :
    Except LabelError LabelTable :=
  match table.lookup? name with
  | some old =>
    if old ≠ address then .error (.redefined name old address)
    else .ok (table.insert (name.map Char.toLower) address)
  | none => .ok (table.insert (name.map Char.toLower) address)

/-- The address of a label, which must be bound. -/
def resolve (table : LabelTable) (name : String) : Except LabelError UInt32 :=
  match table.lookup? name with
  | some address => .ok address
  | none => .error (.undefined name)

end LabelTable

end RegisterMachine
