import RegisterMachine.Program.LabelTable

/-! Tables of labels that are made from lists.

What is found in a table is its entries (`find?_eq_some_iff`). Of a name that is given
more than once the last address counts (`find?_ofList`). The entries of the table are
the list itself exactly if its names ascend (`entries_ofList_iff`). -/
namespace RegisterMachine.LabelTable

variable {name : String} {address : UInt32} {entries pairs : List (String × UInt32)}

/-- A name behind all others is put at the end. -/
theorem insertEntry_of_last (h : ∀ n ∈ entries.map Prod.fst, n < name) :
    insertEntry name address entries = entries ++ [(name, address)] := by
  induction entries with
  | nil => rfl
  | cons e rest ih =>
    obtain ⟨n, a⟩ := e
    have hn : n < name := h n (by simp)
    have hrest := ih fun m hm => h m (List.mem_cons_of_mem _ hm)
    rw [insertEntry, if_neg (String.lt_asymm hn), if_pos hn, hrest]
    rfl

theorem length_insertEntry_le :
    (insertEntry name address entries).length ≤ entries.length + 1 := by
  induction entries with
  | nil => exact Nat.le_refl _
  | cons e rest ih =>
    obtain ⟨n, a⟩ := e
    rw [insertEntry]
    split
    · simp
    · split
      · simpa using ih
      · simp

theorem lookup_eq_some_iff (h : (entries.map Prod.fst).Pairwise (· < ·)) :
    entries.lookup name = some address ↔ (name, address) ∈ entries := by
  induction entries with
  | nil => simp
  | cons e rest ih =>
    obtain ⟨n, a⟩ := e
    rw [List.map_cons, List.pairwise_cons] at h
    obtain ⟨hlast, hrest⟩ := h
    rw [List.mem_cons, List.lookup_cons]
    by_cases hname : name = n
    · subst hname
      have hothers : (name, address) ∉ rest := fun hmem =>
        String.lt_irrefl name (hlast name (List.mem_map_of_mem hmem))
      simp [hothers, eq_comm]
    · simp [hname, beq_false_of_ne hname, ih hrest]

/-- The entries of a table are what is found in it. -/
theorem find?_eq_some_iff {table : LabelTable} :
    table.find? name = some address ↔ (name, address) ∈ table.entries :=
  lookup_eq_some_iff table.ascending

/-- The table with these pairs put in one after the other. -/
def insertAll (table : LabelTable) (pairs : List (String × UInt32)) : LabelTable :=
  pairs.foldl (fun table (name, address) => table.insert name address) table

theorem insertAll_cons (table : LabelTable) (label : String × UInt32)
    (pairs : List (String × UInt32)) :
    table.insertAll (label :: pairs) = (table.insert label.1 label.2).insertAll pairs := rfl

theorem find?_insertAll (table : LabelTable) (pairs : List (String × UInt32)) (name : String) :
    (table.insertAll pairs).find? name = (pairs.reverse.lookup name).or (table.find? name) := by
  induction pairs generalizing table with
  | nil => rfl
  | cons label rest ih =>
    obtain ⟨n, a⟩ := label
    rw [insertAll_cons, ih, find?_insert, List.reverse_cons, List.lookup_append, Option.or_assoc]
    congr 1
    by_cases hname : name = n
    · simp [hname]
    · simp [hname, List.lookup_cons, beq_false_of_ne hname]

/-- Names that ascend, and stand behind those of the table, are appended in their order. -/
theorem entries_insertAll (table : LabelTable)
    (h : ((table.entries ++ pairs).map Prod.fst).Pairwise (· < ·)) :
    (table.insertAll pairs).entries = table.entries ++ pairs := by
  induction pairs generalizing table with
  | nil => exact (List.append_nil _).symm
  | cons label rest ih =>
    obtain ⟨n, a⟩ := label
    have hlast : ∀ m ∈ table.entries.map Prod.fst, m < n := by
      rw [List.map_append] at h
      intro m hm
      exact (List.pairwise_append.mp h).2.2 m hm n List.mem_cons_self
    have hinsert : (table.insert n a).entries = table.entries ++ [(n, a)] :=
      insertEntry_of_last hlast
    rw [insertAll_cons, ih _ (by rw [hinsert, List.append_assoc]; exact h), hinsert,
      List.append_assoc]
    rfl

theorem size_insertAll_le (table : LabelTable) (pairs : List (String × UInt32)) :
    (table.insertAll pairs).size ≤ table.size + pairs.length := by
  induction pairs generalizing table with
  | nil => exact Nat.le_refl _
  | cons label rest ih =>
    have hinsert : (table.insert label.1 label.2).size ≤ table.size + 1 := length_insertEntry_le
    have hrest := ih (table.insert label.1 label.2)
    rw [insertAll_cons, List.length_cons]
    omega

theorem mem_insertAll (table : LabelTable)
    (h : name ∈ (table.insertAll pairs).entries.map Prod.fst) :
    name ∈ table.entries.map Prod.fst ∨ name ∈ pairs.map Prod.fst := by
  induction pairs generalizing table with
  | nil => exact .inl h
  | cons label rest ih =>
    rcases ih (table.insert label.1 label.2) h with h | h
    · rcases mem_map_insertEntry h with rfl | h
      · exact .inr List.mem_cons_self
      · exact .inl h
    · exact .inr (List.mem_cons_of_mem _ h)

/-! ### The table of a list -/

/-- Of a name that is given more than once the last address counts. -/
theorem find?_ofList (pairs : List (String × UInt32)) (name : String) :
    (ofList pairs).find? name = pairs.reverse.lookup name :=
  (find?_insertAll empty pairs name).trans Option.or_none

theorem entries_ofList_iff :
    (ofList pairs).entries = pairs ↔ (pairs.map Prod.fst).Pairwise (· < ·) := by
  constructor
  · intro h
    rw [← h]
    exact (ofList pairs).ascending
  · exact entries_insertAll empty

theorem ofList_entries (table : LabelTable) : ofList table.entries = table := by
  have hentries := entries_ofList_iff.mpr table.ascending
  cases h : ofList table.entries with
  | mk entries ascending =>
    rw [h] at hentries
    subst hentries
    rfl

theorem size_ofList_le (pairs : List (String × UInt32)) : (ofList pairs).size ≤ pairs.length := by
  have h := size_insertAll_le empty pairs
  rwa [show empty.size = 0 from rfl, Nat.zero_add] at h

theorem mem_of_mem_ofList (h : name ∈ (ofList pairs).entries.map Prod.fst) :
    name ∈ pairs.map Prod.fst :=
  (mem_insertAll empty h).resolve_left List.not_mem_nil

end RegisterMachine.LabelTable
