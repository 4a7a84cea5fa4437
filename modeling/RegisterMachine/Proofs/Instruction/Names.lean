import RegisterMachine.Instruction.Name

/-! What the names of instructions mean.

A mnemonic may begin with another one (`ADD`, `ADDINT`), and a condition is a suffix of
letters too, so names could run into each other. They do not: where one mnemonic begins
with another, no suffix makes up for the difference (`eq_of_name_eq`). Every mnemonic with
a suffix it takes therefore means what it says (`ofName?_append`). -/
namespace RegisterMachine.Mnemonic

variable {name name' : String} {m m' : Mnemonic} {c c' : Condition}

theorem native_mem_all (i : Instruction) : (i.mnemonic, .native i) ∈ all :=
  List.mem_append_left _ (List.mem_map.mpr ⟨i, Instruction.mem_all i, rfl⟩)

/-- Mnemonics and suffixes are upper-case letters. -/
theorem upper_of_mem_all (h : (name, m) ∈ all) :
    name ≠ "" ∧ ∀ x ∈ name.toList, x.isUpper = true ∧ x.toUpper = x := by
  have hall : ∀ n ∈ all, n.1 ≠ "" ∧
      n.1.toList.all (fun x => x.isUpper && x.toUpper == x) = true := by decide +kernel
  obtain ⟨hne, hupper⟩ := hall _ h
  exact ⟨hne, by simpa using hupper⟩

theorem upper_suffix (c : Condition) :
    ∀ x ∈ c.suffix.toList, x.isUpper = true ∧ x.toUpper = x := by
  have hall : c.suffix.toList.all (fun x => x.isUpper && x.toUpper == x) = true := by
    cases c <;> decide +kernel
  simpa using hall

theorem upper_append (h : (name, m) ∈ all) (c : Condition) :
    ∀ x ∈ (name ++ c.suffix).toList, x.isUpper = true ∧ x.toUpper = x := by
  intro x hx
  rw [String.toList_append] at hx
  rcases List.mem_append.mp hx with hx | hx
  · exact (upper_of_mem_all h).2 x hx
  · exact upper_suffix c x hx

/-- Where a mnemonic begins with another one, the rest of it and a suffix are no suffix. -/
theorem eq_of_begins (h : (name, m) ∈ all) (h' : (name', m') ∈ all) (hc : c ∈ m.conditions)
    (hc' : c' ∈ m'.conditions) (hbegins : name.toList <+: name'.toList)
    (heq : name.toList ++ c.suffix.toList = name'.toList ++ c'.suffix.toList) :
    m = m' ∧ c = c' := by
  have hall : ∀ n ∈ all, ∀ n' ∈ all, n.1.toList <+: n'.1.toList →
      ∀ c ∈ n.2.conditions, ∀ c' ∈ n'.2.conditions,
        c.suffix.toList = n'.1.toList.drop n.1.toList.length ++ c'.suffix.toList →
          n.2 = n'.2 ∧ c = c' := by decide +kernel
  obtain ⟨rest, hrest⟩ := hbegins
  refine hall _ h _ h' ⟨rest, hrest⟩ c hc c' hc' ?_
  rw [← hrest, List.append_assoc] at heq
  rw [List.append_cancel_left heq, ← hrest, List.drop_left]

/-- No two names are the same. -/
theorem eq_of_name_eq (h : (name, m) ∈ all) (h' : (name', m') ∈ all) (hc : c ∈ m.conditions)
    (hc' : c' ∈ m'.conditions) (heq : name ++ c.suffix = name' ++ c'.suffix) : m = m' ∧ c = c' := by
  have hlist : name.toList ++ c.suffix.toList = name'.toList ++ c'.suffix.toList := by
    rw [← String.toList_append, heq, String.toList_append]
  -- both mnemonics begin the same text, so one of them begins the other
  have hback : name'.toList <+: name.toList ++ c.suffix.toList := by
    rw [hlist]
    exact List.prefix_append _ _
  rcases List.prefix_or_prefix_of_prefix (List.prefix_append _ _) hback with hbegins | hbegins
  · exact eq_of_begins h h' hc hc' hbegins hlist
  · obtain ⟨hm, hcond⟩ := eq_of_begins h' h hc' hc hbegins hlist.symm
    exact ⟨hm.symm, hcond.symm⟩

/-- A mnemonic with a suffix that it takes is read as just these two. -/
theorem ofName?_append (h : (name, m) ∈ all) (hc : c ∈ m.conditions) :
    ofName? (name ++ c.suffix) = some (m, c) := by
  have hupper : (name ++ c.suffix).map Char.toUpper = name ++ c.suffix := by
    apply String.toList_injective
    rw [String.toList_map]
    exact (List.map_congr_left fun x hx => (upper_append h c x hx).2).trans (List.map_id _)
  have hmem : (name ++ c.suffix, m, c) ∈ names :=
    List.mem_flatMap.mpr ⟨(name, m), h, List.mem_map.mpr ⟨c, hc, rfl⟩⟩
  rw [ofName?, hupper]
  cases hlookup : names.lookup (name ++ c.suffix) with
  | none =>
    have hnone := List.lookup_eq_none_iff.mp hlookup _ hmem
    simp at hnone
  | some found =>
    obtain ⟨front, back, hnames, -⟩ := List.lookup_eq_some_iff.mp hlookup
    have hfound : (name ++ c.suffix, found) ∈ names := by
      rw [hnames]
      exact List.mem_append_right _ List.mem_cons_self
    obtain ⟨⟨name', m'⟩, h', hfound⟩ := List.mem_flatMap.mp hfound
    obtain ⟨c', hc', heq⟩ := List.mem_map.mp hfound
    obtain ⟨hname, rfl⟩ := Prod.mk.inj heq
    obtain ⟨rfl, rfl⟩ := eq_of_name_eq h' h hc' hc hname
    rfl

end RegisterMachine.Mnemonic
