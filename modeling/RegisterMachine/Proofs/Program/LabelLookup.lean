import RegisterMachine.Proofs.Program.Stored

/-! Which labels of a program are found by their names.

The lookup puts the name that it is given in lower case, but not the names in the table. So a
label is found under every spelling of its name (`Program.Finds`) exactly if the table has the
lower-case spelling at the same address (`Program.finds_iff`). The assembler sees to that, because
it binds every name in lower case. The reader of images takes the names as they are listed: the
label of an image may be found at another address, or not at all. -/
namespace RegisterMachine.Program

open Image

variable {p : Program} {label : String × UInt32} {labels : List (String × UInt32)}

/-- The label is found under every spelling of its name. -/
def Finds (p : Program) (label : String × UInt32) : Prop :=
  ∀ spelling : String, spelling.map Char.toLower = label.1.map Char.toLower →
    p.label? spelling = some label.2

theorem finds_iff : p.Finds label ↔ (label.1.map Char.toLower, label.2) ∈ p.labels.entries := by
  rw [← LabelTable.find?_eq_some_iff]
  constructor
  · exact fun h => h label.1 rfl
  · intro h spelling hspelling
    rw [label?, LabelTable.lookup?, hspelling]
    exact h

theorem finds_of_lower (h : p.labels.Lower) (hlabel : label ∈ p.labels.entries) :
    p.Finds label := by
  rw [finds_iff, h label hlabel]
  exact hlabel

/-- The entries of a table that was read, by the list that was read. -/
theorem mem_entries_iff (h : p.labels = .ofList labels) :
    label ∈ p.labels.entries ↔ labels.reverse.lookup label.1 = some label.2 := by
  rw [h, ← LabelTable.find?_ofList, LabelTable.find?_eq_some_iff]

/-- **Labels are found by their names.** Every label of an assembled program is found under every
spelling of its name. The labels of a program that was read from an image are the last ones of
each name in the list of the image, and such a label is found exactly if the last one with its
name in lower case has the same address; so all are found if the image lists lower-case names
only. -/
theorem finds_labels (p : Program) :
    (∀ source origin, assemble source origin = .ok p →
      ∀ label ∈ p.labels.entries, p.Finds label) ∧
    ∀ input, ofImage input = .ok p →
      ∃ labels, Lists labels ∧ input = p.imageWith labels ∧
        (∀ label, label ∈ p.labels.entries ↔
          labels.reverse.lookup label.1 = some label.2) ∧
        (∀ label ∈ p.labels.entries, p.Finds label ↔
          labels.reverse.lookup (label.1.map Char.toLower) = some label.2) ∧
        ((∀ label ∈ labels, label.1.map Char.toLower = label.1) →
          ∀ label ∈ p.labels.entries, p.Finds label) := by
  constructor
  · intro source origin h label hlabel
    exact finds_of_lower (lower_of_assemble h) hlabel
  · intro input h
    obtain ⟨-, labels, hlists, hlabels, hinput⟩ := exists_of_ofImage h
    refine ⟨labels, hlists, hinput, fun label => mem_entries_iff hlabels, ?_, ?_⟩
    · intro label _
      exact finds_iff.trans (mem_entries_iff hlabels)
    · intro hlower label hlabel
      refine finds_of_lower (fun e he => ?_) hlabel
      -- the names of the table are names of the list
      have hname : e.1 ∈ labels.map Prod.fst :=
        LabelTable.mem_of_mem_ofList (hlabels ▸ List.mem_map_of_mem he)
      obtain ⟨listed, hlisted, heq⟩ := List.mem_map.mp hname
      rw [← heq]
      exact hlower listed hlisted

/-- An assembled label, and an image with two labels of which one is the other in capitals. -/
theorem finds_labels_start :
    let read : Program := ⟨0x200, 0x200, none, [], .ofList [("START", 0x204), ("start", 0x200)]⟩
    (∃ p, assemble ":Start; halt;" 0x200 = .ok p ∧ p.Finds ("start", 0x200)) ∧
      ofImage read.image = .ok read ∧ ("START", 0x204) ∈ read.labels.entries ∧
      read.Finds ("start", 0x200) ∧ ¬ read.Finds ("START", 0x204) := by
  intro read
  have hlabels : (assemble ":Start; halt;" 0x200).toOption.map (fun p => p.labels.entries) =
      some [("start", 0x200)] := by decide +kernel
  obtain ⟨p, hp, hentries⟩ := Option.map_eq_some_iff.mp hlabels
  have hassemble : assemble ":Start; halt;" 0x200 = .ok p := ok_of_toOption hp
  have hread : ofImage read.image = .ok read := by decide +kernel
  have hcapital : ("START", 0x204) ∈ read.labels.entries := by decide +kernel
  have hsmall : ("start", 0x200) ∈ read.labels.entries := by decide +kernel
  have hlower : "start".map Char.toLower = "start" := by decide +kernel
  obtain ⟨labels, -, -, hlisted, hfinds, -⟩ := (finds_labels read).2 read.image hread
  have hlast := (hlisted ("start", 0x200)).mp hsmall
  refine ⟨⟨p, hassemble, (finds_labels p).1 _ _ hassemble _ (by simp [hentries])⟩, hread, hcapital,
    (hfinds _ hsmall).mpr (by rw [hlower]; exact hlast), fun h => ?_⟩
  have hother := (hfinds _ hcapital).mp h
  rw [show "START".map Char.toLower = "start" by decide +kernel, hlast] at hother
  exact absurd hother (by decide)

/-- A label in an image whose name has a capital is not found by that name. -/
theorem capital_not_found :
    let p : Program := ⟨0x200, 0x200, none, [0, 0, 0, 0], .ofList [("Start", 0x200)]⟩
    ofImage p.image = .ok p ∧ ("Start", 0x200) ∈ p.labels.entries ∧ p.label? "Start" = none := by
  decide +kernel

end RegisterMachine.Program
