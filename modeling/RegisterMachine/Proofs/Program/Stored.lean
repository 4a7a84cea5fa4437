import RegisterMachine.Proofs.Assembly.LabelOperand
import RegisterMachine.Proofs.Program.ImageCodec
import RegisterMachine.Proofs.Text.LetterCase

/-! What the assembler makes can be stored.

An image cannot hold every program: the origin and the size must be whole words, no stack
size may be zero, and numbers and lengths must fit in words. The first pass keeps to the
first three (`settles_of_layout`), and the others follow from the size of the image itself
(`lists_of_image`). So an assembled program is read back from its image
(`Program.ofImage_of_assemble`). -/
namespace RegisterMachine

/-! ### Names in lower case -/

/-- All names are in lower case. -/
def LabelTable.Lower (t : LabelTable) : Prop :=
  ∀ e ∈ t.entries, e.1.map Char.toLower = e.1

theorem LabelTable.Lower.insert {t : LabelTable} (h : t.Lower) (name : String) (address : UInt32) :
    (t.insert (name.map Char.toLower) address).Lower := by
  intro e he
  rcases mem_map_insertEntry (List.mem_map_of_mem he) with hname | hold
  · rw [hname]
    exact map_toLower_map_toLower name
  · obtain ⟨e', he', hname⟩ := List.mem_map.mp hold
    rw [← hname]
    exact h e' he'

/-! ### What the first pass keeps to -/

/-- No stack size is zero, and the labels are in lower case. -/
structure LayoutState.Settles (s : LayoutState) : Prop where
  stackSize : s.stackSize ≠ some 0
  labels : s.labels.Lower

theorem kept_settles : Kept LayoutState.Settles where
  settings _ _ h hsize := ⟨hsize h.stackSize, h.labels⟩
  bind name h hok := by
    obtain ⟨labels, hdefine, rfl⟩ := LayoutState.bind_ok hok
    obtain rfl := LabelTable.define_ok hdefine
    exact ⟨h.stackSize, h.labels.insert name _⟩
  place _ _ _ h _ _ := ⟨h.stackSize, h.labels⟩

theorem Program.settles_of_layout {source : String} {origin : UInt32} {l : Layout}
    (h : layout source origin = .ok l) : l.stackSize ≠ some 0 ∧ l.labels.Lower := by
  obtain ⟨statements, -, hstatements⟩ := bind_ok_iff.mp h
  have hstart : (LayoutState.start origin.toNat).Settles :=
    ⟨nofun, fun _ he => absurd he List.not_mem_nil⟩
  obtain ⟨s, hs, rfl⟩ := kept_settles.ofStatements hstart hstatements
  exact ⟨hs.stackSize, hs.labels⟩

theorem Program.lower_of_assemble {source : String} {origin : UInt32} {p : Program}
    (h : assemble source origin = .ok p) : p.labels.Lower := by
  obtain ⟨l, hlayout, -, -, hp, -⟩ := assemble_ok h
  rw [hp]
  exact (settles_of_layout hlayout).2

/-! ### What the size of an image bounds -/

namespace Image

theorem length_labelField (label : String × UInt32) :
    (labelField label).length = (Text.utf8 label.1).length + 8 := by
  unfold labelField bytesField wordField
  rw [List.length_append, List.length_append, LittleEndian.length_wordBytes,
    LittleEndian.length_wordBytes]
  omega

theorem length_le_flatMap_labelField (labels : List (String × UInt32)) :
    labels.length ≤ (labels.flatMap labelField).length ∧
      ∀ label ∈ labels, (Text.utf8 label.1).length ≤ (labels.flatMap labelField).length := by
  induction labels with
  | nil => exact ⟨Nat.le_refl _, nofun⟩
  | cons label rest ih =>
    obtain ⟨hcount, hnames⟩ := ih
    have hlength := length_labelField label
    rw [List.flatMap_cons, List.length_append, List.length_cons]
    refine ⟨by omega, fun other hother => ?_⟩
    rcases List.mem_cons.mp hother with rfl | hother
    · omega
    · have hname := hnames other hother
      omega

end Image

namespace Program

open Image

variable {p : Program}

theorem length_image (p : Program) :
    p.image.length = p.size + (p.labels.entries.flatMap labelField).length + 29 := by
  unfold image bytesField wordField size
  simp only [List.length_append, LittleEndian.length_wordBytes]
  have hmagic : magic.length = 6 := rfl
  have hversion : version.length = 3 := rfl
  omega

theorem lists_of_image (h : p.image.length < 2 ^ 32) :
    p.size < 2 ^ 32 ∧ Lists p.labels.entries := by
  rw [length_image] at h
  obtain ⟨hcount, hnames⟩ := length_le_flatMap_labelField p.labels.entries
  refine ⟨by omega, by omega, fun name hname => ?_⟩
  obtain ⟨label, hlabel, rfl⟩ := List.mem_map.mp hname
  have hle := hnames label hlabel
  omega

/-- An assembled program whose image is smaller than `2 ^ 32` bytes can be stored. -/
theorem storable_of_assemble {source : String} {origin : UInt32}
    (h : assemble source origin = .ok p) (himage : p.image.length < 2 ^ 32) :
    p.Storable ∧ p.labels.Lower := by
  obtain ⟨l, hlayout, haligned, -, hp, -⟩ := assemble_ok h
  obtain ⟨hstack, -⟩ := settles_of_layout hlayout
  obtain ⟨horigin, -, -, hwords⟩ := size_of_assemble h
  obtain ⟨hsize, hlists⟩ := lists_of_image himage
  have hstackSize : p.stackSize = l.stackSize := by rw [hp]
  exact ⟨⟨horigin ▸ haligned, hwords, hsize, hstackSize ▸ hstack, hlists⟩, lower_of_assemble h⟩

/-- It is read back as what it was. -/
theorem ofImage_of_assemble {source : String} {origin : UInt32}
    (h : assemble source origin = .ok p) (himage : p.image.length < 2 ^ 32) :
    ofImage p.image = .ok p := by
  obtain ⟨hstorable, -⟩ := storable_of_assemble h himage
  exact ofImage_of_storable hstorable

end Program
end RegisterMachine
