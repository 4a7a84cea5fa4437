import RegisterMachine.Program.Image
import RegisterMachine.Proofs.Except
import RegisterMachine.Proofs.Number.LittleEndian
import RegisterMachine.Proofs.Program.LabelTable
import RegisterMachine.Proofs.Text.Utf8Order

/-! What images are read as which program.

Each reader has one law: it succeeds exactly on what its writer writes, with anything
behind it, and hands that on. From the first field to the last they say what can be read
(`exists_of_ofImage`, `ofImage_imageWith`): the program's own fields in their order, and a
list of labels of which the program has the table. The list may be in any order and name a
label again, so a program has more than one image; `Program.image` is the one whose names
ascend (`ofImage_image`). -/
namespace RegisterMachine

open LittleEndian

namespace Image

variable {input bytes rest : List UInt8} {word : UInt32} {count : Nat}

/-! ### Reading a field -/

theorem take_ok_iff : take count input = .ok (bytes, rest) ↔
    input = bytes ++ rest ∧ bytes.length = count := by
  unfold take
  dsimp only
  constructor
  · intro h
    split at h
    · cases h
    · rename_i hlong
      cases h
      have hle : (input.take count).length ≤ count := by
        rw [List.length_take]
        exact Nat.min_le_left ..
      exact ⟨(List.take_append_drop count input).symm, by omega⟩
  · rintro ⟨rfl, rfl⟩
    simp

theorem expect_ok_iff {e : ImageError} : expect bytes e input = .ok rest ↔
    input = bytes ++ rest := by
  rw [expect, bind_ok_iff]
  constructor
  · rintro ⟨⟨found, after⟩, htake, h⟩
    dsimp only at h
    split at h
    · rename_i hfound
      cases h
      rw [← hfound]
      exact (take_ok_iff.mp htake).1
    · cases h
  · intro h
    exact ⟨(bytes, rest), take_ok_iff.mpr ⟨h, rfl⟩, if_pos rfl⟩

theorem expect_append {e : ImageError} : expect bytes e (bytes ++ rest) = .ok rest := by
  rw [expect_ok_iff]

theorem takeWord_ok_iff : takeWord input = .ok (word, rest) ↔ input = wordField word ++ rest := by
  rw [takeWord, bind_ok_iff]
  constructor
  · rintro ⟨⟨found, after⟩, htake, h⟩
    obtain ⟨rfl, hlength⟩ := take_ok_iff.mp htake
    cases h
    have hlt := value_lt found
    have hvalue : (UInt32.ofNat (value found)).toNat = value found :=
      UInt32.toNat_ofNat_of_lt' (by rwa [hlength] at hlt)
    have hfound := bytes_value found
    rw [hlength] at hfound
    rw [wordField, wordBytes, hvalue, hfound]
  · rintro rfl
    refine ⟨(wordBytes word, rest), take_ok_iff.mpr ⟨rfl, length_wordBytes word⟩, ?_⟩
    dsimp only
    rw [value_wordBytes, UInt32.ofNat_toNat]

theorem takeWord_append : takeWord (wordField word ++ rest) = .ok (word, rest) := by
  rw [takeWord_ok_iff]

theorem takeBytes_ok_iff : takeBytes input = .ok (bytes, rest) ↔
    bytes.length < 2 ^ 32 ∧ input = bytesField bytes ++ rest := by
  rw [takeBytes, bind_ok_iff]
  constructor
  · rintro ⟨⟨count, after⟩, hcount, htake⟩
    obtain rfl := takeWord_ok_iff.mp hcount
    obtain ⟨rfl, hlength⟩ := take_ok_iff.mp htake
    rw [bytesField, hlength, UInt32.ofNat_toNat, List.append_assoc]
    exact ⟨count.toNat_lt, rfl⟩
  · rintro ⟨hlength, rfl⟩
    refine ⟨(UInt32.ofNat bytes.length, bytes ++ rest), takeWord_ok_iff.mpr ?_, ?_⟩
    · rw [bytesField, List.append_assoc]
    · exact take_ok_iff.mpr ⟨rfl, (UInt32.toNat_ofNat_of_lt' hlength).symm⟩

theorem takeBytes_append (h : bytes.length < 2 ^ 32) :
    takeBytes (bytesField bytes ++ rest) = .ok (bytes, rest) := by
  rw [takeBytes_ok_iff]
  exact ⟨h, rfl⟩

/-! ### Reading labels -/

theorem takeLabel_ok_iff {label : String × UInt32} : takeLabel input = .ok (label, rest) ↔
    (Text.utf8 label.1).length < 2 ^ 32 ∧ input = labelField label ++ rest := by
  rw [takeLabel, bind_ok_iff]
  constructor
  · rintro ⟨⟨bytes, after⟩, hbytes, h⟩
    obtain ⟨hlength, rfl⟩ := takeBytes_ok_iff.mp hbytes
    dsimp only at h
    split at h
    · cases h
    · rename_i name hname
      obtain ⟨⟨address, behind⟩, haddress, hlabel⟩ := bind_ok_iff.mp h
      cases hlabel
      obtain rfl := takeWord_ok_iff.mp haddress
      rw [labelField, Text.utf8_of_ofUtf8? hname, List.append_assoc]
      exact ⟨hlength, rfl⟩
  · rintro ⟨hlength, rfl⟩
    refine ⟨(Text.utf8 label.1, wordField label.2 ++ rest), takeBytes_ok_iff.mpr ⟨hlength, ?_⟩, ?_⟩
    · rw [labelField, List.append_assoc]
    · dsimp only
      rw [Text.ofUtf8?_utf8]
      exact bind_ok_iff.mpr ⟨(label.2, rest), takeWord_ok_iff.mpr rfl, rfl⟩

/-- As many labels are read as were written, each with the length of its name in a word. -/
theorem takeLabels_ok_iff {labels : List (String × UInt32)} :
    takeLabels count input = .ok (labels, rest) ↔
      labels.length = count ∧ (∀ label ∈ labels, (Text.utf8 label.1).length < 2 ^ 32) ∧
        input = labels.flatMap labelField ++ rest := by
  induction count generalizing input labels with
  | zero =>
    rw [takeLabels]
    constructor
    · rintro ⟨⟩
      exact ⟨rfl, nofun, rfl⟩
    · rintro ⟨hcount, -, rfl⟩
      obtain rfl := List.eq_nil_of_length_eq_zero hcount
      rfl
  | succ count ih =>
    rw [takeLabels, bind_ok_iff]
    constructor
    · rintro ⟨⟨label, after⟩, hlabel, h⟩
      obtain ⟨hname, rfl⟩ := takeLabel_ok_iff.mp hlabel
      obtain ⟨⟨others, behind⟩, hothers, hlabels⟩ := bind_ok_iff.mp h
      cases hlabels
      obtain ⟨hcount, hnames, rfl⟩ := ih.mp hothers
      exact ⟨congrArg (· + 1) hcount, List.forall_mem_cons.mpr ⟨hname, hnames⟩, by simp⟩
    · rintro ⟨hcount, hnames, rfl⟩
      obtain ⟨label, labels, rfl⟩ := List.exists_cons_of_length_eq_add_one hcount
      obtain ⟨hname, hnames⟩ := List.forall_mem_cons.mp hnames
      refine ⟨(label, labels.flatMap labelField ++ rest), takeLabel_ok_iff.mpr ⟨hname, by simp⟩,
        bind_ok_iff.mpr ⟨(labels, rest), ih.mpr ⟨Nat.succ.inj hcount, hnames, rfl⟩, rfl⟩⟩

theorem takeLabels_append {labels : List (String × UInt32)} (hcount : labels.length = count)
    (hnames : ∀ label ∈ labels, (Text.utf8 label.1).length < 2 ^ 32) :
    takeLabels count (labels.flatMap labelField ++ rest) = .ok (labels, rest) := by
  rw [takeLabels_ok_iff]
  exact ⟨hcount, hnames, rfl⟩

/-- Labels that an image can list: their number and the length of each name is a word. -/
structure Lists (labels : List (String × UInt32)) : Prop where
  count : labels.length < 2 ^ 32
  names : ∀ name ∈ labels.map Prod.fst, (Text.utf8 name).length < 2 ^ 32

theorem Lists.ofList {labels : List (String × UInt32)} (h : Lists labels) :
    Lists (LabelTable.ofList labels).entries where
  count := Nat.lt_of_le_of_lt (LabelTable.size_ofList_le labels) h.count
  names name hname := h.names name (LabelTable.mem_of_mem_ofList hname)

/-- The last field of an image: how many labels there are, and the labels. -/
theorem takeLabels_of_lists {labels : List (String × UInt32)} :
    (∃ count after, takeWord input = .ok (count, after) ∧
      takeLabels count.toNat after = .ok (labels, [])) ↔
    Lists labels ∧ input = wordField (UInt32.ofNat labels.length) ++ labels.flatMap labelField := by
  constructor
  · rintro ⟨count, after, hcount, hlabels⟩
    obtain rfl := takeWord_ok_iff.mp hcount
    obtain ⟨hlength, hnames, rfl⟩ := takeLabels_ok_iff.mp hlabels
    rw [hlength, UInt32.ofNat_toNat, List.append_nil]
    exact ⟨⟨hlength ▸ count.toNat_lt, by simpa using hnames⟩, rfl⟩
  · rintro ⟨⟨hlength, hnames⟩, rfl⟩
    exact ⟨_, _, takeWord_ok_iff.mpr rfl, takeLabels_ok_iff.mpr
      ⟨(UInt32.toNat_ofNat_of_lt' hlength).symm, by simpa using hnames,
        (List.append_nil _).symm⟩⟩

end Image

namespace Program

open Image

variable {p : Program} {input : List UInt8} {labels : List (String × UInt32)}

/-- A program that an image can hold. -/
structure Storable (p : Program) : Prop where
  origin : p.origin.toNat % 4 = 0
  aligned : p.size % 4 = 0
  size : p.size < 2 ^ 32
  /-- Zero stands for no stack size. -/
  stackSize : p.stackSize ≠ some 0
  labels : Lists p.labels.entries

theorem Storable.not_unaligned (h : p.Storable) :
    ¬ (p.origin.toNat % 4 ≠ 0 ∨ p.bytes.length % 4 ≠ 0) := by
  simp [h.origin, show p.bytes.length % 4 = 0 from h.aligned]

/-- The image of a program with these labels listed in it. -/
def imageWith (p : Program) (labels : List (String × UInt32)) : List UInt8 :=
  magic ++ version ++ wordField p.origin ++ wordField p.entry ++ wordField (p.stackSize.getD 0)
    ++ bytesField p.bytes ++ wordField (UInt32.ofNat labels.length) ++ labels.flatMap labelField

theorem image_eq (p : Program) : p.image = p.imageWith p.labels.entries := rfl

theorem imageWith_eq (p : Program) (labels : List (String × UInt32)) :
    p.imageWith labels = magic ++ (version ++ (wordField p.origin ++ (wordField p.entry ++
      (wordField (p.stackSize.getD 0) ++ (bytesField p.bytes ++
        (wordField (UInt32.ofNat labels.length) ++ labels.flatMap labelField)))))) := by
  simp [imageWith]

/-- Two lists with the same image are the same list. -/
theorem imageWith_injective {front back : List (String × UInt32)} (hfront : Lists front)
    (hback : Lists back) (h : p.imageWith front = p.imageWith back) : front = back := by
  rw [imageWith_eq, imageWith_eq] at h
  simp only [List.append_cancel_left_eq] at h
  obtain ⟨count, after, hcount, hlabels⟩ := takeLabels_of_lists.mpr ⟨hfront, rfl⟩
  obtain ⟨count', after', hcount', hlabels'⟩ := takeLabels_of_lists.mpr ⟨hback, h⟩
  rw [hcount] at hcount'
  cases hcount'
  rw [hlabels] at hlabels'
  cases hlabels'
  rfl

/-- Every image is read to its last byte, whatever the order of its labels, and nothing may stand
behind it. -/
theorem ofImage_append (h : p.Storable) (hlists : Lists labels)
    (hlabels : p.labels = .ofList labels) (more : List UInt8) :
    ofImage (p.imageWith labels ++ more) =
      if more.isEmpty then .ok p else .error .trailingBytes := by
  have hstack : (if p.stackSize.getD 0 = 0 then none else some (p.stackSize.getD 0)) =
      p.stackSize := by
    cases hsize : p.stackSize with
    | none => rfl
    | some size => exact if_neg fun hzero => h.stackSize (hsize.trans (congrArg some hzero))
  have hcount : labels.length = (UInt32.ofNat labels.length).toNat :=
    (UInt32.toNat_ofNat_of_lt' hlists.count).symm
  have hnames : ∀ label ∈ labels, (Text.utf8 label.1).length < 2 ^ 32 := by
    simpa using hlists.names
  simp only [imageWith_eq, List.append_assoc, ofImage, expect_append, takeWord_append,
    takeBytes_append h.size, takeLabels_append hcount hnames, ok_bind, if_neg h.not_unaligned,
    hstack, ← hlabels]

theorem ofImage_imageWith (h : p.Storable) (hlists : Lists labels)
    (hlabels : p.labels = .ofList labels) : ofImage (p.imageWith labels) = .ok p := by
  have hread := ofImage_append h hlists hlabels []
  rwa [List.append_nil] at hread

theorem ofImage_of_storable (h : p.Storable) : ofImage p.image = .ok p :=
  ofImage_imageWith h h.labels (LabelTable.ofList_entries p.labels).symm

/-- What is read is a program that an image can hold, from an image of it. -/
theorem exists_of_ofImage (h : ofImage input = .ok p) :
    p.Storable ∧ ∃ labels, Lists labels ∧ p.labels = .ofList labels ∧
      input = p.imageWith labels := by
  simp only [ofImage, bind_ok_iff, expect_ok_iff] at h
  obtain ⟨_, rfl, _, rfl, ⟨origin, _⟩, horigin, ⟨entry, _⟩, hentry, ⟨stackSize, _⟩, hstackSize,
    ⟨bytes, _⟩, hbytes, hrest⟩ := h
  dsimp only at hentry hstackSize hbytes hrest
  split at hrest
  · cases hrest
  rename_i haligned
  obtain ⟨⟨count, _⟩, hcount, ⟨labels, rest⟩, hlabels, hprogram⟩ := by
    simpa only [bind_ok_iff] using hrest
  dsimp only at hlabels hprogram
  split at hprogram
  · rename_i hend
    cases hprogram
    obtain rfl := List.isEmpty_iff.mp hend
    -- from the last field to the first, because each says what stands behind the one before it
    obtain ⟨hlists, rfl⟩ := takeLabels_of_lists.mp ⟨count, _, hcount, hlabels⟩
    obtain ⟨hlength, rfl⟩ := takeBytes_ok_iff.mp hbytes
    obtain rfl := takeWord_ok_iff.mp hstackSize
    obtain rfl := takeWord_ok_iff.mp hentry
    obtain rfl := takeWord_ok_iff.mp horigin
    have hstack : (if stackSize = 0 then none else some stackSize).getD 0 = stackSize := by
      by_cases hzero : stackSize = 0 <;> simp [hzero]
    refine ⟨⟨?_, ?_, hlength, ?_, hlists.ofList⟩, labels, hlists, rfl, ?_⟩
    · show origin.toNat % 4 = 0
      omega
    · show bytes.length % 4 = 0
      omega
    · by_cases hzero : stackSize = 0 <;> simp [hzero]
    · rw [imageWith_eq, hstack]
  · cases hprogram

/-- **Images are read as they were written.** Every program that an image can hold is read back
from its image. What is read from any bytes is such a program, and the bytes are its image with
the labels in some list, of which the last address of a name counts; they are the image that
the program has exactly if the names in the list ascend in the order of their bytes. -/
theorem ofImage_image :
    (∀ p : Program, p.Storable → ofImage p.image = .ok p) ∧
    ∀ (input : List UInt8) (p : Program), ofImage input = .ok p →
      p.Storable ∧ ofImage p.image = .ok p ∧
      ∃ labels, Lists labels ∧ input = p.imageWith labels ∧
        (p.image = input ↔ (labels.map fun label => Text.utf8 label.1).Pairwise (· < ·)) ∧
        ∀ name, p.labels.find? name = labels.reverse.lookup name := by
  refine ⟨fun p => ofImage_of_storable, fun input p h => ?_⟩
  obtain ⟨hstorable, labels, hlists, hlabels, rfl⟩ := exists_of_ofImage h
  refine ⟨hstorable, ofImage_of_storable hstorable, labels, hlists, rfl, ?_, fun name => ?_⟩
  · calc p.image = p.imageWith labels
        ↔ p.labels.entries = labels :=
          ⟨imageWith_injective hstorable.labels hlists, congrArg p.imageWith⟩
      _ ↔ (labels.map Prod.fst).Pairwise (· < ·) := by
          rw [hlabels]
          exact LabelTable.entries_ofList_iff
      _ ↔ (labels.map fun label => Text.utf8 label.1).Pairwise (· < ·) := by
          simp only [List.pairwise_map, Text.utf8_lt_iff]
  · rw [hlabels, LabelTable.find?_ofList]

/-- A program whose image lists its two labels the other way round, one of them twice. -/
theorem ofImage_image_reordered :
    let p : Program := ⟨0x210, 0x214, some 16, [1, 0, 0, 0, 0, 0, 0, 0],
      .ofList [("data", 0x218), ("main", 0x214)]⟩
    let input := p.imageWith [("main", 0), ("main", 0x214), ("data", 0x218)]
    p.Storable ∧ ofImage p.image = .ok p ∧ ofImage input = .ok p ∧ p.image ≠ input := by
  intro p input
  have hinput : ofImage input = .ok p := by decide +kernel
  have hp := ofImage_image.2 input p hinput
  exact ⟨hp.1, ofImage_image.1 p hp.1, hinput, by decide +kernel⟩

end Program

end RegisterMachine
