import RegisterMachine.Proofs.Program.ImageCodec

/-! What is said of an image that is not whole.

A field tells its own length, so a reader that is handed only a part of its field knows that bytes
are missing (`Image.NeedsAll`). Readers one after the other keep this: a cut falls into the field
of the first, or behind it and then into what the others read (`NeedsAll.bind`). It goes from the
words up to the whole image (`Program.needsAll_ofImage`), so that an image is the beginning of no
other. -/
namespace RegisterMachine

namespace Image

variable {α β : Type} {read : List UInt8 → Except ImageError α} {field later bytes : List UInt8}

/-- Of a field that is cut short, the reader says that it is. -/
def NeedsAll (read : List UInt8 → Except ImageError α) (field : List UInt8) : Prop :=
  ∀ front back, front ++ back = field → back ≠ [] → read front = .error .truncated

theorem NeedsAll.of_front {front : List UInt8} (hread : NeedsAll read field)
    (hfront : front <+: field) (hproper : front ≠ field) : read front = .error .truncated := by
  obtain ⟨back, hback⟩ := hfront
  refine hread front back hback ?_
  rintro rfl
  exact hproper (by rwa [List.append_nil] at hback)

theorem needsAll_nil : NeedsAll read [] := by
  intro front back h hback
  exact absurd (List.append_eq_nil_iff.mp h).2 hback

/-- What follows a reader is not asked about a cut in the field of that reader. -/
theorem NeedsAll.andThen {next : α → Except ImageError β} (hread : NeedsAll read field) :
    NeedsAll (fun input => read input >>= next) field := by
  intro front back h hback
  exact bind_error_iff.mpr (.inl (hread front back h hback))

/-- Two readers one after the other, the second of which is asked about what the first leaves. -/
theorem NeedsAll.bind {found : List UInt8 → α} {next : α → Except ImageError β}
    (hread : NeedsAll read field) (hfound : ∀ rest, read (field ++ rest) = .ok (found rest))
    (hnext : NeedsAll (fun rest => next (found rest)) later) :
    NeedsAll (fun input => read input >>= next) (field ++ later) := by
  -- a reader that has its field is followed by the next one
  have hbehind : ∀ front back, front ++ back = later → back ≠ [] →
      (read (field ++ front) >>= next) = .error .truncated := by
    intro front back h hback
    rw [hfound front]
    exact hnext front back h hback
  intro front back h hback
  rcases List.append_eq_append_iff.mp h with ⟨missing, hfield, hrest⟩ | ⟨more, hfront, hrest⟩
  · by_cases hmissing : missing = []
    · subst hmissing
      have hwhole := hbehind [] back hrest hback
      rwa [List.append_nil, hfield, List.append_nil] at hwhole
    · exact hread.andThen front missing hfield.symm hmissing
  · rw [hfront]
    exact hbehind more back hrest.symm hback

/-! ### The readers of fields -/

theorem needsAll_take : NeedsAll (take field.length) field := by
  rintro front back rfl hback
  have hshort : front.length < front.length + back.length :=
    Nat.lt_add_of_pos_right (List.length_pos_of_ne_nil hback)
  simp [take, hshort]

theorem needsAll_expect {e : ImageError} : NeedsAll (expect bytes e) bytes :=
  needsAll_take.andThen

theorem needsAll_takeWord (word : UInt32) : NeedsAll takeWord (wordField word) := by
  have htake : NeedsAll (take (wordField word).length) (wordField word) := needsAll_take
  rw [show (wordField word).length = 4 from LittleEndian.length_wordBytes word] at htake
  exact htake.andThen

theorem needsAll_takeBytes (h : bytes.length < 2 ^ 32) :
    NeedsAll takeBytes (bytesField bytes) := by
  refine (needsAll_takeWord _).bind (fun rest => takeWord_append) ?_
  dsimp only
  rw [UInt32.toNat_ofNat_of_lt' h]
  exact needsAll_take

theorem needsAll_takeLabel {label : String × UInt32} (h : (Text.utf8 label.1).length < 2 ^ 32) :
    NeedsAll takeLabel (labelField label) := by
  refine (needsAll_takeBytes h).bind (fun rest => takeBytes_append h) ?_
  simp only [Text.ofUtf8?_utf8]
  exact (needsAll_takeWord label.2).andThen

theorem needsAll_takeLabels {labels : List (String × UInt32)}
    (h : ∀ label ∈ labels, (Text.utf8 label.1).length < 2 ^ 32) :
    NeedsAll (takeLabels labels.length) (labels.flatMap labelField) := by
  induction labels with
  | nil => exact needsAll_nil
  | cons label labels ih =>
    obtain ⟨hlabel, hlabels⟩ := List.forall_mem_cons.mp h
    rw [List.flatMap_cons, List.length_cons]
    exact (needsAll_takeLabel hlabel).bind
      (fun rest => takeLabel_ok_iff.mpr ⟨hlabel, rfl⟩) (ih hlabels).andThen

end Image

namespace Program

open Image

variable {p : Program} {labels : List (String × UInt32)}

/-- An image is read only when it is whole. -/
theorem needsAll_ofImage (h : p.Storable) (hlists : Lists labels) :
    NeedsAll ofImage (p.imageWith labels) := by
  have hlabels : NeedsAll (takeLabels (UInt32.ofNat labels.length).toNat)
      (labels.flatMap labelField) := by
    rw [UInt32.toNat_ofNat_of_lt' hlists.count]
    exact needsAll_takeLabels (by simpa using hlists.names)
  rw [imageWith_eq]
  refine needsAll_expect.bind (fun rest => expect_append) ?_
  refine needsAll_expect.bind (fun rest => expect_append) ?_
  refine (needsAll_takeWord p.origin).bind (fun rest => takeWord_append) ?_
  refine (needsAll_takeWord p.entry).bind (fun rest => takeWord_append) ?_
  refine (needsAll_takeWord _).bind (fun rest => takeWord_append) ?_
  refine (needsAll_takeBytes h.size).bind (fun rest => takeBytes_append h.size) ?_
  simp only [if_neg h.not_unaligned]
  exact (needsAll_takeWord _).bind (fun rest => takeWord_append) hlabels.andThen

/-- What is read is not the beginning of an image. -/
theorem eq_of_begins_imageWith {q : Program} {input : List UInt8} (hread : ofImage input = .ok q)
    (h : p.Storable) (hlists : Lists labels) (hbegins : input <+: p.imageWith labels) :
    input = p.imageWith labels := by
  by_contra hproper
  have hcut := (needsAll_ofImage h hlists).of_front hbegins hproper
  rw [hread] at hcut
  cases hcut

/-- **A damaged image is not read.** Of the image of a program that an image can hold, every part
from its beginning that is not all of it is truncated, and with anything behind it the image has
trailing bytes. So no image is the beginning of another one, and two programs with one image are
one program. -/
theorem ofImage_damaged (p : Program) (h : p.Storable) :
    (∀ front, front <+: p.image → front ≠ p.image →
      (ofImage front).mapError ImageError.message = .error "decoding error: truncated") ∧
    (∀ more, more ≠ [] →
      (ofImage (p.image ++ more)).mapError ImageError.message =
        .error "decoding error: trailing bytes") ∧
    ∀ q : Program, q.Storable → p.image <+: q.image → p.image = q.image ∧ p = q := by
  refine ⟨?_, ?_, ?_⟩
  · intro front hfront hproper
    rw [(needsAll_ofImage h h.labels).of_front hfront hproper]
    rfl
  · intro more hmore
    have hown : p.labels = .ofList p.labels.entries := (LabelTable.ofList_entries p.labels).symm
    rw [image_eq, ofImage_append h h.labels hown, if_neg (by simpa using hmore)]
    rfl
  · intro q hq hbegins
    have hread : ofImage p.image = .ok p := ofImage_of_storable h
    have hsame : p.image = q.image := eq_of_begins_imageWith hread hq hq.labels hbegins
    refine ⟨hsame, ?_⟩
    rw [hsame, ofImage_of_storable hq] at hread
    exact (Except.ok.inj hread).symm

/-- An image that ends inside the name of its second label, one with a byte behind it, and one of
the same program with a third label. -/
theorem ofImage_damaged_in_label :
    let p : Program := ⟨0x210, 0x214, some 16, [1, 0, 0, 0, 0, 0, 0, 0],
      .ofList [("data", 0x218), ("main", 0x214)]⟩
    let q := { p with labels := p.labels.insert "stop" 0x21C }
    p.Storable ∧ q.Storable ∧ p.image.take 55 ++ [0x69, 0x6E, 0x14, 2, 0, 0] = p.image ∧
      (ofImage (p.image.take 55)).mapError ImageError.message =
        .error "decoding error: truncated" ∧
      (ofImage (p.image ++ [0])).mapError ImageError.message =
        .error "decoding error: trailing bytes" ∧
      ¬ p.image <+: q.image := by
  intro p q
  have hp : p.Storable := (exists_of_ofImage (by decide +kernel : ofImage p.image = .ok p)).1
  have hq : q.Storable := (exists_of_ofImage (by decide +kernel : ofImage q.image = .ok q)).1
  obtain ⟨hcut, hmore, hother⟩ := ofImage_damaged p hp
  refine ⟨hp, hq, by decide +kernel, hcut _ (List.take_prefix _ _) (by decide +kernel),
    hmore [0] (by decide), fun hbegins => ?_⟩
  exact absurd (hother q hq hbegins).2 (by decide +kernel)

end Program

end RegisterMachine
