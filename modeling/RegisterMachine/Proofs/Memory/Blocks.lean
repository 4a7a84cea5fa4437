import Mathlib
import RegisterMachine.Memory.Allocator

/-! Blocks that stand one behind the other.

The allocator keeps its blocks in the order of their addresses. `Apart` says so
together with what follows from it: no block is empty and no two share a byte.
Putting a free block in its place, taking a block out and cutting the end of one
keep it, and every gap the allocator finds is free.

A request is placed in one scan of the blocks. What the scan does is said here in parts
(`fit_eq_choice`): the gaps between the blocks (`gaps`), the first of them that fits exactly, the
first of the smallest larger ones (`smallest?`) and the room behind the blocks (`top`). -/
namespace RegisterMachine.Allocator

/-- No block is empty, and each ends before the later ones begin. -/
def Apart (blocks : List Block) : Prop :=
  (∀ b ∈ blocks, b.start < b.stop) ∧ blocks.Pairwise fun b c => b.stop ≤ c.start

/-- No byte of the block is in one of these. -/
def Free (blocks : List Block) (b : Block) : Prop := ∀ c ∈ blocks, ¬c.Overlaps b

variable {b c : Block} {blocks : List Block}

theorem not_overlaps_iff : ¬c.Overlaps b ↔ c.stop ≤ b.start ∨ b.stop ≤ c.start := by
  unfold Block.Overlaps
  omega

theorem apart_nil : Apart [] := ⟨fun _ h => absurd h List.not_mem_nil, .nil⟩

theorem apart_cons :
    Apart (b :: blocks) ↔
      b.start < b.stop ∧ (∀ c ∈ blocks, b.stop ≤ c.start) ∧ Apart blocks := by
  simp only [Apart, List.mem_cons, List.pairwise_cons]
  constructor
  · rintro ⟨hpos, hfirst, hrest⟩
    exact ⟨hpos b (.inl rfl), hfirst, fun c hc => hpos c (.inr hc), hrest⟩
  · rintro ⟨hb, hfirst, hpos, hrest⟩
    refine ⟨?_, hfirst, hrest⟩
    rintro c (rfl | hc)
    · exact hb
    · exact hpos c hc

theorem Apart.start_lt_stop (h : Apart blocks) (hb : b ∈ blocks) : b.start < b.stop := h.1 b hb

/-- The addresses ascend and no two blocks overlap. -/
theorem Apart.ascending (h : Apart blocks) :
    blocks.Pairwise fun b c => b.start < c.start ∧ ¬b.Overlaps c := by
  obtain ⟨hpos, hapart⟩ := h
  refine hapart.imp_of_mem fun hb hc hbc => ?_
  have hb := hpos _ hb
  exact ⟨by omega, not_overlaps_iff.mpr (.inl hbc)⟩

theorem Apart.nodup (h : Apart blocks) : blocks.Nodup :=
  h.ascending.imp fun hlt heq => by
    rw [heq] at hlt
    exact Nat.lt_irrefl _ hlt.1

/-- A block that is free is none of them. -/
theorem Free.not_mem (h : Free blocks b) (hb : b.start < b.stop) : b ∉ blocks :=
  fun hmem => h b hmem ⟨hb, hb⟩

/-! ### Putting a block in its place -/

theorem mem_insertBlock : c ∈ insertBlock b blocks ↔ c = b ∨ c ∈ blocks := by
  induction blocks with
  | nil => simp [insertBlock]
  | cons d rest ih =>
    by_cases hlt : d.start < b.start
    · rw [insertBlock, if_pos hlt, List.mem_cons, List.mem_cons, ih]
      exact or_left_comm
    · rw [insertBlock, if_neg hlt, List.mem_cons]

theorem apart_insertBlock (h : Apart blocks) (hb : b.start < b.stop) (hfree : Free blocks b) :
    Apart (insertBlock b blocks) := by
  induction blocks with
  | nil => exact apart_cons.mpr ⟨hb, fun _ hc => absurd hc List.not_mem_nil, apart_nil⟩
  | cons d rest ih =>
    obtain ⟨hd, hfirst, hrest⟩ := apart_cons.mp h
    have hbd := not_overlaps_iff.mp (hfree d List.mem_cons_self)
    have hfree' : Free rest b := fun c hc => hfree c (List.mem_cons_of_mem _ hc)
    by_cases hlt : d.start < b.start
    · -- the new block goes somewhere behind `d`
      rw [insertBlock, if_pos hlt]
      refine apart_cons.mpr ⟨hd, ?_, ih hrest hfree'⟩
      intro c hc
      rcases mem_insertBlock.mp hc with rfl | hc
      · omega
      · exact hfirst c hc
    · -- it goes in front, so `d` and all behind it begin at its end or later
      have hbd : b.stop ≤ d.start := by omega
      rw [insertBlock, if_neg hlt]
      refine apart_cons.mpr ⟨hb, ?_, h⟩
      intro c hc
      rcases List.mem_cons.mp hc with rfl | hc
      · exact hbd
      · have := hfirst c hc
        omega

/-! ### Taking a block out or cutting it -/

theorem apart_erase (h : Apart blocks) : Apart (blocks.erase b) :=
  ⟨fun c hc => h.1 c (List.mem_of_mem_erase hc), h.2.sublist List.erase_sublist⟩

theorem mem_erase_iff (h : Apart blocks) : c ∈ blocks.erase b ↔ c ≠ b ∧ c ∈ blocks :=
  h.nodup.mem_erase_iff

theorem mem_replace_iff (h : Apart blocks) (hb : b ∈ blocks) (d : Block) :
    c ∈ blocks.replace b d ↔ c = d ∨ c ≠ b ∧ c ∈ blocks := by
  have hnodup := h.nodup
  clear h
  induction blocks with
  | nil => exact absurd hb List.not_mem_nil
  | cons e rest ih =>
    obtain ⟨hout, hrest⟩ := List.nodup_cons.mp hnodup
    rw [List.replace_cons]
    by_cases heb : b = e
    · subst heb
      have hne : c ∈ rest → c ≠ b := by
        rintro hc rfl
        exact hout hc
      simp only [BEq.rfl, List.mem_cons]
      grind
    · have hb' : b ∈ rest := (List.mem_cons.mp hb).resolve_left heb
      have hne : e ≠ b := Ne.symm heb
      simp only [beq_false_of_ne heb, List.mem_cons, ih hb' hrest]
      grind

/-- What stands apart from a block stands apart from its front part. -/
theorem apart_replace (h : Apart blocks) {d : Block} (hb : b ∈ blocks) (hstart : d.start = b.start)
    (hd : d.start < d.stop) (hstop : d.stop ≤ b.stop) : Apart (blocks.replace b d) := by
  induction blocks with
  | nil => exact absurd hb List.not_mem_nil
  | cons e rest ih =>
    obtain ⟨he, hfirst, hrest⟩ := apart_cons.mp h
    rw [List.replace_cons]
    by_cases heb : b = e
    · subst heb
      simp only [BEq.rfl]
      exact apart_cons.mpr ⟨hd, fun c hc => Nat.le_trans hstop (hfirst c hc), hrest⟩
    · have hb' : b ∈ rest := (List.mem_cons.mp hb).resolve_left heb
      simp only [beq_false_of_ne heb]
      refine apart_cons.mpr ⟨he, ?_, ih hrest hb'⟩
      intro c hc
      rcases (mem_replace_iff hrest hb' d).mp hc with rfl | ⟨-, hc⟩
      · rw [hstart]
        exact hfirst b hb'
      · exact hfirst c hc

/-! ### The scan in parts -/

/-- The gaps between `cursor` and the last of these blocks. -/
def gaps (cursor : Nat) : List Block → List Block
  | [] => []
  | b :: rest =>
    if cursor < b.start then ⟨cursor, b.start⟩ :: gaps (max cursor b.stop) rest
    else gaps (max cursor b.stop) rest

/-- The first among the smallest blocks of a list. -/
def smallest? : List Block → Option Block
  | [] => none
  | b :: rest =>
    match smallest? rest with
    | some c => if c.size < b.size then some c else some b
    | none => some b

/-- Where these blocks end, if nothing below `cursor` is free. -/
def stopOf (cursor : Nat) (blocks : List Block) : Nat :=
  blocks.foldl (fun stop b => max stop b.stop) cursor

/-- Of two blocks in front only the smaller counts, and the first of two that are as small. -/
theorem smallest?_cons_cons (b c : Block) (blocks : List Block) :
    smallest? (b :: c :: blocks) = smallest? ((if c.size < b.size then c else b) :: blocks) := by
  simp only [smallest?]
  cases smallest? blocks with
  | none => exact (apply_ite some _ _ _).symm
  | some d => grind

/-- The best gap so far stands for all that were seen. -/
theorem smallest?_better (n : Nat) (gap : Block) (best : Option Block) (later : List Block) :
    smallest? ((better n gap best).toList ++ later.filter (n < ·.size)) =
      smallest? (best.toList ++ (gap :: later).filter (n < ·.size)) := by
  by_cases hlarger : n < gap.size
  · rw [List.filter_cons_of_pos (by simpa using hlarger)]
    cases best with
    | none => simp [better, hlarger]
    | some c =>
      show _ = smallest? (c :: gap :: _)
      rw [smallest?_cons_cons]
      by_cases hsmaller : gap.size < c.size <;> simp [better, hlarger, hsmaller]
  · rw [List.filter_cons_of_neg (by simpa using hlarger)]
    simp [better, hlarger]

/-- The scan finds the first gap that fits exactly. Otherwise it ends with the first of the smallest
larger gaps, the best one so far in front of those that are still to come. -/
theorem scan_eq (n limit cursor : Nat) (best : Option Block) (blocks : List Block) :
    scan n limit cursor best blocks =
      match (gaps cursor blocks).find? (·.size = n) with
      | some gap => .ok gap.start
      | none =>
        let start :=
          match smallest? (best.toList ++ (gaps cursor blocks).filter (n < ·.size)) with
          | some gap => gap.start
          | none => stopOf cursor blocks
        if start + n ≤ limit then .ok start else .error (.outOfMemory n) := by
  induction blocks generalizing cursor best with
  | nil => cases best <;> rfl
  | cons b rest ih =>
    by_cases hlt : cursor < b.start
    · rw [scan, gaps, if_pos hlt, if_pos hlt]
      by_cases hexact : Block.size ⟨cursor, b.start⟩ = n
      · rw [if_pos hexact, List.find?_cons_of_pos (by simpa using hexact)]
      · rw [if_neg hexact, List.find?_cons_of_neg (by simpa using hexact), ih, smallest?_better]
        rfl
    · rw [scan, gaps, if_neg hlt, if_neg hlt, ih]
      rfl

/-- Where the blocks end. -/
def top (a : Allocator) : Nat := stopOf a.origin a.blocks

/-- Where a request goes, said without the scan. -/
theorem fit_eq_choice {a : Allocator} {size aligned : Nat} (h : wordAlign size = some aligned) :
    a.fit size =
      match (gaps a.origin a.blocks).find? (·.size = aligned) with
      | some gap => .ok gap.start
      | none =>
        let start := match smallest? ((gaps a.origin a.blocks).filter (aligned < ·.size)) with
          | some gap => gap.start
          | none => a.top
        if start + aligned ≤ a.limit then .ok start else .error (.outOfMemory aligned) := by
  rw [fit, h]
  exact scan_eq aligned a.limit a.origin none a.blocks

/-- A size that cannot be rounded up is out of memory. -/
theorem fit_of_wordAlign_none {a : Allocator} {size : Nat} (h : wordAlign size = none) :
    a.fit size = .error (.outOfMemory size) := by
  rw [fit, h]

/-! ### Gaps -/

/-- A gap between `cursor` and the last block: it is not empty, begins at `cursor` or later, ends
where a block begins and is free. -/
structure Gap (cursor : Nat) (blocks : List Block) (g : Block) : Prop where
  nonempty : g.start < g.stop
  above : cursor ≤ g.start
  ends : ∃ b ∈ blocks, g.stop = b.start
  free : Free blocks g

theorem gap_of_mem_gaps {cursor : Nat} {g : Block} (h : Apart blocks)
    (hcursor : ∀ b ∈ blocks, cursor ≤ b.start) (hg : g ∈ gaps cursor blocks) :
    Gap cursor blocks g := by
  induction blocks generalizing cursor with
  | nil => exact absurd hg List.not_mem_nil
  | cons b rest ih =>
    obtain ⟨hb, hfirst, hrest⟩ := apart_cons.mp h
    have hbelow : cursor ≤ b.start := hcursor b List.mem_cons_self
    have hmax : max cursor b.stop = b.stop := Nat.max_eq_right (by omega)
    -- a gap behind `b` keeps clear of `b` too
    have later : g ∈ gaps b.stop rest → Gap cursor (b :: rest) g := by
      intro hg
      obtain ⟨hpos, habove, ⟨c, hc, hends⟩, hfree⟩ := ih hrest hfirst hg
      refine ⟨hpos, by omega, ⟨c, List.mem_cons_of_mem _ hc, hends⟩, ?_⟩
      intro d hd
      rcases List.mem_cons.mp hd with rfl | hd
      · exact not_overlaps_iff.mpr (.inl habove)
      · exact hfree d hd
    by_cases hlt : cursor < b.start
    · rw [gaps, if_pos hlt, hmax] at hg
      rcases List.mem_cons.mp hg with rfl | hg
      · refine ⟨hlt, Nat.le_refl _, ⟨b, List.mem_cons_self, rfl⟩, ?_⟩
        intro d hd
        rcases List.mem_cons.mp hd with rfl | hd
        · exact not_overlaps_iff.mpr (.inr (Nat.le_refl _))
        · have hd := hfirst d hd
          exact not_overlaps_iff.mpr (.inr (by show b.start ≤ d.start; omega))
      · exact later hg
    · rw [gaps, if_neg hlt, hmax] at hg
      exact later hg

theorem mem_of_smallest? {g : Block} (h : smallest? blocks = some g) : g ∈ blocks := by
  induction blocks generalizing g with
  | nil => exact absurd h (by simp [smallest?])
  | cons b rest ih =>
    cases hrest : smallest? rest with
    | none =>
      rw [smallest?, hrest] at h
      obtain rfl := Option.some.inj h
      exact List.mem_cons_self
    | some c =>
      rw [smallest?, hrest] at h
      by_cases hlt : c.size < b.size
      · obtain rfl := Option.some.inj ((if_pos hlt).symm.trans h)
        exact List.mem_cons_of_mem _ (ih hrest)
      · obtain rfl := Option.some.inj ((if_neg hlt).symm.trans h)
        exact List.mem_cons_self

/-! ### The room they take -/

/-- Blocks between two addresses take no more bytes than there are. -/
theorem sum_size_le {low high : Nat} (h : Apart blocks)
    (hinside : ∀ b ∈ blocks, low ≤ b.start ∧ b.stop ≤ high) :
    (blocks.map Block.size).sum ≤ high - low := by
  induction blocks generalizing low with
  | nil => exact Nat.zero_le _
  | cons b rest ih =>
    obtain ⟨hb, hfirst, hrest⟩ := apart_cons.mp h
    obtain ⟨hlow, hhigh⟩ := hinside b List.mem_cons_self
    have hothers := ih hrest fun c hc => ⟨hfirst c hc, (hinside c (List.mem_cons_of_mem _ hc)).2⟩
    simp only [List.map_cons, List.sum_cons]
    have : b.size = b.stop - b.start := rfl
    omega

/-- Adding sizes up in 32 bits loses only multiples of `2 ^ 32`. -/
theorem toNat_foldl_size (total : UInt32) (blocks : List Block) :
    (blocks.foldl (fun total b => total + UInt32.ofNat b.size) total).toNat =
      (total.toNat + (blocks.map Block.size).sum) % 2 ^ 32 := by
  induction blocks generalizing total with
  | nil =>
    have := total.toNat_lt
    simp only [List.foldl_nil, List.map_nil, List.sum_nil]
    omega
  | cons b rest ih =>
    simp only [List.foldl_cons, ih, List.map_cons, List.sum_cons, UInt32.toNat_add,
      UInt32.toNat_ofNat']
    omega

end RegisterMachine.Allocator
