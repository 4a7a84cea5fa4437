import RegisterMachine.Proofs.Memory.AllocatorHistory

/-! Where a request goes.

A gap is a stretch of free bytes in front of a block, as long as it can be (`FullGap`); the scan of
the blocks finds each gap once, in the order of their addresses. A request gets the lowest gap of
exactly its size, or else the lowest of the smallest larger gaps, or else the room behind the last
block (`Choice`). Whatever free stretch there is lies in a gap or behind the last block, so a
request fails only where there is no room for it at all (`best_fit`). -/
namespace RegisterMachine.Allocator

variable {a : Allocator} {b g : Block} {blocks : List Block} {cursor n size start : Nat}

/-! ### Gaps -/

/-- A gap that nothing can be added to: it begins at `cursor` or where a block ends. -/
structure FullGap (cursor : Nat) (blocks : List Block) (g : Block) : Prop extends
    Gap cursor blocks g where
  begins : g.start = cursor ∨ ∃ b ∈ blocks, g.start = b.stop

/-- A block's own gap is the one in front of it; the others are the gaps between its end and the
rest. -/
theorem fullGap_cons (h : Apart (b :: blocks)) (hcursor : cursor ≤ b.start) :
    FullGap cursor (b :: blocks) g ↔
      cursor < b.start ∧ g = ⟨cursor, b.start⟩ ∨ FullGap b.stop blocks g := by
  obtain ⟨hb, hfirst, hrest⟩ := apart_cons.mp h
  constructor
  · rintro ⟨⟨hpos, habove, ⟨c, hc, hends⟩, hfree⟩, hbegins⟩
    have hclear := not_overlaps_iff.mp (hfree b List.mem_cons_self)
    have hfree' : Free blocks g := fun d hd => hfree d (List.mem_cons_of_mem _ hd)
    rcases List.mem_cons.mp hc with rfl | hc
    · -- it ends where `b` begins, and nothing but the cursor is below that
      refine .inl ⟨by omega, ?_⟩
      rcases hbegins with hstart | ⟨d, hd, hstart⟩
      · rw [← hstart, ← hends]
      · have hd' := h.start_lt_stop hd
        rcases List.mem_cons.mp hd with rfl | hd
        · omega
        · have := hfirst d hd
          omega
    · have hc' := hfirst c hc
      refine .inr ⟨⟨hpos, by omega, ⟨c, hc, hends⟩, hfree'⟩, ?_⟩
      rcases hbegins with hstart | ⟨d, hd, hstart⟩
      · omega
      · rcases List.mem_cons.mp hd with rfl | hd
        · exact .inl hstart
        · exact .inr ⟨d, hd, hstart⟩
  · rintro (⟨hlt, rfl⟩ | ⟨⟨hpos, habove, ⟨c, hc, hends⟩, hfree⟩, hbegins⟩)
    · refine ⟨⟨hlt, Nat.le_refl _, ⟨b, List.mem_cons_self, rfl⟩, ?_⟩, .inl rfl⟩
      intro d hd
      rcases List.mem_cons.mp hd with rfl | hd
      · exact not_overlaps_iff.mpr (.inr (Nat.le_refl _))
      · have hd := hfirst d hd
        exact not_overlaps_iff.mpr (.inr (by show b.start ≤ d.start; omega))
    · refine ⟨⟨hpos, by omega, ⟨c, List.mem_cons_of_mem _ hc, hends⟩, ?_⟩, .inr ?_⟩
      · intro d hd
        rcases List.mem_cons.mp hd with rfl | hd
        · exact not_overlaps_iff.mpr (.inl habove)
        · exact hfree d hd
      · rcases hbegins with hstart | ⟨d, hd, hstart⟩
        · exact ⟨b, List.mem_cons_self, hstart⟩
        · exact ⟨d, List.mem_cons_of_mem _ hd, hstart⟩

theorem not_fullGap_nil : ¬FullGap cursor [] g := by
  rintro ⟨⟨-, -, ⟨b, hb, -⟩, -⟩, -⟩
  exact absurd hb List.not_mem_nil

theorem gaps_cons (h : Apart (b :: blocks)) (hcursor : cursor ≤ b.start) :
    gaps cursor (b :: blocks) =
      if cursor < b.start then ⟨cursor, b.start⟩ :: gaps b.stop blocks else gaps b.stop blocks := by
  have hb := h.start_lt_stop List.mem_cons_self
  rw [gaps, Nat.max_eq_right (by omega)]

/-- The scan finds the gaps and nothing else. -/
theorem mem_gaps_iff (h : Apart blocks) (hcursor : ∀ b ∈ blocks, cursor ≤ b.start) :
    g ∈ gaps cursor blocks ↔ FullGap cursor blocks g := by
  induction blocks generalizing cursor with
  | nil => exact ⟨fun hg => absurd hg List.not_mem_nil, fun hg => absurd hg not_fullGap_nil⟩
  | cons b rest ih =>
    obtain ⟨-, hfirst, hrest⟩ := apart_cons.mp h
    have hbelow := hcursor b List.mem_cons_self
    rw [gaps_cons h hbelow, fullGap_cons h hbelow, ← ih hrest hfirst]
    split
    · rename_i hlt
      rw [List.mem_cons]
      exact or_congr_left (and_iff_right hlt).symm
    · rename_i hge
      exact ⟨.inr, fun hg => hg.resolve_left fun hfront => hge hfront.1⟩

/-- The scan finds them in the order of their addresses. -/
theorem ascending_gaps (h : Apart blocks) (hcursor : ∀ b ∈ blocks, cursor ≤ b.start) :
    (gaps cursor blocks).Pairwise fun g c => g.start < c.start := by
  induction blocks generalizing cursor with
  | nil => exact .nil
  | cons b rest ih =>
    obtain ⟨hb, hfirst, hrest⟩ := apart_cons.mp h
    have hbelow := hcursor b List.mem_cons_self
    rw [gaps_cons h hbelow]
    split
    · refine List.pairwise_cons.mpr ⟨fun c hc => ?_, ih hrest hfirst⟩
      have habove := ((mem_gaps_iff hrest hfirst).mp hc).above
      show cursor < c.start
      omega
    · exact ih hrest hfirst

/-- A free stretch in front of a block lies in a gap. -/
theorem exists_gap_around (h : Apart blocks) (hcursor : ∀ b ∈ blocks, cursor ≤ b.start)
    (hb : b.start < b.stop) (habove : cursor ≤ b.start) (hfree : Free blocks b)
    (hfront : ∃ c ∈ blocks, b.stop ≤ c.start) :
    ∃ g ∈ gaps cursor blocks, g.start ≤ b.start ∧ b.stop ≤ g.stop := by
  induction blocks generalizing cursor with
  | nil =>
    obtain ⟨c, hc, -⟩ := hfront
    exact absurd hc List.not_mem_nil
  | cons d rest ih =>
    obtain ⟨hd, hfirst, hrest⟩ := apart_cons.mp h
    rw [gaps_cons h (hcursor d List.mem_cons_self)]
    rcases not_overlaps_iff.mp (hfree d List.mem_cons_self) with hbehind | hbefore
    · -- behind `d`, so in front of a later block
      have hlater : ∃ c ∈ rest, b.stop ≤ c.start := by
        obtain ⟨c, hc, hstop⟩ := hfront
        rcases List.mem_cons.mp hc with rfl | hc
        · omega
        · exact ⟨c, hc, hstop⟩
      obtain ⟨g, hg, haround⟩ := ih hrest hfirst hbehind
        (fun c hc => hfree c (List.mem_cons_of_mem _ hc)) hlater
      refine ⟨g, ?_, haround⟩
      split
      · exact List.mem_cons_of_mem _ hg
      · exact hg
    · rw [if_pos (by omega)]
      exact ⟨_, List.mem_cons_self, habove, hbefore⟩

/-! ### The first of the smallest -/

theorem smallest?_eq_none : smallest? blocks = none ↔ blocks = [] := by
  cases blocks with
  | nil => simp [smallest?]
  | cons b rest =>
    rw [smallest?]
    split
    · split <;> simp
    · simp

/-- None of these blocks is smaller, and of those as small none is in front. -/
theorem smallest?_le (hascending : blocks.Pairwise fun b c => b.start < c.start)
    (h : smallest? blocks = some g) {c : Block} (hc : c ∈ blocks) :
    g.size < c.size ∨ g.size = c.size ∧ g.start ≤ c.start := by
  induction blocks generalizing g with
  | nil => exact absurd hc List.not_mem_nil
  | cons b rest ih =>
    obtain ⟨hfirst, hrest⟩ := List.pairwise_cons.mp hascending
    rw [smallest?] at h
    cases hlater : smallest? rest with
    | none =>
      obtain rfl := smallest?_eq_none.mp hlater
      obtain rfl := List.mem_singleton.mp hc
      obtain rfl : c = g := by simpa [smallest?] using h
      exact .inr ⟨rfl, Nat.le_refl _⟩
    | some d =>
      have hd := mem_of_smallest? hlater
      simp only [hlater] at h
      split at h
      · rename_i hlt
        obtain rfl := Option.some.inj h
        rcases List.mem_cons.mp hc with rfl | hc
        · exact .inl hlt
        · exact ih hrest hlater hc
      · rename_i hge
        obtain rfl := Option.some.inj h
        rcases List.mem_cons.mp hc with rfl | hc
        · exact .inr ⟨rfl, Nat.le_refl _⟩
        · -- `d` is not smaller than the block in front, and no later one is smaller than `d`
          have hstart := hfirst c hc
          rcases ih hrest hlater hc with hlt | ⟨heq, -⟩ <;> omega

/-- What is found first is the lowest. -/
theorem find?_le {p : Block → Bool} (hascending : blocks.Pairwise fun b c => b.start < c.start)
    (h : blocks.find? p = some g) {c : Block} (hc : c ∈ blocks) (hp : p c = true) :
    g.start ≤ c.start := by
  obtain ⟨-, front, back, rfl, hfront⟩ := List.find?_eq_some_iff_append.mp h
  obtain ⟨-, hback, -⟩ := List.pairwise_append.mp hascending
  rcases List.mem_append.mp hc with hc | hc
  · exact absurd hp (by simpa using hfront c hc)
  · rcases List.mem_cons.mp hc with rfl | hc
    · exact Nat.le_refl _
    · exact Nat.le_of_lt ((List.pairwise_cons.mp hback).1 c hc)

/-! ### Behind the last block -/

/-- Where the last block ends, or the region begins if there is none. -/
def lastStop (a : Allocator) : Nat := (a.blocks.getLast?.map Block.stop).getD a.origin

theorem stopOf_eq (h : Apart blocks) (hcursor : ∀ b ∈ blocks, cursor ≤ b.start) :
    stopOf cursor blocks = (blocks.getLast?.map Block.stop).getD cursor := by
  induction blocks generalizing cursor with
  | nil => rfl
  | cons b rest ih =>
    obtain ⟨hb, hfirst, hrest⟩ := apart_cons.mp h
    have hbelow := hcursor b List.mem_cons_self
    have hstop : stopOf cursor (b :: rest) = stopOf b.stop rest := by
      show stopOf (max cursor b.stop) rest = _
      rw [Nat.max_eq_right (by omega)]
    rw [hstop, ih hrest hfirst, List.getLast?_cons]
    cases rest.getLast? <;> rfl

theorem top_eq_lastStop (h : a.Orderly) : a.top = a.lastStop :=
  stopOf_eq h.apart fun b hb => (h.inside b hb).1

/-! ### The choice -/

/-- A gap between the origin and the last block. -/
abbrev IsGap (a : Allocator) (g : Block) : Prop := FullGap a.origin a.blocks g

/-- Where a request for this many bytes goes if there is room. -/
inductive Choice (a : Allocator) (n : Nat) : Nat → Prop
  /-- The lowest gap of exactly this size. -/
  | exact {g : Block} (hg : a.IsGap g) (hsize : g.size = n)
    (hlowest : ∀ c, a.IsGap c → c.size = n → g.start ≤ c.start) : Choice a n g.start
  /-- No gap fits exactly: the lowest of the smallest larger ones. -/
  | larger {g : Block} (hg : a.IsGap g) (hlarger : n < g.size)
    (hexact : ∀ c, a.IsGap c → c.size ≠ n)
    (hsmallest : ∀ c, a.IsGap c → n < c.size →
      g.size < c.size ∨ g.size = c.size ∧ g.start ≤ c.start) : Choice a n g.start
  /-- Every gap is too small: behind the last block. -/
  | behind (hsmaller : ∀ c, a.IsGap c → c.size < n) : Choice a n a.lastStop

theorem mem_gaps (h : a.Orderly) : g ∈ gaps a.origin a.blocks ↔ a.IsGap g :=
  mem_gaps_iff h.apart fun b hb => (h.inside b hb).1

/-- A gap of at least this size ends inside the region. -/
theorem IsGap.add_le (hg : a.IsGap g) (h : a.Orderly) (hsize : n ≤ g.size) :
    g.start + n ≤ a.limit := by
  obtain ⟨c, hc, hends⟩ := hg.ends
  have hlimit := (h.inside c hc).2
  have hc' := h.apart.start_lt_stop hc
  have hpos := hg.nonempty
  have hdef : g.size = g.stop - g.start := rfl
  omega

/-- A request for a size that can be rounded up succeeds if what it chooses fits the region. -/
theorem fit_eq (h : a.Orderly) (haligned : wordAlign size = some n) :
    ∃ start, a.Choice n start ∧
      a.fit size = if start + n ≤ a.limit then .ok start else .error (.outOfMemory n) := by
  have hascending : (gaps a.origin a.blocks).Pairwise fun g c => g.start < c.start :=
    ascending_gaps h.apart fun b hb => (h.inside b hb).1
  rw [fit_eq_choice haligned]
  cases hexact : (gaps a.origin a.blocks).find? (·.size = n) with
  | some g =>
    have hg := (mem_gaps h).mp (List.mem_of_find?_eq_some hexact)
    have hsize : g.size = n := by simpa using List.find?_some hexact
    refine ⟨g.start, .exact hg hsize fun c hc hn => ?_, ?_⟩
    · exact find?_le hascending hexact ((mem_gaps h).mpr hc) (by simpa using hn)
    · exact (if_pos (IsGap.add_le hg h (Nat.le_of_eq hsize.symm))).symm
  | none =>
    have hnone : ∀ c, a.IsGap c → c.size ≠ n := fun c hc hn =>
      List.find?_eq_none.mp hexact c ((mem_gaps h).mpr hc) (by simpa using hn)
    dsimp only
    cases hlarger : smallest? ((gaps a.origin a.blocks).filter (n < ·.size)) with
    | some g =>
      obtain ⟨hmem, hlt⟩ := List.mem_filter.mp (mem_of_smallest? hlarger)
      refine ⟨g.start, .larger ((mem_gaps h).mp hmem) (by simpa using hlt) hnone ?_, rfl⟩
      intro c hc hn
      exact smallest?_le (hascending.filter _) hlarger
        (List.mem_filter.mpr ⟨(mem_gaps h).mpr hc, by simpa using hn⟩)
    | none =>
      refine ⟨a.lastStop, .behind fun c hc => ?_, by rw [top_eq_lastStop h]⟩
      have hempty := smallest?_eq_none.mp hlarger
      have hle : ¬n < c.size := by
        simpa using List.filter_eq_nil_iff.mp hempty c ((mem_gaps h).mpr hc)
      have hne := hnone c hc
      omega

/-- Where there is room at all, what is chosen fits the region. -/
theorem Choice.add_le (hchoice : a.Choice n start) (h : a.Orderly) (hroom : a.Room b)
    (hsize : b.size = n) : start + n ≤ a.limit := by
  cases hchoice with
  | exact hg hn => exact IsGap.add_le hg h (Nat.le_of_eq hn.symm)
  | larger hg hlt => exact IsGap.add_le hg h (Nat.le_of_lt hlt)
  | behind hsmaller =>
    obtain ⟨hpos, ⟨horigin, hlimit⟩, hfree⟩ := hroom
    have hdef : b.size = b.stop - b.start := rfl
    by_cases hfront : ∃ c ∈ a.blocks, b.stop ≤ c.start
    · -- then it would lie in a gap that is large enough
      obtain ⟨g, hg, hstart, hstop⟩ := exists_gap_around h.apart
        (fun c hc => (h.inside c hc).1) hpos horigin hfree hfront
      have hsmall := hsmaller g ((mem_gaps h).mp hg)
      have hdef' : g.size = g.stop - g.start := rfl
      omega
    · have hlast : a.lastStop ≤ b.start := by
        unfold lastStop
        cases hc : a.blocks.getLast? with
        | none => exact horigin
        | some c =>
          have hmem := List.mem_of_getLast? hc
          rcases not_overlaps_iff.mp (hfree c hmem) with hbehind | hbefore
          · exact hbehind
          · exact absurd ⟨c, hmem, hbefore⟩ hfront
      omega

/-! ### Rounding -/

theorem exists_rounds (size : Nat) : ∃ n, Rounds size n := by
  refine ⟨(max size 1 + 3) / 4 * 4, ?_⟩
  unfold Rounds
  omega

theorem Rounds.unique {n' : Nat} (h : Rounds size n) (h' : Rounds size n') : n = n' := by
  unfold Rounds at h h'
  omega

/-- A size is rounded up where the result is a 32-bit number. -/
theorem wordAlign_eq (h : Rounds size n) :
    wordAlign size = if n < UInt32.size then some n else none := by
  have hmax : UInt32.size = 4294967296 := rfl
  unfold Rounds at h
  by_cases hfits : max size 1 + 3 < UInt32.size
  · have hn : (max size 1 + 3) / 4 * 4 = n := by omega
    rw [if_pos (by omega), ← hn]
    exact if_pos hfits
  · rw [if_neg (by omega)]
    exact if_neg hfits

/-! ### Requests -/

/-- There is room for a request exactly if it succeeds. -/
theorem fit_ok_iff (h : a.Orderly) (hn : Rounds size n) :
    (∃ start, a.fit size = .ok start) ↔ ∃ b, a.Room b ∧ b.size = n := by
  constructor
  · rintro ⟨start, hfit⟩
    obtain ⟨n', haligned, hroom⟩ := room_of_fit h hfit
    obtain rfl := hn.unique (rounds_wordAlign haligned)
    exact ⟨_, hroom, Nat.add_sub_cancel_left _ _⟩
  · rintro ⟨b, hroom, hsize⟩
    have hlt : n < UInt32.size := by
      have hlimit := h.limit_lt
      have hinside := hroom.inside.2
      have hdef : b.size = b.stop - b.start := rfl
      have hmax : UInt32.size = 4294967296 := rfl
      omega
    obtain ⟨start, hchoice, hfit⟩ :=
      fit_eq h ((wordAlign_eq hn).trans (if_pos hlt))
    rw [if_pos (hchoice.add_le h hroom hsize)] at hfit
    exact ⟨start, hfit⟩

theorem choice_of_fit (h : a.Orderly) (hn : Rounds size n) (hfit : a.fit size = .ok start) :
    a.Choice n start := by
  obtain ⟨n', haligned, -⟩ := room_of_fit h hfit
  obtain rfl := hn.unique (rounds_wordAlign haligned)
  obtain ⟨start', hchoice, heq⟩ := fit_eq h haligned
  rw [hfit] at heq
  split at heq
  · exact Except.ok.inj heq ▸ hchoice
  · cases heq

/-- A request that fails is out of memory, and names what was asked for: the rounded size, or the
size itself if that cannot be rounded. -/
theorem fit_error (h : a.Orderly) (hn : Rounds size n) {e : AllocatorError}
    (hfit : a.fit size = .error e) :
    e = .outOfMemory (if n < UInt32.size then n else size) := by
  have haligned := wordAlign_eq hn
  by_cases hlt : n < UInt32.size
  · rw [if_pos hlt] at haligned ⊢
    obtain ⟨start, -, heq⟩ := fit_eq h haligned
    rw [hfit] at heq
    split at heq
    · cases heq
    · exact Except.error.inj heq
  · rw [if_neg hlt] at haligned ⊢
    rw [fit_of_wordAlign_none haligned] at hfit
    exact (Except.error.inj hfit).symm

/-- The block of a request begins where it goes and has the rounded size. -/
theorem request_eq (hn : Rounds size n) :
    a.request size = (a.fit size).map fun start => ⟨start, start + n⟩ := by
  have haligned := wordAlign_eq hn
  by_cases hlt : n < UInt32.size
  · rw [if_pos hlt] at haligned
    rw [request, haligned]
  · rw [if_neg hlt] at haligned
    rw [fit_of_wordAlign_none haligned, request, haligned]
    rfl

theorem malloc_eq (hn : Rounds size n) : a.malloc size =
    (a.fit size).map fun start =>
      (pointer ⟨start, start + n⟩, a.register ⟨start, start + n⟩) := by
  rw [malloc, request_eq hn]
  cases a.fit size <;> rfl

/-- **Best fit.** After any calls, a request succeeds exactly if some free stretch of the region is
as long as the size rounded up. It then gets the lowest gap that fits exactly, or else the lowest of
the smallest larger gaps, or else what follows the last block, and `malloc` hands out exactly that.
A request that fails is out of memory; one whose rounded size is no 32-bit number always fails. -/
theorem best_fit (origin limit : UInt32) (calls : List Call) (size : Nat) :
    let a := (fresh origin limit).run calls
    ∃ n, Rounds size n ∧
      ((∃ start, a.fit size = .ok start) ↔
        ∃ b : Block, b.size = n ∧ origin.toNat ≤ b.start ∧ b.stop ≤ limit.toNat ∧
          Free a.blocks b) ∧
      (∀ start, a.fit size = .ok start → a.Choice n start ∧
        ∃ p, a.malloc size = .ok (p, a.register ⟨start, start + n⟩) ∧ p.address.toNat = start) ∧
      (∀ e, a.fit size = .error e →
        e = .outOfMemory (if n < UInt32.size then n else size) ∧ a.malloc size = .error e) ∧
      (UInt32.size ≤ n → ∀ start, a.fit size ≠ .ok start) := by
  intro a
  obtain ⟨h, horigin, hlimit⟩ : a.Orderly ∧ a.origin = origin.toNat ∧ a.limit = limit.toNat :=
    orderly_after_run (orderly_fresh origin limit) calls
  obtain ⟨n, hn⟩ := exists_rounds size
  have hroom : ∀ b : Block, a.Room b ∧ b.size = n ↔
      b.size = n ∧ origin.toNat ≤ b.start ∧ b.stop ≤ limit.toNat ∧ Free a.blocks b := by
    intro b
    rw [← horigin, ← hlimit]
    have hdef : b.size = b.stop - b.start := rfl
    have hpos := hn.2.1
    constructor
    · rintro ⟨hroom, hsize⟩
      exact ⟨hsize, hroom.inside.1, hroom.inside.2, hroom.free⟩
    · rintro ⟨hsize, hstart, hstop, hfree⟩
      exact ⟨⟨by omega, ⟨hstart, hstop⟩, hfree⟩, hsize⟩
  refine ⟨n, hn, ?_, ?_, ?_, ?_⟩
  · rw [fit_ok_iff h hn]
    exact exists_congr hroom
  · intro start hfit
    obtain ⟨n', haligned, hroom⟩ := room_of_fit h hfit
    obtain rfl := hn.unique (rounds_wordAlign haligned)
    refine ⟨choice_of_fit h hn hfit, _, ?_, address_pointer h hroom⟩
    rw [malloc_eq hn, hfit]
    rfl
  · intro e hfit
    refine ⟨fit_error h hn hfit, ?_⟩
    rw [malloc_eq hn, hfit]
    rfl
  · intro hlarge start hfit
    obtain ⟨b, hroom, hsize⟩ := (fit_ok_iff h hn).mp ⟨start, hfit⟩
    have hinside := hroom.inside.2
    have htop := h.limit_lt
    have hdef : b.size = b.stop - b.start := rfl
    have hmax : UInt32.size = 4294967296 := rfl
    omega

/-- Between two gaps of eight bytes, a request for five gets the lower one; the smaller gap in front
of them is too small. -/
example : (Allocator.mk 96 512 [⟨100, 140⟩, ⟨148, 200⟩, ⟨208, 300⟩]).fit 5 = .ok 140 := by decide

end RegisterMachine.Allocator
