import RegisterMachine.Proofs.Except
import RegisterMachine.Proofs.Memory.Blocks

/-! What any history of calls leaves of an allocator.

A call either succeeds, and then it changes one block that it names or hands out,
or it fails. Whatever the calls and their answers, the blocks stay inside the
region and apart from each other (`Orderly`); `orderly_run` says so together with
what each call does to them. -/
namespace RegisterMachine.Allocator

/-- The blocks lie inside a region whose end is a 32-bit address, and apart. -/
structure Orderly (a : Allocator) : Prop where
  limit_lt : a.limit < 2 ^ 32
  apart : Apart a.blocks
  inside : ∀ b ∈ a.blocks, a.origin ≤ b.start ∧ b.stop ≤ a.limit

/-- An allocator for the region from `origin` up to `limit` that has handed out nothing. -/
def fresh (origin limit : UInt32) : Allocator := ⟨origin.toNat, limit.toNat, []⟩

/-- Calls with any sizes and blocks, those that no 32-bit numbers stand for included. -/
inductive Call where
  | malloc (size : Nat)
  /-- The memory that is cleared may have any size. -/
  | calloc (memory : Memory) (size : Nat)
  | claim (b : Block)
  | free (b : Block)
  | reduce (b : Block) (bytes : Nat)
  | fit (size : Nat)

/-- The allocator after a call, which may have failed. -/
def after (a : Allocator) : Call → Allocator
  | .malloc size =>
    match a.malloc size with
    | .ok (_, a') => a'
    | .error _ => a
  | .calloc memory size => (a.calloc memory size).2.1
  | .claim b =>
    match a.claim b with
    | .ok a' => a'
    | .error _ => a
  | .free b =>
    match a.free b with
    | .ok a' => a'
    | .error _ => a
  | .reduce b bytes =>
    match a.reduce b bytes with
    | .ok (a', _) => a'
    | .error _ => a
  | .fit _ => a

/-- The allocator after calls in this order. -/
def run (a : Allocator) (calls : List Call) : Allocator := calls.foldl after a

theorem run_append (a : Allocator) (front back : List Call) :
    a.run (front ++ back) = (a.run front).run back :=
  List.foldl_append

/-- The call frees or cuts exactly this block. -/
def Call.Retires (b : Block) : Call → Prop
  | .free c | .reduce c _ => c = b
  | _ => False

/-- The size is `size` rounded up to a whole number of words, at least one. -/
def Rounds (size n : Nat) : Prop := n % 4 = 0 ∧ max size 1 ≤ n ∧ n < max size 1 + 4

/-- The blocks of `a'` are those of `a` and one more, which was free. -/
def Adds (a : Allocator) (b : Block) (a' : Allocator) : Prop :=
  Free a.blocks b ∧ b ∉ a.blocks ∧ ∀ c, c ∈ a'.blocks ↔ c = b ∨ c ∈ a.blocks

/-- The blocks of `a'` are those of `a` but one. -/
def Removes (a : Allocator) (b : Block) (a' : Allocator) : Prop :=
  b ∈ a.blocks ∧ ∀ c, c ∈ a'.blocks ↔ c ≠ b ∧ c ∈ a.blocks

/-- The blocks of `a'` are those of `a` with another one in the place of one. -/
def Replaces (a : Allocator) (b d : Block) (a' : Allocator) : Prop :=
  b ∈ a.blocks ∧ ∀ c, c ∈ a'.blocks ↔ c = d ∨ c ≠ b ∧ c ∈ a.blocks

/-- What a successful call does to the blocks. -/
def ChangesOnly (a : Allocator) : Call → Prop
  | .malloc size => ∀ p a', a.malloc size = .ok (p, a') →
    ∃ b, p.address.toNat = b.start ∧ Rounds size b.size ∧ a.Adds b a'
  | .calloc memory size => ∀ p a' memory', a.calloc memory size = (.ok p, a', memory') →
    ∃ b, p.address.toNat = b.start ∧ Rounds size b.size ∧ a.Adds b a'
  | .claim b => ∀ a', a.claim b = .ok a' → a.Adds b a'
  | .free b => ∀ a', a.free b = .ok a' → a.Removes b a'
  | .reduce b bytes => ∀ a' rest,
    a.reduce b bytes = .ok (a', rest) →
      if bytes < b.size then
        rest = ⟨b.start, b.stop - bytes⟩ ∧ a.Replaces b rest a'
      else rest.size = 0 ∧ a.Removes b a'
  | .fit size => ∀ start, a.fit size = .ok start →
    ∃ b : Block, b.start = start ∧ Rounds size b.size ∧ Free a.blocks b ∧
      a.origin ≤ b.start ∧ b.stop ≤ a.limit

variable {a a' : Allocator} {b : Block} {n start : Nat}

theorem orderly_fresh (origin limit : UInt32) : (fresh origin limit).Orderly :=
  ⟨limit.toNat_lt, apart_nil, fun _ h => absurd h List.not_mem_nil⟩

/-! ### Where a request goes -/

theorem rounds_wordAlign {size aligned : Nat} (h : wordAlign size = some aligned) :
    Rounds size aligned := by
  by_cases hfits : max size 1 + 3 < UInt32.size
  · have haligned := Option.some.inj ((if_pos hfits).symm.trans h)
    unfold Rounds
    omega
  · exact absurd ((if_neg hfits).symm.trans h) (by simp)

theorem le_stopOf (low : Nat) (blocks : List Block) : low ≤ stopOf low blocks := by
  induction blocks generalizing low with
  | nil => exact Nat.le_refl _
  | cons b rest ih => exact Nat.le_trans (Nat.le_max_left _ _) (ih _)

theorem stop_le_stopOf (low : Nat) {blocks : List Block} (hb : b ∈ blocks) :
    b.stop ≤ stopOf low blocks := by
  induction blocks generalizing low with
  | nil => exact absurd hb List.not_mem_nil
  | cons c rest ih =>
    rcases List.mem_cons.mp hb with rfl | hb
    · exact Nat.le_trans (Nat.le_max_right _ _) (le_stopOf _ rest)
    · exact ih _ hb

/-- The room that a request gets. -/
structure Room (a : Allocator) (b : Block) : Prop where
  nonempty : b.start < b.stop
  inside : a.origin ≤ b.start ∧ b.stop ≤ a.limit
  free : Free a.blocks b

/-- The front of a gap is room for as many bytes as the gap has. -/
theorem room_of_gap (h : a.Orderly) {g : Block} (hg : Gap a.origin a.blocks g) (hn : 0 < n)
    (hfits : n ≤ g.size) : a.Room ⟨g.start, g.start + n⟩ := by
  obtain ⟨hpos, habove, ⟨c, hc, hends⟩, hfree⟩ := hg
  have hsize : g.size = g.stop - g.start := rfl
  have hc' := h.apart.start_lt_stop hc
  have hlimit := (h.inside c hc).2
  refine ⟨?_, ⟨habove, ?_⟩, ?_⟩
  · show g.start < g.start + n
    omega
  · show g.start + n ≤ a.limit
    omega
  · intro d hd
    have := not_overlaps_iff.mp (hfree d hd)
    apply not_overlaps_iff.mpr
    show d.stop ≤ g.start ∨ g.start + n ≤ d.start
    omega

/-- Behind all blocks there is room up to the end of the region. -/
theorem room_at_top (hn : 0 < n) (hlimit : a.top + n ≤ a.limit) : a.Room ⟨a.top, a.top + n⟩ :=
  ⟨Nat.lt_add_of_pos_right hn, ⟨le_stopOf _ _, hlimit⟩,
    fun _ hd => not_overlaps_iff.mpr (.inl (stop_le_stopOf _ hd))⟩

/-- A request that succeeds goes to the front of a gap that is large enough or behind all blocks. -/
theorem fit_ok {size : Nat} (hfit : a.fit size = .ok start) :
    ∃ aligned, wordAlign size = some aligned ∧
      ((∃ g ∈ gaps a.origin a.blocks, aligned ≤ g.size ∧ g.start = start) ∨
        a.top = start ∧ start + aligned ≤ a.limit) := by
  cases haligned : wordAlign size with
  | none =>
    rw [fit_of_wordAlign_none haligned] at hfit
    exact absurd hfit (by simp)
  | some aligned =>
    refine ⟨aligned, rfl, ?_⟩
    rw [fit_eq_choice haligned] at hfit
    cases hexact : (gaps a.origin a.blocks).find? (·.size = aligned) with
    | some g =>
      simp only [hexact, Except.ok.injEq] at hfit
      have hsize : g.size = aligned := by simpa using List.find?_some hexact
      exact .inl ⟨g, List.mem_of_find?_eq_some hexact, Nat.le_of_eq hsize.symm, hfit⟩
    | none =>
      simp only [hexact] at hfit
      cases hlarger : smallest? ((gaps a.origin a.blocks).filter (aligned < ·.size)) with
      | some g =>
        simp only [hlarger] at hfit
        split at hfit
        · obtain ⟨hmem, hlt⟩ := List.mem_filter.mp (mem_of_smallest? hlarger)
          have hlt : aligned < g.size := by simpa using hlt
          exact .inl ⟨g, hmem, Nat.le_of_lt hlt, Except.ok.inj hfit⟩
        · exact absurd hfit (by simp)
      | none =>
        simp only [hlarger] at hfit
        split at hfit
        · rename_i hlimit
          obtain rfl := Except.ok.inj hfit
          exact .inr ⟨rfl, hlimit⟩
        · exact absurd hfit (by simp)

/-- Every answer of `fit` is the start of enough room. -/
theorem room_of_fit (h : a.Orderly) {size : Nat} (hfit : a.fit size = .ok start) :
    ∃ aligned, wordAlign size = some aligned ∧ a.Room ⟨start, start + aligned⟩ := by
  obtain ⟨aligned, haligned, hchosen⟩ := fit_ok hfit
  refine ⟨aligned, haligned, ?_⟩
  have hpos : 0 < aligned := by
    have := (rounds_wordAlign haligned).2.1
    omega
  rcases hchosen with ⟨g, hg, hfits, rfl⟩ | ⟨rfl, hlimit⟩
  · have hgap := gap_of_mem_gaps h.apart (fun b hb => (h.inside b hb).1) hg
    exact room_of_gap h hgap hpos hfits
  · exact room_at_top hpos hlimit

/-- A whole number of words is not rounded up. -/
theorem room_of_fit_words (h : a.Orderly) {size : Nat} (hwords : size % 4 = 0) (hpos : 0 < size)
    (hfit : a.fit size = .ok start) : a.Room ⟨start, start + size⟩ := by
  obtain ⟨aligned, haligned, hroom⟩ := room_of_fit h hfit
  obtain ⟨hmod, hge, hlt⟩ := rounds_wordAlign haligned
  obtain rfl : aligned = size := by omega
  exact hroom

theorem room_of_request (h : a.Orderly) {size : Nat} (hrequest : a.request size = .ok b) :
    a.Room b ∧ Rounds size b.size := by
  cases haligned : wordAlign size with
  | none =>
    rw [request, haligned] at hrequest
    exact absurd hrequest (by simp)
  | some aligned =>
    rw [request, haligned] at hrequest
    obtain ⟨start, hfit, rfl⟩ := map_ok_iff.mp hrequest
    obtain ⟨aligned', haligned', hroom⟩ := room_of_fit h hfit
    obtain rfl := Option.some.inj (haligned.symm.trans haligned')
    refine ⟨hroom, ?_⟩
    have hsize : Block.size ⟨start, start + aligned⟩ = aligned := Nat.add_sub_cancel_left _ _
    rw [hsize]
    exact rounds_wordAlign haligned

/-! ### What a call does -/

theorem orderly_register (h : a.Orderly) (hroom : a.Room b) : (a.register b).Orderly := by
  refine ⟨h.limit_lt, apart_insertBlock h.apart hroom.nonempty hroom.free, ?_⟩
  intro c hc
  rcases mem_insertBlock.mp hc with rfl | hc
  · exact hroom.inside
  · exact h.inside c hc

theorem adds_register (hroom : a.Room b) : a.Adds b (a.register b) :=
  ⟨hroom.free, hroom.free.not_mem hroom.nonempty, fun _ => mem_insertBlock⟩

theorem address_pointer (h : a.Orderly) (hroom : a.Room b) :
    (pointer b).address.toNat = b.start := by
  have hpos := hroom.nonempty
  have hinside := hroom.inside.2
  have hlimit := h.limit_lt
  show (UInt32.ofNat b.start).toNat = b.start
  rw [UInt32.toNat_ofNat']
  omega

/-- A success of `malloc` registers the block it was asked for. -/
theorem malloc_ok {size : Nat} {p : Pointer} (hok : a.malloc size = .ok (p, a')) :
    ∃ b, a.request size = .ok b ∧ p = pointer b ∧ a' = a.register b := by
  obtain ⟨b, hb, heq⟩ := map_ok_iff.mp hok
  obtain ⟨rfl, rfl⟩ := Prod.mk.inj heq
  exact ⟨b, hb, rfl, rfl⟩

/-- `calloc` registers the block it was asked for, whether or not the block can be cleared. -/
theorem calloc_allocator (a : Allocator) (memory : Memory) (size : Nat) :
    (∃ e, a.request size = .error e ∧ a.calloc memory size = (.error e, a, memory)) ∨
      ∃ b, a.request size = .ok b ∧ (a.calloc memory size).2.1 = a.register b ∧
        ∀ p, (a.calloc memory size).1 = .ok p → p = pointer b := by
  unfold calloc
  cases hrequest : a.request size with
  | error e => exact .inl ⟨e, rfl, rfl⟩
  | ok b =>
    refine .inr ⟨b, rfl, ?_⟩
    dsimp only
    cases memory.fill (UInt32.ofNat b.start) b.size 0 with
    | error i => exact ⟨rfl, fun p hp => absurd hp (by simp)⟩
    | ok memory => exact ⟨rfl, fun p hp => (Except.ok.inj hp).symm⟩

theorem claim_ok (hok : a.claim b = .ok a') : a.Room b ∧ a' = a.register b := by
  by_cases houtside : b.start < a.origin ∨ a.limit < b.stop ∨ b.stop ≤ b.start
  · rw [claim, if_pos houtside] at hok
    exact absurd hok (by simp)
  · rw [claim, if_neg houtside] at hok
    by_cases htaken : (a.blocks.any fun c => c.Overlaps b) = true
    · rw [if_pos htaken] at hok
      exact absurd hok (by simp)
    · rw [if_neg htaken] at hok
      obtain rfl := Except.ok.inj hok
      refine ⟨⟨by omega, by omega, ?_⟩, rfl⟩
      intro c hc hover
      exact htaken (List.any_eq_true.mpr ⟨c, hc, by simpa using hover⟩)

/-- A block that there is room for can be claimed. -/
theorem claim_of_room (hroom : a.Room b) : a.claim b = .ok (a.register b) := by
  have hpos := hroom.nonempty
  have hinside := hroom.inside
  have hfree : ¬(a.blocks.any fun c => c.Overlaps b) = true := by
    intro htaken
    obtain ⟨c, hc, hover⟩ := List.any_eq_true.mp htaken
    exact hroom.free c hc (by simpa using hover)
  rw [claim, if_neg (by omega), if_neg hfree]

theorem free_ok (hok : a.free b = .ok a') :
    b ∈ a.blocks ∧ a' = { a with blocks := a.blocks.erase b } := by
  by_cases hb : b ∈ a.blocks
  · rw [free, if_pos hb] at hok
    exact ⟨hb, (Except.ok.inj hok).symm⟩
  · rw [free, if_neg hb] at hok
    exact absurd hok (by simp)

theorem reduce_ok {bytes : Nat} {rest : Block} (hok : a.reduce b bytes = .ok (a', rest)) :
    b ∈ a.blocks ∧
      if bytes < b.size then
        rest = ⟨b.start, b.stop - bytes⟩ ∧ a' = { a with blocks := a.blocks.replace b rest }
      else rest = ⟨b.start, b.start⟩ ∧ a' = { a with blocks := a.blocks.erase b } := by
  by_cases hb : b ∈ a.blocks
  · rw [reduce, if_pos hb] at hok
    refine ⟨hb, ?_⟩
    by_cases hall : b.size ≤ bytes
    · rw [if_pos hall] at hok
      obtain ⟨rfl, rfl⟩ := Prod.mk.inj (Except.ok.inj hok)
      rw [if_neg (Nat.not_lt.mpr hall)]
      exact ⟨rfl, rfl⟩
    · rw [if_neg hall] at hok
      obtain ⟨rfl, rfl⟩ := Prod.mk.inj (Except.ok.inj hok)
      rw [if_pos (Nat.not_le.mp hall)]
      exact ⟨rfl, rfl⟩
  · rw [reduce, if_neg hb] at hok
    exact absurd hok (by simp)

theorem orderly_erase (h : a.Orderly) : Orderly { a with blocks := a.blocks.erase b } :=
  ⟨h.limit_lt, apart_erase h.apart, fun c hc => h.inside c (List.mem_of_mem_erase hc)⟩

theorem removes_erase (h : a.Orderly) (hb : b ∈ a.blocks) :
    a.Removes b { a with blocks := a.blocks.erase b } :=
  ⟨hb, fun _ => mem_erase_iff h.apart⟩

theorem orderly_replace (h : a.Orderly) (hb : b ∈ a.blocks) {bytes : Nat} (hpart : bytes < b.size) :
    Orderly { a with blocks := a.blocks.replace b ⟨b.start, b.stop - bytes⟩ } := by
  have hsize : b.size = b.stop - b.start := rfl
  refine ⟨h.limit_lt, apart_replace h.apart hb rfl ?_ (Nat.sub_le _ _), ?_⟩
  · show b.start < b.stop - bytes
    omega
  · intro c hc
    rcases (mem_replace_iff h.apart hb _).mp hc with rfl | ⟨-, hc⟩
    · have := h.inside b hb
      exact ⟨this.1, Nat.le_trans (Nat.sub_le _ _) this.2⟩
    · exact h.inside c hc

/-- All that a call can make of an allocator. -/
inductive Change (a : Allocator) (call : Call) : Allocator → Prop
  | nothing : Change a call a
  | register (b : Block) (hroom : a.Room b) : Change a call (a.register b)
  | erase (b : Block) (hb : b ∈ a.blocks) (hretires : call.Retires b) :
    Change a call { a with blocks := a.blocks.erase b }
  | cut (b : Block) (bytes : Nat) (hb : b ∈ a.blocks) (hpart : bytes < b.size)
    (hretires : call.Retires b) :
    Change a call { a with blocks := a.blocks.replace b ⟨b.start, b.stop - bytes⟩ }

theorem change_after (h : a.Orderly) (call : Call) : a.Change call (a.after call) := by
  cases call with
  | malloc size =>
    simp only [after]
    split
    · rename_i p a' hok
      obtain ⟨b, hrequest, -, rfl⟩ := malloc_ok hok
      exact .register b (room_of_request h hrequest).1
    · exact .nothing
  | calloc memory size =>
    simp only [after]
    rcases a.calloc_allocator memory size with ⟨e, -, heq⟩ | ⟨b, hrequest, heq, -⟩
    · rw [heq]
      exact .nothing
    · rw [heq]
      exact .register b (room_of_request h hrequest).1
  | claim b =>
    simp only [after]
    split
    · rename_i a' hok
      obtain ⟨hroom, rfl⟩ := claim_ok hok
      exact .register _ hroom
    · exact .nothing
  | free b =>
    simp only [after]
    split
    · rename_i a' hok
      obtain ⟨hb, rfl⟩ := free_ok hok
      exact .erase _ hb rfl
    · exact .nothing
  | reduce b bytes =>
    simp only [after]
    split
    · rename_i a' rest hok
      obtain ⟨hb, hcut⟩ := reduce_ok hok
      split at hcut
      · rename_i hpart
        obtain ⟨rfl, rfl⟩ := hcut
        exact .cut _ _ hb hpart rfl
      · obtain ⟨-, rfl⟩ := hcut
        exact .erase _ hb rfl
    · exact .nothing
  | fit size => exact .nothing

/-- One call keeps the blocks orderly. -/
theorem Change.orderly {call : Call} (hchange : a.Change call a') (h : a.Orderly) :
    a'.Orderly := by
  cases hchange with
  | nothing => exact h
  | register b hroom => exact orderly_register h hroom
  | erase b hb => exact orderly_erase h
  | cut b bytes hb hpart => exact orderly_replace h hb hpart

/-- No call moves the region. -/
theorem Change.region {call : Call} (hchange : a.Change call a') :
    a'.origin = a.origin ∧ a'.limit = a.limit := by
  cases hchange <;> exact ⟨rfl, rfl⟩

/-- A call keeps every block but the one it frees or cuts. -/
theorem Change.keeps {call : Call} (hchange : a.Change call a') (h : a.Orderly)
    (hb : b ∈ a.blocks) (hkept : ¬call.Retires b) : b ∈ a'.blocks := by
  cases hchange with
  | nothing => exact hb
  | register c => exact mem_insertBlock.mpr (.inr hb)
  | erase c hc hretires =>
    have hne : b ≠ c := by
      intro heq
      exact hkept (heq ▸ hretires)
    exact (mem_erase_iff h.apart).mpr ⟨hne, hb⟩
  | cut c bytes hc hpart hretires =>
    have hne : b ≠ c := by
      intro heq
      exact hkept (heq ▸ hretires)
    exact (mem_replace_iff h.apart hc _).mpr (.inr ⟨hne, hb⟩)

theorem changesOnly (h : a.Orderly) (call : Call) : a.ChangesOnly call := by
  cases call with
  | malloc size =>
    intro p a' hok
    obtain ⟨b, hrequest, rfl, rfl⟩ := malloc_ok hok
    obtain ⟨hroom, hrounds⟩ := room_of_request h hrequest
    exact ⟨b, address_pointer h hroom, hrounds, adds_register hroom⟩
  | calloc memory size =>
    intro p a' memory' hok
    rcases a.calloc_allocator memory size with ⟨e, -, heq⟩ | ⟨b, hrequest, heq, hpointer⟩
    · rw [hok] at heq
      exact absurd (Prod.mk.inj heq).1 (by simp)
    · rw [hok] at heq hpointer
      obtain rfl := hpointer p rfl
      obtain ⟨hroom, hrounds⟩ := room_of_request h hrequest
      refine ⟨b, address_pointer h hroom, hrounds, ?_⟩
      have heq : a' = a.register b := heq
      rw [heq]
      exact adds_register hroom
  | claim b =>
    intro a' hok
    obtain ⟨hroom, rfl⟩ := claim_ok hok
    exact adds_register hroom
  | free b =>
    intro a' hok
    obtain ⟨hb, rfl⟩ := free_ok hok
    exact removes_erase h hb
  | reduce b bytes =>
    intro a' rest hok
    obtain ⟨hb, hcut⟩ := reduce_ok hok
    split
    · rename_i hpart
      rw [if_pos hpart] at hcut
      obtain ⟨rfl, rfl⟩ := hcut
      exact ⟨rfl, hb, fun _ => mem_replace_iff h.apart hb _⟩
    · rename_i hall
      rw [if_neg hall] at hcut
      obtain ⟨rfl, rfl⟩ := hcut
      exact ⟨Nat.sub_self _, removes_erase h hb⟩
  | fit size =>
    intro start hfit
    obtain ⟨aligned, haligned, hroom⟩ := room_of_fit h hfit
    have hsize : Block.size ⟨start, start + aligned⟩ = aligned := Nat.add_sub_cancel_left _ _
    exact ⟨_, rfl, hsize.symm ▸ rounds_wordAlign haligned, hroom.free, hroom.inside⟩

/-! ### Histories -/

theorem orderly_after_run (h : a.Orderly) (calls : List Call) :
    (a.run calls).Orderly ∧ (a.run calls).origin = a.origin ∧ (a.run calls).limit = a.limit := by
  induction calls generalizing a with
  | nil => exact ⟨h, rfl, rfl⟩
  | cons call rest ih =>
    have hchange := change_after h call
    obtain ⟨horderly, horigin, hlimit⟩ := ih (hchange.orderly h)
    exact ⟨horderly, horigin.trans hchange.region.1, hlimit.trans hchange.region.2⟩

theorem mem_run (h : a.Orderly) (hb : b ∈ a.blocks) {calls : List Call}
    (hkept : ∀ call ∈ calls, ¬call.Retires b) : b ∈ (a.run calls).blocks := by
  induction calls generalizing a with
  | nil => exact hb
  | cons call rest ih =>
    have hchange := change_after h call
    exact ih (hchange.orderly h) (hchange.keeps h hb (hkept call List.mem_cons_self))
      fun c hc => hkept c (List.mem_cons_of_mem _ hc)

/-- The sum of the sizes never wraps around. -/
theorem used_eq (h : a.Orderly) : a.used = (a.blocks.map Block.size).sum := by
  have hsum := sum_size_le h.apart h.inside
  have hlimit := h.limit_lt
  rw [used, toNat_foldl_size]
  show (0 + (a.blocks.map Block.size).sum) % 2 ^ 32 = _
  omega

/-- **What a history of calls leaves.** After any calls, successful or not, the blocks are not
empty, lie inside the region, ascend and are pairwise disjoint; the next successful call changes
only its own block; a block stays registered until a call frees or cuts it; and `used` is the sum
of the sizes, which is at most the size of the region. -/
theorem orderly_run (origin limit : UInt32) (calls : List Call) :
    let a := (fresh origin limit).run calls
    (∀ b ∈ a.blocks, b.start < b.stop ∧ origin.toNat ≤ b.start ∧ b.stop ≤ limit.toNat) ∧
      (a.blocks.Pairwise fun b c => b.start < c.start ∧ ¬b.Overlaps c) ∧
      (∀ call, a.ChangesOnly call) ∧
      (∀ b ∈ a.blocks, ∀ more, (∀ call ∈ more, ¬call.Retires b) → b ∈ (a.run more).blocks) ∧
      a.used = (a.blocks.map Block.size).sum ∧ a.used ≤ limit.toNat - origin.toNat := by
  intro a
  obtain ⟨h, horigin, hlimit⟩ : a.Orderly ∧ a.origin = origin.toNat ∧ a.limit = limit.toNat :=
    orderly_after_run (orderly_fresh origin limit) calls
  have hinside : ∀ b ∈ a.blocks, origin.toNat ≤ b.start ∧ b.stop ≤ limit.toNat := by
    intro b hb
    rw [← horigin, ← hlimit]
    exact h.inside b hb
  refine ⟨fun b hb => ⟨h.apart.start_lt_stop hb, hinside b hb⟩, h.apart.ascending, changesOnly h,
    fun b hb more hkept => mem_run h hb hkept, used_eq h, ?_⟩
  rw [used_eq h]
  exact sum_size_le h.apart hinside

end RegisterMachine.Allocator
