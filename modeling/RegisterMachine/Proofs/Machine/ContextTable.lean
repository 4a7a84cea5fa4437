import Mathlib
import RegisterMachine.Machine.ContextTable
import RegisterMachine.Proofs.Except

/-! Looking contexts up by their numbers.

What an operation does to a context table is said by what `get?` finds afterwards
and by the numbers that there are. A table is `Numbered` if no number is given
twice, all are below the limit, and the context in which a machine starts is
there. Then the active context is the one that its number stands for, and to
change it is to set that number (`modify_eq_set`). -/
namespace RegisterMachine.ContextTable

variable {t t' : ContextTable} {id other : Nat} {c : Context} {created : Bool}

/-- The numbers of the contexts are distinct, below the limit, and include the one in which a
machine starts. -/
structure Numbered (t : ContextTable) : Prop where
  distinct : t.ids.Nodup
  below : ∀ id ∈ t.ids, id < limit
  main : mainId ∈ t.ids

/-! ### Numbers -/

theorem get?_eq (t : ContextTable) (id : Nat) :
    t.get? id = (t.slots.toList.find? fun slot => slot.1 == id).map Prod.snd := by
  rw [get?, Array.find?_toList]

theorem activeId_mem (t : ContextTable) : t.activeId ∈ t.ids :=
  List.mem_map_of_mem (Array.getElem_mem_toList t.active_lt)

theorem isSome_get?_iff : (t.get? id).isSome ↔ id ∈ t.ids := by
  rw [get?_eq, Option.isSome_map, List.find?_isSome, ids, List.mem_map]
  simp only [beq_iff_eq]

theorem get?_eq_none_iff : t.get? id = none ↔ id ∉ t.ids := by
  rw [← isSome_get?_iff, Option.not_isSome_iff_eq_none]

@[simp] theorem ids_set (t : ContextTable) (id : Nat) (c : Context) : (t.set id c).ids = t.ids := by
  unfold ids set
  rw [Array.toList_map, List.map_map]
  apply List.map_congr_left
  intro slot _
  by_cases h : slot.1 = id <;> simp [h]

@[simp] theorem ids_add (t : ContextTable) (id : Nat) : (t.add id).ids = t.ids ++ [id] := by
  simp [ids, add]

@[simp] theorem ids_modify (t : ContextTable) (f : Context → Context) :
    (t.modify f).ids = t.ids := by
  apply List.ext_getElem
  · simp [ids, modify]
  · intro i _ _
    simp only [ids, modify, List.getElem_map, Array.getElem_toList, Array.getElem_modify]
    split <;> rfl

@[simp] theorem ids_activate (t : ContextTable) (id : Nat) : (t.activate id).ids = t.ids := by
  unfold activate
  split <;> rfl

/-! ### The active context -/

@[simp] theorem activeId_modify (t : ContextTable) (f : Context → Context) :
    (t.modify f).activeId = t.activeId := by
  simp [activeId, activeSlot, modify, Array.getElem_modify]

theorem activeId_activate (h : id ∈ t.ids) : (t.activate id).activeId = id := by
  unfold activate
  split
  · rename_i i hi
    have hfound := (Array.findFinIdx?_eq_some_iff.mp hi).1
    simpa [activeId, activeSlot] using hfound
  · rename_i hnone
    obtain ⟨slot, hslot, hid⟩ := List.mem_map.mp h
    have hnot := Array.findFinIdx?_eq_none_iff.mp hnone slot (Array.mem_toList_iff.mp hslot)
    simp [hid] at hnot

/-- Among distinct numbers, the active one stands for the active slot alone. -/
theorem eq_active_of_id (h : t.ids.Nodup) {i : Nat} (hi : i < t.slots.size)
    (hid : t.slots[i].1 = t.activeId) : i = t.active := by
  have hlength : t.ids.length = t.slots.size := by simp [ids]
  have hactive : t.active < t.ids.length := hlength ▸ t.active_lt
  have hsame : t.ids.get ⟨i, hlength ▸ hi⟩ = t.ids.get ⟨t.active, hactive⟩ := by
    simpa [ids, activeId, activeSlot] using hid
  exact congrArg Fin.val (List.nodup_iff_injective_get.mp h hsame)

/-- To change the active context is to set the context of its number. -/
theorem modify_eq_set (h : t.ids.Nodup) (f : Context → Context) :
    t.modify f = t.set t.activeId (f t.current) := by
  simp only [modify, set, ContextTable.mk.injEq, and_true]
  apply Array.ext
  · simp
  · intro i hi _
    rw [Array.size_modify] at hi
    simp only [Array.getElem_modify, Array.getElem_map]
    by_cases hactive : t.active = i
    · subst hactive
      have hid : t.slots[t.active].1 = t.activeId := rfl
      rw [if_pos rfl, if_pos hid]
      rfl
    · rw [if_neg hactive, if_neg fun hid => hactive (eq_active_of_id h hi hid).symm]

/-! ### Looking up -/

theorem get?_set (h : other ∈ t.ids) :
    (t.set other c).get? id = if id = other then some c else t.get? id := by
  have hpredicate : (fun slot : Nat × Context => slot.1 == id) ∘
      (fun slot => if slot.1 = other then (other, c) else slot) = fun slot => slot.1 == id := by
    funext slot
    by_cases hslot : slot.1 = other <;> simp [hslot]
  rw [get?_eq, set, Array.toList_map, List.find?_map, hpredicate, Option.map_map]
  cases hfind : t.slots.toList.find? fun slot => slot.1 == id with
  | none =>
    have hid : id ∉ t.ids := get?_eq_none_iff.mp (by rw [get?_eq, hfind]; rfl)
    have hne : id ≠ other := by
      rintro rfl
      exact hid h
    rw [if_neg hne, get?_eq, hfind]
    rfl
  | some slot =>
    have hslot : slot.1 = id := by simpa using List.find?_some hfind
    subst hslot
    rw [get?_eq, hfind]
    by_cases hsame : slot.1 = other <;> simp [hsame]

theorem get?_add (h : other ∉ t.ids) :
    (t.add other).get? id = if id = other then some (.fresh t.stackCapacity) else t.get? id := by
  rw [get?_eq, add, Array.toList_push, List.find?_append, Option.map_or, ← get?_eq]
  by_cases hsame : id = other
  · subst hsame
    rw [get?_eq_none_iff.mpr h, if_pos rfl]
    simp
  · rw [if_neg hsame]
    simp [Ne.symm hsame]

@[simp] theorem get?_activate (t : ContextTable) (id other : Nat) :
    (t.activate other).get? id = t.get? id := by
  unfold activate
  split <;> rfl

theorem get?_activeId (h : t.ids.Nodup) : t.get? t.activeId = some t.current := by
  have hsame : t.set t.activeId t.current = t :=
    (t.modify_eq_set h fun c => c).symm.trans t.modify_id
  have hget : (t.set t.activeId t.current).get? t.activeId = some t.current := by
    rw [get?_set t.activeId_mem, if_pos rfl]
  rwa [hsame] at hget

theorem get?_modify (h : t.ids.Nodup) (f : Context → Context) :
    (t.modify f).get? id = if id = t.activeId then some (f t.current) else t.get? id := by
  rw [modify_eq_set h, get?_set t.activeId_mem]

/-! ### Numbered tables -/

theorem numbered_create (stackCapacity : Nat) : (create stackCapacity).Numbered where
  distinct := List.nodup_singleton mainId
  below id hid := by
    obtain rfl : id = mainId := List.mem_singleton.mp hid
    decide
  main := List.mem_singleton_self mainId

theorem Numbered.congr (h : t.Numbered) (hids : t'.ids = t.ids) : t'.Numbered :=
  ⟨hids ▸ h.distinct, hids ▸ h.below, hids ▸ h.main⟩

theorem Numbered.add (h : t.Numbered) (hlt : id < limit) (hnew : id ∉ t.ids) :
    (t.add id).Numbered := by
  refine ⟨?_, ?_, ?_⟩
  · rw [ids_add]
    exact List.nodup_append.mpr ⟨h.distinct, List.nodup_singleton id, fun a ha b hb heq =>
      hnew (List.mem_singleton.mp hb ▸ heq ▸ ha)⟩
  · intro a ha
    rw [ids_add] at ha
    rcases List.mem_append.mp ha with ha | ha
    · exact h.below a ha
    · exact List.mem_singleton.mp ha ▸ hlt
  · rw [ids_add]
    exact List.mem_append_left _ h.main

/-- Ensuring that a context exists leaves the table as it is or adds a context with a new number
below the limit. -/
theorem ensure_ok (h : t.ensure id = .ok t') :
    id < limit ∧ (id ∈ t.ids ∧ t' = t ∨ id ∉ t.ids ∧ t' = t.add id) := by
  unfold ensure at h
  split at h
  · exact absurd h (by simp)
  · rename_i hlt
    refine ⟨Nat.not_le.mp hlt, ?_⟩
    split at h
    · rename_i hsome
      exact .inl ⟨isSome_get?_iff.mp hsome, (Except.ok.inj h).symm⟩
    · rename_i hnone
      exact .inr ⟨fun hid => hnone (isSome_get?_iff.mpr hid), (Except.ok.inj h).symm⟩

theorem ensure_of_mem (h : t.Numbered) (hid : id ∈ t.ids) : t.ensure id = .ok t := by
  rw [ensure, if_neg (Nat.not_le.mpr (h.below id hid)), if_pos (isSome_get?_iff.mpr hid)]

theorem mem_of_ensure (h : t.ensure id = .ok t') : id ∈ t'.ids := by
  rcases ensure_ok h with ⟨-, ⟨hid, rfl⟩ | ⟨-, rfl⟩⟩
  · exact hid
  · simp

theorem Numbered.ensure (h : t.Numbered) (hensure : t.ensure id = .ok t') : t'.Numbered := by
  rcases ensure_ok hensure with ⟨hlt, ⟨-, rfl⟩ | ⟨hnew, rfl⟩⟩
  · exact h
  · exact h.add hlt hnew

/-- Every context of the new table is one of the old table or fresh. -/
theorem get?_of_ensure (hensure : t.ensure id = .ok t') (hget : t'.get? other = some c) :
    t.get? other = some c ∨ c = .fresh t.stackCapacity := by
  rcases ensure_ok hensure with ⟨-, ⟨-, rfl⟩ | ⟨hnew, rfl⟩⟩
  · exact .inl hget
  · rw [get?_add hnew] at hget
    split at hget
    · exact .inr (Option.some.inj hget).symm
    · exact .inl hget

/-- Ensuring that a context exists leaves the others as they are. -/
theorem get?_ensure (hensure : t.ensure id = .ok t') (hget : t.get? other = some c) :
    t'.get? other = some c := by
  rcases ensure_ok hensure with ⟨-, ⟨-, rfl⟩ | ⟨hnew, rfl⟩⟩
  · exact hget
  · have hold : other ∈ t.ids := isSome_get?_iff.mp (by rw [hget]; rfl)
    have hne : other ≠ id := by
      rintro rfl
      exact hnew hold
    rw [get?_add hnew, if_neg hne, hget]

/-- Every context below the limit can be switched to. -/
theorem exists_switch (t : ContextTable) (hlt : id < limit) :
    ∃ created t', t.switch id = .ok (created, t') := by
  unfold switch ensure
  rw [if_neg (Nat.not_le.mpr hlt)]
  split <;> exact ⟨_, _, rfl⟩

/-- Switching is ensuring and then activating. -/
theorem switch_ok (h : t.switch id = .ok (created, t')) :
    ∃ ensured, t.ensure id = .ok ensured ∧ t' = ensured.activate id := by
  obtain ⟨ensured, hensured, heq⟩ := map_ok_iff.mp h
  exact ⟨ensured, hensured, (Prod.mk.inj heq).2.symm⟩

end RegisterMachine.ContextTable
