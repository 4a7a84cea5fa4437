import Mathlib

/-! Letters in lower case.

Only the letters of ASCII have a case here. To put a text in lower case moves no mark and makes
none: a character becomes one that is no letter only if it is that already
(`toLower_eq_iff`). -/
namespace RegisterMachine

variable {c : Char}

theorem toLower_of_not_isAlpha (h : c.isAlpha = false) : c.toLower = c := by
  refine Char.toLower_eq_of_not_isUpper fun hupper => ?_
  rw [Char.isAlpha, hupper, Bool.true_or] at h
  cases h

theorem toLower_eq_iff (mark : Char) (hmark : mark.isAlpha = false) : c.toLower = mark ↔ c = mark := by
  constructor
  · intro h
    have hc : c.isAlpha = false := by rw [← Char.isAlpha_toLower_eq_isAlpha, h, hmark]
    exact (toLower_of_not_isAlpha hc).symm.trans h
  · rintro rfl
    exact toLower_of_not_isAlpha hmark

/-- A text without letters is in lower case. -/
theorem map_toLower_eq_iff {cs text : List Char} (h : ∀ c ∈ text, c.isAlpha = false) :
    cs.map Char.toLower = text ↔ cs = text := by
  constructor
  · rintro rfl
    refine ((List.map_congr_left fun c hc => ?_).trans (List.map_id cs)).symm
    have hc := h c.toLower (List.mem_map_of_mem hc)
    exact toLower_of_not_isAlpha ((Char.isAlpha_toLower_eq_isAlpha c).symm.trans hc)
  · rintro rfl
    exact (List.map_congr_left fun c hc => toLower_of_not_isAlpha (h c hc)).trans (List.map_id cs)

theorem mem_map_toLower_iff {cs : List Char} {mark : Char} (hmark : mark.isAlpha = false) :
    mark ∈ cs.map Char.toLower ↔ mark ∈ cs := by
  rw [List.mem_map]
  constructor
  · rintro ⟨c, hc, hlower⟩
    exact (toLower_eq_iff mark hmark).mp hlower ▸ hc
  · exact fun h => ⟨mark, h, toLower_of_not_isAlpha hmark⟩

theorem map_ofList_toLower (text : List Char) :
    (String.ofList text).map Char.toLower = String.ofList (text.map Char.toLower) := by
  rw [← String.toList_inj, String.toList_map, String.toList_ofList, String.toList_ofList]

theorem map_toLower_map_toLower (text : String) :
    (text.map Char.toLower).map Char.toLower = text.map Char.toLower := by
  rw [String.map_map]
  exact congrArg (fun f => text.map f) (funext Char.toLower_toLower_eq_toLower)

theorem map_toUpper_map_toLower (text : String) :
    (text.map Char.toLower).map Char.toUpper = text.map Char.toUpper := by
  rw [String.map_map]
  exact congrArg (fun f => text.map f) (funext Char.toUpper_toLower_eq_toUpper)

/-- Only `r` in either case becomes `r`. -/
theorem eq_of_toLower_eq_r (h : c.toLower = 'r') : c = 'r' ∨ c = 'R' := by
  cases hupper : c.isUpper with
  | false => exact .inl ((Char.toLower_eq_of_not_isUpper (by simp [hupper])).symm.trans h)
  | true =>
    have hlower := Char.not_isLower_of_isUpper hupper
    have hup := Char.toUpper_toLower_eq_toUpper c
    rw [h, Char.toUpper_eq_of_not_isLower hlower] at hup
    exact .inr hup.symm

theorem map_toLower_eq_zero_iff {text : String} : text.map Char.toLower = "0" ↔ text = "0" := by
  have hzero : "0".toList = ['0'] := rfl
  rw [← String.toList_inj, ← String.toList_inj, String.toList_map, hzero]
  refine map_toLower_eq_iff fun c hc => ?_
  rw [List.mem_singleton.mp hc]
  rfl

end RegisterMachine
