import Mathlib
import RegisterMachine.Text.Lines

/-! Where a character stands in its line.

A text is split line by line from its front, so a character is found in the line whose number
is counted in the line feeds in front of it, behind what follows the last of these
(`splitLines_at`). To drop carriage returns at the end of a line does not move it
(`line?_at`). -/
namespace RegisterMachine.Text

variable {line front back rest : List Char} {c : Char}

/-- A line ends at its line feed. -/
theorem splitLines_append (text : List Char) (h : '\n' ∉ line) (rest : List Char) :
    splitLines text (line ++ '\n' :: rest) = (text.reverse ++ line) :: splitLines [] rest := by
  induction line generalizing text with
  | nil => rw [List.nil_append, splitLines, List.append_nil]
  | cons c line ih =>
    simp only [List.mem_cons, not_or] at h
    rw [List.cons_append, splitLines.eq_3 text c _ (Ne.symm h.1), ih _ h.2, List.reverse_cons,
      List.append_assoc]
    rfl

/-- What stands behind a line feed is split for itself. -/
theorem splitLines_behind (text front rest : List Char) :
    splitLines text (front ++ '\n' :: rest) =
      splitLines text (front ++ ['\n']) ++ splitLines [] rest := by
  induction front generalizing text with
  | nil => rfl
  | cons c front ih =>
    by_cases hc : c = '\n'
    · subst hc
      rw [List.cons_append, List.cons_append, splitLines, splitLines, ih, List.cons_append]
    · rw [List.cons_append, List.cons_append, splitLines.eq_3 text c _ hc,
        splitLines.eq_3 text c _ hc, ih]

theorem not_mem_of_mem_splitLines {text : List Char} (h : '\n' ∉ text)
    (hline : line ∈ splitLines text rest) : '\n' ∉ line := by
  induction rest generalizing text with
  | nil =>
    rw [splitLines] at hline
    split at hline
    · cases hline
    · rw [List.mem_singleton.mp hline, List.mem_reverse]
      exact h
  | cons c rest ih =>
    by_cases hc : c = '\n'
    · subst hc
      rw [splitLines] at hline
      rcases List.mem_cons.mp hline with rfl | hline
      · rwa [List.mem_reverse]
      · exact ih (by simp) hline
    · rw [splitLines.eq_3 text c _ hc] at hline
      exact ih (by simp [Ne.symm hc, h]) hline

/-- The line of the next character begins with what has been read of it. -/
theorem head_splitLines (text back : List Char) (h : text ≠ []) :
    ∃ after, (splitLines text back)[0]? = some (text.reverse ++ after) := by
  induction back generalizing text with
  | nil =>
    rw [splitLines, if_neg (by simpa using h)]
    exact ⟨[], by simp⟩
  | cons c back ih =>
    by_cases hc : c = '\n'
    · subst hc
      exact ⟨[], by simp [splitLines]⟩
    · obtain ⟨after, hafter⟩ := ih (c :: text) (by simp)
      refine ⟨c :: after, ?_⟩
      rw [splitLines.eq_3 text c _ hc, hafter, List.reverse_cons, List.append_assoc]
      rfl

theorem splitLines_at (text : List Char) (h : '\n' ∉ text) (hc : c ≠ '\n')
    (front back : List Char) :
    ∃ before after, (splitLines text (front ++ c :: back))[front.count '\n']? =
        some (before ++ c :: after) ∧
      before.length = ((front.reverse ++ text).takeWhile (· != '\n')).length := by
  induction front generalizing text with
  | nil =>
    obtain ⟨after, hafter⟩ := head_splitLines (c :: text) back (by simp)
    refine ⟨text.reverse, after, ?_, ?_⟩
    · rw [List.nil_append, splitLines.eq_3 text c _ hc]
      simpa using hafter
    · have hall : text.takeWhile (· != '\n') = text := by
        rw [List.takeWhile_eq_self_iff]
        intro d hd
        simpa using ne_of_mem_of_not_mem hd h
      rw [List.reverse_nil, List.nil_append, hall, List.length_reverse]
  | cons d front ih =>
    by_cases hd : d = '\n'
    · subst hd
      obtain ⟨before, after, hline, hlength⟩ := ih [] (by simp)
      refine ⟨before, after, ?_, ?_⟩
      · rw [List.cons_append, splitLines, List.count_cons_self, List.getElem?_cons_succ]
        exact hline
      · rw [hlength, List.reverse_cons, List.append_assoc, List.append_nil, List.takeWhile_append]
        split
        · rename_i hall
          rw [hall]
          simp
        · rfl
    · obtain ⟨before, after, hline, hlength⟩ := ih (d :: text) (by simp [Ne.symm hd, h])
      refine ⟨before, after, ?_, ?_⟩
      · rw [List.cons_append, splitLines.eq_3 text d _ hd, List.count_cons_of_ne hd]
        exact hline
      · rw [hlength, List.reverse_cons, List.append_assoc]
        rfl

theorem dropReturns_append (before after : List Char) (hc : c ≠ '\r') :
    dropReturns (before ++ c :: after) = before ++ c :: dropReturns after := by
  have hstop : (c :: before.reverse).dropWhile (· == '\r') = c :: before.reverse :=
    List.dropWhile_cons_of_neg (by simpa using hc)
  have hsplit : (before ++ c :: after).reverse = after.reverse ++ c :: before.reverse := by simp
  rw [dropReturns, dropReturns, hsplit, List.dropWhile_append, hstop]
  split
  · rename_i hempty
    rw [List.isEmpty_iff.mp hempty]
    simp
  · simp

theorem mem_of_mem_dropReturns {d : Char} (h : d ∈ dropReturns line) : d ∈ line := by
  rw [dropReturns, List.mem_reverse] at h
  exact List.mem_reverse.mp ((List.dropWhile_sublist _).subset h)

/-- A character that ends no line stands in the line of its number, in the column behind those
that precede it there. -/
theorem line?_at {source : String} (hsource : source.toList = front ++ c :: back) (hc : c ≠ '\n')
    (hreturn : c ≠ '\r') :
    ∃ line, line? source (front.count '\n' + 1) = some line ∧ '\n' ∉ line.toList ∧
      line.toList[(front.reverse.takeWhile (· != '\n')).length]? = some c := by
  obtain ⟨before, after, hline, hlength⟩ := splitLines_at [] (by simp) hc front back
  have hwhole : '\n' ∉ before ++ c :: after :=
    not_mem_of_mem_splitLines (by simp) (List.mem_of_getElem? hline)
  refine ⟨String.ofList (dropReturns (before ++ c :: after)), ?_, ?_, ?_⟩
  · rw [line?, hsource, Nat.add_sub_cancel, hline, Option.map_some]
  · rw [String.toList_ofList]
    exact mt mem_of_mem_dropReturns hwhole
  · rw [String.toList_ofList, dropReturns_append before after hreturn,
      ← List.append_nil front.reverse, ← hlength, List.getElem?_append_right (Nat.le_refl _),
      Nat.sub_self]
    rfl

end RegisterMachine.Text
