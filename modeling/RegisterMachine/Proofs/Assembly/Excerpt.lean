import RegisterMachine.Assembly.Diagnostic
import RegisterMachine.Proofs.Text.Lines

/-! The excerpt of a diagnostic.

A message about a place shows the line of the source with a mark under it
(`shows_diagnostic`). The line stands behind its number, and the mark behind a gutter of its
own that is not as wide, so the mark is left of the place. -/
namespace RegisterMachine

namespace Diagnostic

/-- The last lines of the message are a source line behind a gutter, under it a mark, and an empty
line. The mark stands so many columns to the left of this column of the source line. -/
def Shows (message line : String) (column distance : Nat) : Prop :=
  ∃ lines gutter blanks,
    Text.splitLines [] message.toList = lines ++ [gutter ++ line.toList, blanks ++ ['^'], []] ∧
      gutter.length + (column - 1) = blanks.length + distance

theorem toList_lineNumber (line : Nat) : (lineNumber line).toList =
    List.replicate (4 - (Nat.toDigits 10 line).length) ' ' ++ Nat.toDigits 10 line := by
  have hdigits : (toString line).toList = Nat.toDigits 10 line := Nat.toList_repr
  rw [lineNumber, String.toList_append, String.toList_ofList, hdigits, ← String.length_toList,
    hdigits]

theorem length_lineNumber (line : Nat) :
    (lineNumber line).toList.length = max 4 (Nat.toDigits 10 line).length := by
  rw [toList_lineNumber, List.length_append, List.length_replicate]
  omega

theorem not_mem_lineNumber (line : Nat) : '\n' ∉ (lineNumber line).toList := by
  rw [toList_lineNumber, List.mem_append, not_or]
  refine ⟨fun h => absurd (List.eq_of_mem_replicate h) (by decide), fun h => ?_⟩
  exact absurd (Nat.isDigit_of_mem_toDigits (by decide) (by decide) h) (by decide)

end Diagnostic

namespace AssemblyError

variable {e : AssemblyError} {source : String}

/-- The lines of a message: what is wrong, where, and the excerpt. -/
theorem toList_diagnostic {position : Position} {line : String}
    (hplace : e.position? = some position)
    (hline : Text.line? source position.line = some line) (name : String) :
    ∃ header, (e.diagnostic name source).toList = header ++ '\n' :: ("  |".toList ++ '\n' ::
      ((Diagnostic.lineNumber position.line).toList ++ " | ".toList ++ line.toList ++ '\n' ::
        ("  | ".toList ++ List.replicate (position.column - 1) ' ' ++ ['^'] ++
          '\n' :: ['\n']))) := by
  have hplain : ∀ text : String, toString text = text := fun _ => rfl
  have hgutter : "  |\n".toList = "  |".toList ++ ['\n'] := by decide
  have hmarker : "\n  | ".toList = '\n' :: "  | ".toList := by decide
  have hmark : "^\n".toList = ['^', '\n'] := by decide
  have hend : "\n".toList = ['\n'] := by decide
  refine ⟨"error: ".toList ++ e.reason.toList ++ "\n --> ".toList ++ name.toList ++ ":".toList ++
    (toString position.line).toList ++ ":".toList ++ (toString position.column).toList, ?_⟩
  rw [diagnostic, hplace]
  dsimp only
  rw [Diagnostic.excerpt, hline]
  simp only [hplain, String.toList_append, String.toList_ofList, hgutter, hmarker, hmark, hend,
    List.append_assoc, List.cons_append, List.nil_append]

/-- The mark stands to the left of the place, since the number of the line takes more room than
what is in front of the mark. -/
theorem shows_diagnostic {position : Position} {line : String}
    (hplace : e.position? = some position) (hline : Text.line? source position.line = some line)
    (hwhole : '\n' ∉ line.toList) (name : String) :
    Diagnostic.Shows (e.diagnostic name source) line position.column
      (max 4 (Nat.toDigits 10 position.line).length - 1) := by
  obtain ⟨header, hmessage⟩ := toList_diagnostic hplace hline name
  have hempty : '\n' ∉ "  |".toList := by decide
  have hshown : '\n' ∉ (Diagnostic.lineNumber position.line).toList ++ " | ".toList ++
      line.toList := by
    simp only [List.mem_append, not_or]
    exact ⟨⟨Diagnostic.not_mem_lineNumber _, by decide⟩, hwhole⟩
  have hblanks : '\n' ∉ "  | ".toList ++ List.replicate (position.column - 1) ' ' ++ ['^'] := by
    simp only [List.mem_append, not_or]
    exact ⟨⟨by decide, fun h => absurd (List.eq_of_mem_replicate h) (by decide)⟩, by decide⟩
  refine ⟨Text.splitLines [] (header ++ ['\n']) ++ ["  |".toList],
    (Diagnostic.lineNumber position.line).toList ++ " | ".toList,
    "  | ".toList ++ List.replicate (position.column - 1) ' ', ?_, ?_⟩
  · rw [hmessage, Text.splitLines_behind, Text.splitLines_append [] hempty,
      Text.splitLines_append [] hshown, Text.splitLines_append [] hblanks]
    simp [Text.splitLines]
  · have hgutter : " | ".toList.length = 3 := by decide
    have hmarker : "  | ".toList.length = 4 := by decide
    rw [List.length_append, List.length_append, List.length_replicate, hgutter, hmarker,
      Diagnostic.length_lineNumber]
    omega

end AssemblyError

end RegisterMachine
