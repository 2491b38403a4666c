import SourceLists.Text.Basic

/-! The lines of a text, divided by line feeds. -/

namespace SourceLists.Text
variable {s : Text}

/-- A line feed at the end leaves an empty last line. -/
def lines : Text → List Text
  | [] => [[]]
  | c :: s => if c = '\n' then [] :: lines s else (lines s).modifyHead (c :: ·)

def unlines (lines : List Text) : Text := List.intercalate ['\n'] lines

theorem lines_ne_nil : lines s ≠ [] := by
  induction s with
  | nil => simp [lines]
  | cons c s ih =>
    simp only [lines]
    split
    · simp
    · cases h : lines s with
      | nil => exact absurd h ih
      | cons => simp

theorem unlines_lines : unlines (lines s) = s := by
  induction s with
  | nil => rfl
  | cons c s ih =>
    obtain ⟨line, rest, h⟩ := List.exists_cons_of_ne_nil (@lines_ne_nil s)
    rw [h] at ih
    simp only [lines, h]
    split
    · simp_all [unlines, List.intercalate]
    · cases rest <;> simp_all [unlines, List.intercalate]

end SourceLists.Text
