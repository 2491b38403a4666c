import SourceLists.Proofs.Reading.Parallel

/-! Gaps as texts: what is a gap, and where reading one ends. -/

namespace SourceLists.Grammar
open Rule

variable {s t u g h rest : Text} {c : Char} {b b' : Bool}

/-- Whether a comment is open behind a text of blanks and comments; none if it is another text. -/
def gapState (inComment : Bool) : Text → Option Bool
  | [] => some inComment
  | c :: s =>
    if inComment then gapState (c != '\n' && c != '\r') s
    else if isBlank c || c == '#' then gapState (c == '#') s
    else none

/-- Blanks and comments, of which the last is closed. -/
def IsGap (g : Text) : Prop := gapState false g = some false

/-- Neither a blank nor a comment stands here. -/
def Settled (s : Text) : Prop := ∀ c ∈ s.head?, ¬ isBlank c ∧ c ≠ '#'

theorem settled_cons : Settled (c :: s) ↔ ¬ isBlank c ∧ c ≠ '#' := by
  simp [Settled]

theorem settled_append (hu : u ≠ []) : Settled (u ++ s) ↔ Settled u := by
  obtain ⟨c, u, rfl⟩ := List.exists_cons_of_ne_nil hu
  rw [List.cons_append, settled_cons, settled_cons]

theorem isGap_nil : IsGap [] := rfl

theorem gapState_append : gapState b (g ++ h) = (gapState b g).bind (gapState · h) := by
  induction g generalizing b with
  | nil => rfl
  | cons c g ih =>
    simp only [List.cons_append, gapState]
    split
    · exact ih
    · split
      · exact ih
      · rfl

theorem IsGap.append (hg : IsGap g) (hh : IsGap h) : IsGap (g ++ h) := by
  rw [IsGap, gapState_append, hg]
  exact hh

theorem takeGap_append_of_gapState (hg : gapState b g = some b') :
    takeGap b (g ++ s) = (g ++ (takeGap b' s).1, (takeGap b' s).2) := by
  induction g generalizing b with
  | nil => cases hg; rfl
  | cons c g ih =>
    simp only [gapState] at hg
    simp only [List.cons_append, takeGap]
    split at hg
    · next hb => simp [hb, ih hg]
    · next hb =>
      split at hg
      · next hc => simp [hb, hc, ih hg]
      · contradiction

theorem takeGap_of_settled (hs : Settled s) : takeGap false s = ([], s) := by
  cases s with
  | nil => rfl
  | cons c s =>
    have hc := settled_cons.1 hs
    simp [takeGap, hc]

theorem gap_read_append (hg : IsGap g) (hs : Settled s) : gap.read (g ++ s) = some (g, s) := by
  simp [gap, takeGap_append_of_gapState hg, takeGap_of_settled hs]

/-- A gap ends before another character; only at the end of the text it can be an open comment. -/
theorem gapState_takeGap (h : takeGap b s = (g, rest)) :
    (gapState b g = some false ∧ Settled rest) ∨ rest = [] := by
  induction s generalizing b g with
  | nil => cases h; exact Or.inr rfl
  | cons c s ih =>
    simp only [takeGap] at h
    split at h
    · next hb =>
      cases h
      simpa [gapState, hb] using ih (b := c != '\n' && c != '\r') rfl
    · next hb =>
      split at h
      · next hc =>
        cases h
        simpa [gapState, hb, hc] using ih (b := c == '#') rfl
      · next hc =>
        cases h
        simp only [Bool.or_eq_true, beq_iff_eq, not_or] at hc
        exact Or.inl ⟨by simp [gapState, hb], settled_cons.2 hc⟩

theorem isGap_of_gap_read (h : gap.read s = some (g, rest)) (hr : rest ≠ []) :
    IsGap g ∧ Settled rest := by
  simp only [gap, Option.some.injEq] at h
  rcases gapState_takeGap h with hg | hg
  · exact hg
  · exact absurd hg hr

/-- A closed gap ends in a blank. -/
theorem isBlank_of_mem_getLast? (hg : gapState b g = some false) (hc : c ∈ g.getLast?) :
    isBlank c := by
  induction g generalizing b with
  | nil => contradiction
  | cons d g ih =>
    cases g with
    | nil =>
      simp only [List.getLast?_singleton, Option.mem_def, Option.some.injEq] at hc
      subst hc
      simp only [gapState] at hg
      split at hg
      · have : d = '\n' ∨ d = '\r' := by
          by_cases hd : d = '\n'
          · exact Or.inl hd
          · exact Or.inr (by simpa [hd] using hg)
        rcases this with rfl | rfl <;> rfl
      · split at hg
        · next hb hd =>
          have : d ≠ '#' := by simpa using hg
          simpa [this] using hd
        · contradiction
    | cons e g =>
      rw [List.getLast?_cons_cons] at hc
      simp only [gapState] at hg
      split at hg
      · exact ih hg hc
      · split at hg
        · exact ih hg hc
        · contradiction

end SourceLists.Grammar
