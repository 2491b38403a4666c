import SourceLists.Proofs.Reading.Script

/-! The scanner as steps: each takes one segment from the beginning of a text. -/

namespace SourceLists.Scan
open Grammar

variable {s s' t x y : Text} {c : Char} {i : Invocation} {previous previous' : Option Char}
  {seg : Segment} {segs : List Segment} {b : Bool}

/-- One segment, the character before the next one, and the text that is left. -/
inductive Step (previous : Option Char) : Text → Segment → Option Char → Text → Prop
  | comment (s : Text) :
      Step previous ('#' :: s) (.comment ('#' :: (takeComment s).1)) (some '\n') (takeComment s).2
  | quoted (s : Text) :
      Step previous ('"' :: s) (.quoted ('"' :: (takeString false s).1)) (some '"')
        (takeString false s).2
  | statement {c : Char} {s rest : Text} {i : Invocation} (hc : c ≠ '#' ∧ c ≠ '"')
      (hbegin : mayBegin previous c) (hread : statement.read (c :: s) = some (i, rest)) :
      Step previous (c :: s) (.statement i) (some ')') rest
  | other {c : Char} {s : Text} (hc : c ≠ '#' ∧ c ≠ '"')
      (hread : mayBegin previous c → statement.read (c :: s) = none) :
      Step previous (c :: s) (.other c) (some c) s

theorem segments_nil : segments previous [] = [] := by
  rw [segments]

theorem Step.segments_eq (h : Step previous s seg previous' s') :
    segments previous s = seg :: segments previous' s' := by
  cases h with
  | comment s => rw [segments, if_pos rfl]
  | quoted s => rw [segments, if_neg (by decide), if_pos rfl]
  | statement hc hbegin hread =>
    rw [segments, if_neg hc.1, if_neg hc.2, if_pos hbegin]
    split
    · next heq =>
      rw [hread] at heq
      cases heq
      rfl
    · next heq =>
      rw [hread] at heq
      contradiction
  | other hc hread =>
    rw [segments, if_neg hc.1, if_neg hc.2]
    split
    · next hbegin =>
      split
      · next heq =>
        rw [hread hbegin] at heq
        contradiction
      · rfl
    · rfl

theorem exists_step (hs : s ≠ []) : ∃ seg previous' s', Step previous s seg previous' s' := by
  obtain ⟨c, s, rfl⟩ := List.exists_cons_of_ne_nil hs
  by_cases hh : c = '#'
  · subst hh
    exact ⟨_, _, _, .comment s⟩
  · by_cases hq : c = '"'
    · subst hq
      exact ⟨_, _, _, .quoted s⟩
    · by_cases hbegin : mayBegin previous c
      · cases hread : statement.read (c :: s) with
        | some b => exact ⟨_, _, _, .statement ⟨hh, hq⟩ hbegin hread⟩
        | none => exact ⟨_, _, _, .other ⟨hh, hq⟩ fun _ => hread⟩
      · exact ⟨_, _, _, .other ⟨hh, hq⟩ fun h => absurd h hbegin⟩

/-- The segments of a text are a first step and the segments of what it leaves. -/
theorem segments_eq_cons :
    segments previous s = seg :: segs ↔
      ∃ previous' s', Step previous s seg previous' s' ∧ segments previous' s' = segs := by
  constructor
  · intro h
    have hs : s ≠ [] := by
      rintro rfl
      rw [segments_nil] at h
      contradiction
    obtain ⟨seg', previous', s', hstep⟩ :
        ∃ seg previous' s', Step previous s seg previous' s' := exists_step hs
    rw [hstep.segments_eq] at h
    cases h
    exact ⟨previous', s', hstep, rfl⟩
  · rintro ⟨previous', s', hstep, rfl⟩
    exact hstep.segments_eq

/-- A text around one of its statements. -/
theorem text_of_segments {pre post : List Segment}
    (h : segments previous s = pre ++ .statement i :: post) :
    s = pre.flatMap Segment.text ++ (i.text ++ post.flatMap Segment.text) := by
  rw [← flatMap_segments previous s, h, List.flatMap_append, List.flatMap_cons, Segment.text]

theorem Step.text_append (h : Step previous s seg previous' s') : s = seg.text ++ s' := by
  cases h with
  | comment s => exact (congrArg (List.cons '#') (takeComment_append s)).symm
  | quoted s => exact (congrArg (List.cons '"') (takeString_append false s)).symm
  | statement hc hbegin hread => exact (statement_lossless hread).symm
  | other hc hread => rfl

/-- A comment that has ended ends there whatever follows. -/
theorem takeComment_congr (h : takeComment s = (x, y)) (hy : y ≠ []) (t : Text) :
    takeComment (x ++ t) = (x, t) := by
  induction s generalizing x with
  | nil =>
    cases h
    contradiction
  | cons c s ih =>
    simp only [takeComment] at h
    split at h
    · next hc =>
      cases h
      simp [takeComment, hc]
    · next hc =>
      cases h
      simp [takeComment, hc, ih rfl]

theorem takeString_congr (h : takeString b s = (x, y)) (hy : y ≠ []) (t : Text) :
    takeString b (x ++ t) = (x, t) := by
  induction s generalizing b x with
  | nil =>
    cases h
    contradiction
  | cons c s ih =>
    simp only [takeString] at h
    split at h
    · next hc =>
      cases h
      simp [takeString, hc]
    · next hc =>
      cases h
      simp [takeString, hc, ih rfl]

end SourceLists.Scan
