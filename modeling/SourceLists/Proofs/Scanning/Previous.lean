import SourceLists.Proofs.Scanning.Prefix

/-! The character that the scanner keeps is the one before the text that is left. -/

namespace SourceLists.Scan
open Grammar

variable {s w x y : Text} {i : Invocation} {previous q : Option Char} {seg : Segment}
  {pre post : List Segment} {b : Bool}

theorem getLast?_takeComment (h : takeComment s = (x, y)) (hy : y ≠ []) :
    x.getLast? = some '\n' := by
  induction s generalizing x with
  | nil =>
    cases h
    contradiction
  | cons c s ih =>
    rw [takeComment] at h
    split at h
    · next hc =>
      cases h
      rw [hc, List.getLast?_singleton]
    · cases h
      rw [List.getLast?_cons, ih rfl]
      rfl

theorem getLast?_takeString (h : takeString b s = (x, y)) (hy : y ≠ []) :
    x.getLast? = some '"' := by
  induction s generalizing b x with
  | nil =>
    cases h
    contradiction
  | cons c s ih =>
    rw [takeString] at h
    split at h
    · next hc =>
      cases h
      simp only [Bool.and_eq_true, decide_eq_true_eq] at hc
      rw [hc.1, List.getLast?_singleton]
    · cases h
      rw [List.getLast?_cons, ih rfl]
      rfl

/-- A segment before another one ends in the character that is kept. -/
theorem Step.getLast?_eq (h : Step previous s seg q w) (hw : w ≠ []) : seg.text.getLast? = q := by
  cases h with
  | comment s => rw [Segment.text, List.getLast?_cons, getLast?_takeComment rfl hw]; rfl
  | quoted s => rw [Segment.text, List.getLast?_cons, getLast?_takeString rfl hw]; rfl
  | statement => rw [Segment.text, Invocation.text, List.getLast?_concat]
  | other => rfl

/-- A statement does not begin inside of a word. -/
theorem not_isIdentifierChar_before (h : segments previous s = pre ++ .statement i :: post) :
    ∀ c ∈ (pre.flatMap Segment.text).getLast?.or previous, ¬ isIdentifierChar c := by
  induction pre generalizing previous s with
  | nil =>
    obtain ⟨q, w, hstep, -⟩ := segments_eq_cons.1 h
    cases hstep with
    | statement hc hbegin hread =>
      intro c hc hid
      simp only [mayBegin, Bool.and_eq_true, Bool.not_eq_true'] at hbegin
      obtain rfl : previous = some c := hc
      simp [hid] at hbegin
  | cons seg pre ih =>
    obtain ⟨q, w, hstep, hrest⟩ := segments_eq_cons.1 h
    have hw : w ≠ [] := by
      rintro rfl
      rw [segments_nil] at hrest
      simp at hrest
    have hlast := hstep.getLast?_eq hw
    have hq := hstep.previous_eq
    subst hq
    rw [List.flatMap_cons, List.getLast?_append, hlast, Option.or_assoc, Option.some_or]
    exact ih hrest

end SourceLists.Scan
