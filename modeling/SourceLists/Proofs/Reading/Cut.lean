import Mathlib.Data.List.Basic
import SourceLists.Proofs.Reading.Quote

/-! Where in a statement another text is put in: inside of a gap, of a token, or behind one. -/

namespace SourceLists.Grammar
open Argument

variable {s t u v x y rest : Text} {a b : Text} {args : List Argument}

theorem append_cases (h : u ++ s = a ++ b) :
    (∃ u', u = a ++ u' ∧ b = u' ++ s) ∨ ∃ a', a' ≠ [] ∧ a = u ++ a' ∧ s = a' ++ b := by
  rcases List.append_eq_append_iff.1 h with ⟨a', rfl, rfl⟩ | ⟨u', rfl, rfl⟩
  · cases a' with
    | nil => exact Or.inl ⟨[], by simp, rfl⟩
    | cons c a' => exact Or.inr ⟨c :: a', List.cons_ne_nil c a', rfl, rfl⟩
  · exact Or.inl ⟨u', rfl, rfl⟩

/-- The text ends like an item. -/
def EndsInEdge (u : Text) : Prop := ∃ y c, u = y ++ [c] ∧ IsEdge c

theorem EndsInEdge.of_append (h : EndsInEdge (a ++ u)) (hu : u ≠ []) : EndsInEdge u := by
  obtain ⟨y, c, heq, hc⟩ := h
  have hlast := congrArg List.getLast? heq
  rw [List.getLast?_append, List.getLast?_concat, List.getLast?_eq_some_getLast hu, Option.some_or,
    Option.some.injEq] at hlast
  exact ⟨u.dropLast, u.getLast hu, (List.dropLast_append_getLast hu).symm, hlast ▸ hc⟩

theorem EndsInEdge.ne_nil (h : EndsInEdge u) : u ≠ [] := by
  obtain ⟨y, c, rfl, -⟩ := h
  simp

theorem EndsInEdge.not_isGap (h : EndsInEdge u) : ¬ IsGap u := by
  obtain ⟨y, c, rfl, hc⟩ := h
  exact fun hg => hc.not_isBlank (isBlank_of_mem_getLast? hg (by simp))

theorem not_lineEnd_of_isBare {c : Char} (h : isBare c) : c ≠ '\n' ∧ c ≠ '\r' := by
  constructor <;> rintro rfl <;> contradiction

/-- No comment ends inside of a line. -/
theorem gapState_line (h : ∀ c ∈ x, c ≠ '\n' ∧ c ≠ '\r') : gapState true x = some true := by
  induction x with
  | nil => rfl
  | cons c x ih =>
    obtain ⟨hn, hr⟩ := h c List.mem_cons_self
    have hc : (c != '\n' && c != '\r') = true := by simp [hn, hr]
    rw [gapState, if_pos rfl, hc]
    exact ih fun d hd => h d (List.mem_cons_of_mem c hd)

theorem line_of_bare (hx : ∀ c ∈ x, isBare c) : ∀ c ∈ ' ' :: x, c ≠ '\n' ∧ c ≠ '\r' := by
  intro c hc
  rcases List.mem_cons.1 hc with rfl | hc
  · decide
  · exact not_lineEnd_of_isBare (hx c hc)

/-- A text on one line that is put into a gap behind something else than a blank is part of a
comment, and can be taken out of it. -/
theorem gap_cut (hg : IsGap (u ++ a)) (ha : a ≠ []) (hu : EndsInEdge u)
    (hs : (' ' :: x) ++ v = a ++ b) (hx : ∀ c ∈ x, isBare c) :
    ∃ a', a = (' ' :: x) ++ a' ∧ v = a' ++ b ∧ IsGap (u ++ a') := by
  have hline := line_of_bare hx
  rw [IsGap, gapState_append, Option.bind_eq_some_iff] at hg
  obtain ⟨inComment, hopen, hclosed⟩ := hg
  cases inComment with
  | false => exact absurd hopen hu.not_isGap
  | true =>
    rcases List.append_eq_append_iff.1 hs with ⟨a', rfl, hv⟩ | ⟨z, hz, -⟩
    · rw [gapState_append, gapState_line hline, Option.bind_some] at hclosed
      exact ⟨a', rfl, hv, by rw [IsGap, gapState_append, hopen]; exact hclosed⟩
    · -- All that is left of the gap would be on one line.
      rw [gapState_line fun c hc => hline c (hz ▸ List.mem_append_left z hc)] at hclosed
      contradiction

/-- Where a text ends that goes on with `s`, among arguments in their layout. -/
inductive Cut (u s rest : Text) (args : List Argument) : Prop
  | behind (u' : Text) (hu : u = texts args ++ ')' :: u') (hrest : rest = u' ++ s)
  | inGap (front : List Argument) (a : Argument) (more : List Argument) (g g' : Text)
      (hargs : args = front ++ a :: more) (hu : u = texts front ++ (a.token.text ++ g))
      (hg : a.gap = g ++ g') (hg' : g' ≠ []) (hedge : EndsInEdge g)
      (hs : s = g' ++ (texts more ++ ')' :: rest))
  | inToken (front : List Argument) (a : Argument) (more : List Argument) (x y : Text)
      (hargs : args = front ++ a :: more) (hu : u = texts front ++ x) (hx : x ≠ []) (hy : y ≠ [])
      (htoken : a.token.text = x ++ y) (hs : s = y ++ (a.gap ++ (texts more ++ ')' :: rest)))
  | behindToken (front : List Argument) (a : Argument) (more : List Argument)
      (hargs : args = front ++ a :: more) (hu : u = texts front ++ a.token.text)
      (hs : s = a.gap ++ (texts more ++ ')' :: rest))

theorem Cut.cons {a : Argument} (h : Cut u s rest args) : Cut (a.text ++ u) s rest (a :: args) := by
  cases h with
  | behind u' hu hrest => exact .behind u' (by simp [hu, Argument.text]) hrest
  | inGap front b more g g' hargs hu hg hg' hedge hs =>
    exact .inGap (a :: front) b more g g' (by rw [hargs]; rfl) (by simp [hu, Argument.text]) hg hg'
      hedge hs
  | inToken front b more x y hargs hu hx hy htoken hs =>
    exact .inToken (a :: front) b more x y (by rw [hargs]; rfl) (by simp [hu, Argument.text]) hx hy
      htoken hs
  | behindToken front b more hargs hu hs =>
    exact .behindToken (a :: front) b more (by rw [hargs]; rfl) (by simp [hu, Argument.text]) hs

theorem cut_cases (hlaid : Laid (')' :: rest) args) (h : u ++ s = texts args ++ ')' :: rest)
    (hu : EndsInEdge u) : Cut u s rest args := by
  induction args generalizing u with
  | nil =>
    obtain ⟨c, u, rfl⟩ := List.exists_cons_of_ne_nil hu.ne_nil
    obtain ⟨rfl, hrest⟩ := List.cons.inj h
    exact .behind u rfl hrest.symm
  | cons a args ih =>
    rw [texts_cons, List.append_assoc, List.append_assoc] at h
    rcases append_cases h with ⟨u', rfl, h'⟩ | ⟨y, hy, htoken, hs⟩
    · by_cases hnil : u' = []
      · subst hnil
        exact .behindToken [] a args rfl (by simp) h'.symm
      · have hu' := hu.of_append hnil
        rcases append_cases h'.symm with ⟨u'', rfl, h''⟩ | ⟨g', hg', hgap, hs⟩
        · by_cases hnil' : u'' = []
          · subst hnil'
            rw [List.append_nil] at hu'
            exact absurd hlaid.1 hu'.not_isGap
          · rw [← List.append_assoc]
            exact (ih hlaid.2.2.2 h''.symm (hu'.of_append hnil')).cons
        · exact .inGap [] a args u' g' rfl rfl hgap hg' hu' hs
    · exact .inToken [] a args u y rfl rfl hu.ne_nil hy htoken hs

end SourceLists.Grammar
