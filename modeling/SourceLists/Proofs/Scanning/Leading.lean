import SourceLists.Proofs.Location
import SourceLists.Proofs.Reading.Cut
import SourceLists.Proofs.Scanning.Parts

/-! The text before the first statement, as the scanner sees it. To the grammar a comment ends at a
carriage return, too; to the scanner it ends with a line feed only. -/

namespace SourceLists.Scan
open Grammar

variable {g x y z : Text} {c : Char} {p : Option Char}

/-- Behind each number sign of the text there is a line feed. -/
def CommentsEnded : Text → Prop
  | [] => True
  | c :: x => (c = '#' → '\n' ∈ x) ∧ CommentsEnded x

theorem CommentsEnded.append (hx : CommentsEnded x) (hy : CommentsEnded y) :
    CommentsEnded (x ++ y) := by
  induction x with
  | nil => exact hy
  | cons c x ih => exact ⟨fun hc => List.mem_append_left y (hx.1 hc), ih hx.2⟩

/-- The line feed that ends a comment ends all that is in the comment. -/
theorem commentsEnded_line (y : Text) : CommentsEnded (y ++ ['\n']) := by
  induction y with
  | nil => exact ⟨by decide, trivial⟩
  | cons c y ih => exact ⟨fun _ => by simp, ih⟩

theorem not_commentsEnded (hz : '\n' ∉ z) : ¬ CommentsEnded (x ++ '#' :: z) := by
  induction x with
  | nil => exact fun h => hz (h.1 rfl)
  | cons c x ih => exact fun h => ih h.2

/-- A gap begins with a blank, or with a comment. -/
theorem isGap_of_cons (h : IsGap (c :: g)) (hc : c ≠ '#') : isBlank c ∧ IsGap g := by
  rw [IsGap, gapState, if_neg (by decide), beq_eq_false_iff_ne.2 hc, Bool.or_false] at h
  split at h
  · next hblank => exact ⟨hblank, h⟩
  · contradiction

/-- A gap goes on behind a line feed, whether or not it ends a comment. -/
theorem isGap_of_line (h : IsGap ('#' :: (y ++ '\n' :: z))) : IsGap z := by
  have hline : ∀ b, gapState b ('\n' :: z) = gapState false z := by
    rintro (- | -) <;> rfl
  rw [IsGap, gapState, if_neg (by decide), if_pos (by decide), gapState_append] at h
  obtain ⟨b, -, hb⟩ := Option.bind_eq_some_iff.1 h
  rwa [hline] at hb

/-- A comment that a gap ends with has ended, with a carriage return at least. -/
theorem return_mem_of_isGap (h : IsGap (x ++ '#' :: z)) (hz : '\n' ∉ z) : '\r' ∈ z := by
  by_contra hreturn
  have hopen : gapState true z = some true := by
    refine gapState_line fun c hc => ⟨?_, ?_⟩
    · rintro rfl
      exact hz hc
    · rintro rfl
      exact hreturn hc
  have hcomment : ∀ b, gapState b ('#' :: z) = gapState true z := by
    rintro (- | -) <;> rfl
  rw [IsGap, gapState_append] at h
  obtain ⟨b, -, hb⟩ := Option.bind_eq_some_iff.1 h
  rw [hcomment, hopen] at hb
  contradiction

theorem passed_blank (hc : isBlank c) (s : Text) : Passed p [c] (some c) s := by
  have hblank : c = ' ' ∨ c = '\t' ∨ c = '\r' ∨ c = '\n' := by simpa [isBlank, or_assoc] using hc
  rcases hblank with rfl | rfl | rfl | rfl
  all_goals exact passed_of_not_mayBegin (by decide) (by simp [mayBegin])

/-- A comment is passed with its line feed. -/
theorem passed_line (hy : '\n' ∉ y) (s : Text) : Passed p ('#' :: (y ++ ['\n'])) (some '\n') s := by
  have hfeed : ∀ c ∈ ('\n' :: s).head?, c = '\n' := by simp
  exact passed_comment hy hfeed

/-- The scanner passes over a gap up to a comment that no line feed ends. -/
theorem passed_gap (hg : IsGap g) (hp : ¬ p.any isIdentifierChar) (s : Text) :
    ∃ x y r, g = x ++ y ∧ CommentsEnded x ∧ Passed p x r (y ++ s) ∧ ¬ r.any isIdentifierChar ∧
      (y = [] ∨ ∃ z, y = '#' :: z ∧ '\n' ∉ z) := by
  -- A comment is passed in one step, so it is the length that gets less.
  induction hn : g.length using Nat.strongRecOn generalizing g p with
  | ind n ih =>
    cases g with
    | nil => exact ⟨[], [], p, rfl, trivial, passed_nil, hp, Or.inl rfl⟩
    | cons c g =>
      by_cases hc : c = '#'
      · subst hc
        by_cases hfeed : '\n' ∈ g
        · obtain ⟨line, g, rfl, hline⟩ := List.eq_append_cons_of_mem hfeed
          obtain ⟨x, y, r, rfl, hx, hpassed, hr, hy⟩ :=
            ih g.length (by simp at hn; omega) (isGap_of_line hg) (p := some '\n') (by decide) rfl
          have hended : CommentsEnded (('#' :: line) ++ ['\n']) := commentsEnded_line ('#' :: line)
          exact ⟨'#' :: (line ++ ['\n']) ++ x, y, r, by simp, hended.append hx,
            (passed_line hline (x ++ (y ++ s))).append hpassed, hr, hy⟩
        · exact ⟨[], '#' :: g, p, rfl, trivial, passed_nil, hp, Or.inr ⟨g, rfl, hfeed⟩⟩
      · obtain ⟨hblank, hg⟩ := isGap_of_cons hg hc
        obtain ⟨x, y, r, rfl, hx, hpassed, hr, hy⟩ :=
          ih g.length (by simp at hn; omega) hg (p := some c)
            (not_isIdentifierChar_of_isBlank hblank) rfl
        exact ⟨c :: x, y, r, rfl, ⟨fun h => absurd h hc, hx⟩,
          (passed_blank hblank (x ++ (y ++ s))).append hpassed, hr, hy⟩

theorem takeComment_ne_nil {s : Text} (hs : s ≠ []) : (takeComment s).1 ≠ [] := by
  obtain ⟨c, s, rfl⟩ := List.exists_cons_of_ne_nil hs
  rw [takeComment]
  split <;> simp

/-- A comment that no line feed ends takes what stands behind it, too. -/
theorem lt_start_of_comment {s : Text} {start : Nat} {st : Statement} (hz : '\n' ∉ z) (hs : s ≠ [])
    (h : st ∈ statementsAt start (segments p ('#' :: z ++ s))) :
    start + Text.size ('#' :: z) < st.span.start := by
  have hstep : Step p ('#' :: (z ++ s)) _ _ _ := .comment (z ++ s)
  rw [takeComment_skip hz] at hstep
  rw [List.cons_append, hstep.segments_eq, statementsAt, Segment.statement?, Option.toList_none,
    List.nil_append] at h
  have hle := le_start_of_mem_statementsAt h
  have hpos : Text.size (takeComment s).1 ≠ 0 := mt Text.size_eq_zero.1 (takeComment_ne_nil hs)
  rw [Segment.text, ← List.cons_append, Text.size_append] at hle
  omega

end SourceLists.Scan

namespace SourceLists
open Grammar Scan

variable {s : Text} {st : Statement}

/-- The statement that is read at the beginning of a script is the first one that a scan finds, if a
line feed ends the comments before it. Behind a comment that ends with a carriage return it is not
found at all. -/
theorem head?_scan_of_parse (h : parse s = .ok [st]) :
    ∃ before rest, Text.splitAt? s st.span.start = some (before, rest) ∧
      (CommentsEnded before → (scan s).head? = some st) ∧ (st ∈ scan s → CommentsEnded before) ∧
        ('\r' ∉ before → CommentsEnded before) := by
  obtain ⟨g, i, rest, rfl, hg, hread, hst⟩ := parse_eq_singleton.1 h
  obtain ⟨x, y, r, rfl, hx, hpassed, hr, hy⟩ := passed_gap hg (p := none) (by simp) (i.text ++ rest)
  have hstart : st.span.start = Text.size (x ++ y) := by
    obtain ⟨kind, -, rfl⟩ := Option.map_eq_some_iff.1 hst
    rfl
  have hscan : scan ((x ++ y) ++ (i.text ++ rest)) =
      statementsAt (Text.size x) (segments r (y ++ (i.text ++ rest))) := by
    rw [List.append_assoc, scan, hpassed, Nat.zero_add]
  rw [hscan]
  refine ⟨x ++ y, i.text ++ rest, Text.splitAt?_eq_some.2 ⟨rfl, hstart.symm⟩, ?_⟩
  rcases hy with rfl | ⟨z, rfl, hz⟩
  · rw [List.append_nil] at hst ⊢
    rw [List.nil_append, (step_of_read hread hr).segments_eq, statementsAt, Segment.statement?, hst]
    exact ⟨fun _ => rfl, fun _ => hx, fun _ => hx⟩
  · refine ⟨fun hended => absurd hended (not_commentsEnded hz), fun hmem => ?_, fun hreturn => ?_⟩
    · have hlt := lt_start_of_comment hz (by simp [Invocation.text]) hmem
      rw [hstart, Text.size_append] at hlt
      omega
    · exact absurd
        (List.mem_append_right x (List.mem_cons_of_mem '#' (return_mem_of_isGap hg hz))) hreturn

/-- A carriage return ends the comment for `parse` alone. -/
theorem head?_scan_of_parse_return :
    parse "# c\rset(A b)".toList = .ok [⟨.set, "A".toList, [.literal "b".toList 10], ⟨4, 12⟩⟩] ∧
      (scan "# c\rset(A b)".toList).head? ≠
        some ⟨.set, "A".toList, [.literal "b".toList 10], ⟨4, 12⟩⟩ := by
  have h : parse "# c\rset(A b)".toList =
      .ok [⟨.set, "A".toList, [.literal "b".toList 10], ⟨4, 12⟩⟩] := by decide +kernel
  have hbefore :
      Text.splitAt? "# c\rset(A b)".toList 4 = some ("# c\r".toList, "set(A b)".toList) := by
    decide
  refine ⟨h, fun hhead => ?_⟩
  obtain ⟨before, rest, hsplit, -, hended, -⟩ := head?_scan_of_parse h
  rw [hbefore] at hsplit
  cases hsplit
  have hcomments := hended (List.mem_of_mem_head? hhead)
  simp [CommentsEnded] at hcomments

end SourceLists
