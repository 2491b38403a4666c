import SourceLists.Proofs.Scanning.Step

/-! What the scanner finds before a statement does not depend on what stands behind. -/

namespace SourceLists.Scan
open Grammar

variable {s s' w w' x y : Text} {c : Char} {i i' j : Invocation} {previous p p' q q' : Option Char}
  {seg seg' : Segment} {pre pre' post post' : List Segment} {b : Bool}

theorem Step.text_ne_nil (h : Step p s seg q w) : seg.text ≠ [] := by
  cases h with
  | comment | quoted | other => simp [Segment.text]
  | statement => simp [Segment.text, Invocation.text]

/-- The character that counts as the one before what follows a segment. -/
def Segment.last : Segment → Char
  | comment _ => '\n'
  | quoted _ => '"'
  | statement _ => ')'
  | other c => c

theorem Step.previous_eq (h : Step p s seg q w) : q = some seg.last := by
  cases h <;> rfl

theorem segments_behind (h : segments previous s = pre ++ .statement i :: post) :
    segments (some ')') (post.flatMap Segment.text) = post := by
  induction pre generalizing previous s with
  | nil =>
    obtain ⟨q, w, hstep, hrest⟩ := segments_eq_cons.1 h
    cases hstep
    rw [← hrest, flatMap_segments]
  | cons seg pre ih =>
    obtain ⟨q, w, hstep, hrest⟩ := segments_eq_cons.1 h
    exact ih hrest

/-- Of two comments at one place the shorter one is the longer one, too. -/
theorem takeComment_unique (h : takeComment (x ++ w) = (x, w)) (hw : w ≠ [])
    (h' : takeComment (y ++ w') = (y, w')) (hw' : w' ≠ []) (heq : x ++ s = y ++ s') : x = y := by
  rcases List.append_eq_append_iff.1 heq with ⟨e, rfl, -⟩ | ⟨e, rfl, -⟩
  · rw [List.append_assoc, takeComment_congr h hw] at h'
    exact (Prod.mk.inj h').1
  · rw [List.append_assoc, takeComment_congr h' hw'] at h
    exact (Prod.mk.inj h).1.symm

theorem takeString_unique (h : takeString b (x ++ w) = (x, w)) (hw : w ≠ [])
    (h' : takeString b (y ++ w') = (y, w')) (hw' : w' ≠ []) (heq : x ++ s = y ++ s') : x = y := by
  rcases List.append_eq_append_iff.1 heq with ⟨e, rfl, -⟩ | ⟨e, rfl, -⟩
  · rw [List.append_assoc, takeString_congr h hw] at h'
    exact (Prod.mk.inj h').1
  · rw [List.append_assoc, takeString_congr h' hw'] at h
    exact (Prod.mk.inj h).1.symm

theorem kind_of_command {kind kind' : Option Kind} (h : command kind = command kind') :
    kind = kind' ∨ (kind = none ∧ kind' = some .set) ∨ (kind = some .set ∧ kind' = none) := by
  revert h
  rcases kind with - | (- | - | - | -) <;> rcases kind' with - | (- | - | - | -) <;> decide

/-- Two statements that are read at the beginning of one text are the same, whatever stands
behind. -/
theorem statement_unique (hi : statement.read (i.text ++ (x ++ w)) = some (i, x ++ w))
    (hj : statement.read (j.text ++ (y ++ w')) = some (j, y ++ w'))
    (heq : i.text ++ x = j.text ++ y) :
    i = j := by
  obtain ⟨-, hwi⟩ := wellFormed_of_statement hi
  obtain ⟨-, hwj⟩ := wellFormed_of_statement hj
  obtain ⟨hownj, henvj⟩ := statement_read_eq_some.1 hj
  obtain ⟨-, henvi⟩ := statement_read_eq_some.1 hi
  have hi' : (alternative i.kind).read (j.text ++ (y ++ w')) = some (i, x ++ w') := by
    refine alternative_read_eq_some.2 ⟨rfl, ?_, hwi⟩
    rw [← List.append_assoc, ← heq, List.append_assoc]
  have hj' : (alternative j.kind).read (i.text ++ (x ++ w)) = some (j, y ++ w) := by
    refine alternative_read_eq_some.2 ⟨rfl, ?_, hwj⟩
    rw [← List.append_assoc, heq, List.append_assoc]
  rcases kind_of_command (command_eq_of_read hi' hownj) with hkind | ⟨hi₀, hj₀⟩ | ⟨hi₀, hj₀⟩
  · rw [hkind, hownj] at hi'
    exact (Prod.mk.inj (Option.some.inj hi')).1.symm
  · have hnone := henvj hj₀
    rw [hi₀, hnone] at hi'
    contradiction
  · have hnone := henvi hi₀
    rw [hj₀, hnone] at hj'
    contradiction

/-- There is one step from a text. -/
theorem Step.unique (h : Step previous s seg q w) (h' : Step previous s seg' q' w') :
    seg = seg' ∧ w = w' := by
  have hcons := h.segments_eq
  rw [h'.segments_eq] at hcons
  obtain rfl : seg' = seg := (List.cons.inj hcons).1
  have htext := h.text_append
  rw [h'.text_append] at htext
  exact ⟨rfl, (List.append_cancel_left htext).symm⟩

theorem Step.eq_comment (h : Step previous ('#' :: s) seg q w) :
    ∃ y, seg = .comment ('#' :: y) ∧ takeComment (y ++ w) = (y, w) := by
  obtain ⟨rfl, rfl⟩ := h.unique (.comment s)
  exact ⟨_, rfl, by rw [takeComment_append]⟩

theorem Step.eq_quoted (h : Step previous ('"' :: s) seg q w) :
    ∃ y, seg = .quoted ('"' :: y) ∧ takeString false (y ++ w) = (y, w) := by
  obtain ⟨rfl, rfl⟩ := h.unique (.quoted s)
  exact ⟨_, rfl, by rw [takeString_append]⟩

theorem Step.eq_statement_or_other (h : Step previous (c :: s) seg q w) (hc : c ≠ '#' ∧ c ≠ '"') :
    (∃ j, seg = .statement j ∧ mayBegin previous c ∧
        Grammar.statement.read (j.text ++ w) = some (j, w)) ∨
      (seg = .other c ∧ (mayBegin previous c → Grammar.statement.read (c :: s) = none)) := by
  cases h with
  | comment => exact absurd rfl hc.1
  | quoted => exact absurd rfl hc.2
  | statement _ hbegin hread =>
    refine Or.inl ⟨_, rfl, hbegin, ?_⟩
    rwa [← (wellFormed_of_statement hread).1]
  | other _ hread => exact Or.inr ⟨rfl, hread⟩

/-- Where a statement is read, none is missed in another text that begins with it. -/
theorem statement_read_ne_none (h : statement.read (j.text ++ w) = some (j, w)) :
    statement.read (j.text ++ w') ≠ none := by
  intro hnone
  have hj := (wellFormed_of_statement h).2
  have hread : (alternative j.kind).read (j.text ++ w') = some (j, w') :=
    alternative_read_eq_some.2 ⟨rfl, rfl, hj⟩
  rw [statement_read_eq_none.1 hnone j.kind] at hread
  contradiction

/-- The first segments of two texts are the same if they are in the beginning that the texts
share. -/
theorem Step.segment_unique (h : Step previous s seg q (x ++ w)) (hw : w ≠ [])
    (h' : Step previous s' seg' q' (y ++ w')) (hw' : w' ≠ [])
    (heq : seg.text ++ x = seg'.text ++ y) :
    seg = seg' := by
  obtain ⟨d, t, ht⟩ :=
    List.exists_cons_of_ne_nil (List.append_ne_nil_of_left_ne_nil h.text_ne_nil x)
  have hs : s = d :: (t ++ w) := by rw [h.text_append, ← List.append_assoc, ht, List.cons_append]
  have hs' : s' = d :: (t ++ w') := by
    rw [h'.text_append, ← List.append_assoc, ← heq, ht, List.cons_append]
  have hne : ∀ {u v : Text}, v ≠ [] → u ++ v ≠ [] :=
    fun hv => List.append_ne_nil_of_right_ne_nil _ hv
  subst hs hs'
  by_cases hhash : d = '#'
  · subst hhash
    obtain ⟨u, rfl, hu⟩ := h.eq_comment
    obtain ⟨u', rfl, hu'⟩ := h'.eq_comment
    have heq' : u ++ x = u' ++ y := (List.cons.inj heq).2
    rw [takeComment_unique hu (hne hw) hu' (hne hw') heq']
  by_cases hquote : d = '"'
  · subst hquote
    obtain ⟨u, rfl, hu⟩ := h.eq_quoted
    obtain ⟨u', rfl, hu'⟩ := h'.eq_quoted
    have heq' : u ++ x = u' ++ y := (List.cons.inj heq).2
    rw [takeString_unique hu (hne hw) hu' (hne hw') heq']
  rcases h.eq_statement_or_other ⟨hhash, hquote⟩ with ⟨j, rfl, hbegin, hj⟩ | ⟨rfl, hnone⟩
  · rcases h'.eq_statement_or_other ⟨hhash, hquote⟩ with ⟨j', rfl, -, hj'⟩ | ⟨rfl, hnone'⟩
    · rw [statement_unique hj hj' heq]
    · have hnone := hnone' hbegin
      rw [← List.cons_append, ← ht, Segment.text, List.append_assoc] at hnone
      exact absurd hnone (statement_read_ne_none hj)
  · rcases h'.eq_statement_or_other ⟨hhash, hquote⟩ with ⟨j', rfl, hbegin, hj'⟩ | ⟨rfl, -⟩
    · have hnone' := hnone hbegin
      rw [← List.cons_append, ← ht, heq, Segment.text, List.append_assoc] at hnone'
      exact absurd hnone' (statement_read_ne_none hj')
    · rfl

/-- Up to a statement two texts are cut into the same segments if they are the same text. -/
theorem segments_unique (h : segments previous s = pre ++ .statement i :: post)
    (h' : segments previous s' = pre' ++ .statement i' :: post')
    (heq : pre.flatMap Segment.text = pre'.flatMap Segment.text) : pre = pre' := by
  induction pre generalizing previous s s' pre' with
  | nil =>
    cases pre' with
    | nil => rfl
    | cons seg pre' =>
      obtain ⟨q, w, hstep, -⟩ := segments_eq_cons.1 h'
      rw [List.flatMap_nil, List.flatMap_cons] at heq
      exact absurd (List.append_eq_nil_iff.1 heq.symm).1 hstep.text_ne_nil
  | cons seg pre ih =>
    obtain ⟨q, w, hstep, hrest⟩ := segments_eq_cons.1 h
    cases pre' with
    | nil =>
      rw [List.flatMap_nil, List.flatMap_cons] at heq
      exact absurd (List.append_eq_nil_iff.1 heq).1 hstep.text_ne_nil
    | cons seg' pre' =>
      obtain ⟨q', w', hstep', hrest'⟩ := segments_eq_cons.1 h'
      obtain rfl := text_of_segments hrest
      obtain rfl := text_of_segments hrest'
      obtain rfl :=
        hstep.segment_unique (by simp [Invocation.text]) hstep' (by simp [Invocation.text]) heq
      have hq : q = q' := by rw [hstep.previous_eq, hstep'.previous_eq]
      rw [List.flatMap_cons, List.flatMap_cons] at heq
      rw [ih hrest (hq ▸ hrest') (List.append_cancel_left heq)]

end SourceLists.Scan
