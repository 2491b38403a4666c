import SourceLists.Proofs.Reading.Growth
import SourceLists.Proofs.Scanning.Head

/-! The scanner finds the same statements in a script with an inserted item. -/

namespace SourceLists.Scan
open Grammar Argument

variable {s w x q rest : Text} {c : Char} {i : Invocation} {kind : Option Kind}
  {front tail : List Argument} {a : Argument} {previous previous' : Option Char} {seg : Segment}
  {pre post : List Segment}

/-- A step is taken with another text behind it, if no statement is read across its end. -/
theorem Step.replace (h : Step previous s seg previous' w) (hne : w ≠ []) (w' : Text)
    (hstatement : ∀ j, seg = .statement j → (alternative none).read (j.text ++ w) = none →
      (alternative none).read (j.text ++ w') = none)
    (hother : ∀ c, seg = .other c → mayBegin previous c →
      ∀ kind, (alternative kind).read (c :: w) = none → (alternative kind).read (c :: w') = none) :
    Step previous (seg.text ++ w') seg previous' w' := by
  cases h with
  | comment s =>
    have hstep : Step previous _ _ _ _ := .comment ((takeComment s).1 ++ w')
    rwa [takeComment_congr rfl hne] at hstep
  | quoted s =>
    have hstep : Step previous _ _ _ _ := .quoted ((takeString false s).1 ++ w')
    rwa [takeString_congr rfl hne] at hstep
  | @statement c _ _ j hc hbegin hread =>
    obtain ⟨hs, hj⟩ := wellFormed_of_statement hread
    obtain ⟨hown, henv⟩ := statement_read_eq_some.1 hread
    rw [hs] at henv
    have hread' : Grammar.statement.read (j.text ++ w') = some (j, w') :=
      hj.read_text fun hset => hstatement j rfl (henv hset)
    have hne : j.text ≠ [] := by simp [Invocation.text]
    obtain ⟨d, y, hy⟩ := List.exists_cons_of_ne_nil hne
    obtain rfl : c = d := by
      rw [hy] at hs
      exact (List.cons.inj hs).1
    rw [Segment.text]
    rw [hy] at hread' ⊢
    exact .statement hc hbegin hread'
  | other hc hread =>
    refine .other hc fun hbegin => statement_read_eq_none.2 fun kind => ?_
    exact hother _ rfl hbegin kind (statement_read_eq_none.1 (hread hbegin) kind)

/-- A statement can be written otherwise where it is found as such, and all before it is found
again. -/
theorem segments_replace {i' : Invocation} (h : segments previous s = pre ++ .statement i :: post)
    (hown : ∀ {previous s previous' w}, Step previous s (.statement i) previous' w →
      Step previous (i'.text ++ w) (.statement i') previous' w)
    (hbefore : ∀ {previous s seg previous' w pre}, Step previous s seg previous' w →
      segments previous' w = pre ++ .statement i :: post →
        Step previous
          (seg.text ++ (pre.flatMap Segment.text ++ (i'.text ++ post.flatMap Segment.text))) seg
            previous' (pre.flatMap Segment.text ++ (i'.text ++ post.flatMap Segment.text))) :
    segments previous (pre.flatMap Segment.text ++ (i'.text ++ post.flatMap Segment.text)) =
      pre ++ .statement i' :: post := by
  induction pre generalizing previous s with
  | nil =>
    obtain ⟨previous', w, hstep, hrest⟩ := segments_eq_cons.1 h
    have hw : post.flatMap Segment.text = w := by rw [← hrest, flatMap_segments]
    rw [hw]
    exact segments_eq_cons.2 ⟨_, _, hown hstep, hrest⟩
  | cons seg pre ih =>
    obtain ⟨previous', w, hstep, hrest⟩ := segments_eq_cons.1 h
    rw [List.flatMap_cons, List.append_assoc]
    exact segments_eq_cons.2 ⟨previous', _, hbefore hstep hrest, ih hrest⟩

/-- An item behind the last one of a statement does not let another statement begin before it. -/
theorem alternative_read_insert (hl : LastItem i front a tail) (hwf : i.WellFormed)
    (hk : i.kind ≠ none) (hx : Payload x) (hb : '\x7d' ∈ x → '\x7d' ∈ texts front ++ a.token.text)
    (hhead : kind ≠ none → ¬ IsHead (q ++ i.upTo front a))
    (hopening : kind = none → ∀ r t, q ++ (i.text ++ rest) = r ++ t → Settled t → IsOpening r →
      r.length ≤ q.length + i.head.length)
    (h : (alternative kind).read (q ++ (i.text ++ rest)) = none) :
    (alternative kind).read (q ++ ((i.pushed front a tail x).text ++ rest)) = none := by
  rw [Option.eq_none_iff_forall_ne_some] at h ⊢
  rintro ⟨j, rest'⟩ hj
  rw [hl.text_append, ← List.append_assoc] at h
  rw [Invocation.pushed_text_append, ← List.append_assoc] at hj
  have hsome :=
    isSome_of_crossing (hl.place hwf hk q rest) hx hhead ?_ (Option.isSome_of_eq_some hj)
  · obtain ⟨b, hb⟩ := Option.isSome_iff_exists.1 hsome
    exact h b hb
  · -- The brace is in the list, and the name opens before it.
    intro hkind hmem r y hr hopens
    have hle := hopening hkind r ("ENV\x7b".toList ++ (y ++ (a.gap ++ (texts tail ++ ')' :: rest))))
      (by rw [hl.text_append, ← List.append_assoc, hr]; simp) (settled_cons.2 (by decide)) hopens
    rw [Invocation.upTo, ← List.append_assoc] at hr
    have hmem' := hb hmem
    rcases List.append_eq_append_iff.1 hr with ⟨e, he, hy⟩ | ⟨e, he, hy⟩
    · obtain rfl : e = [] := by
        have := congrArg List.length he
        simp only [List.length_append] at this
        exact List.eq_nil_of_length_eq_zero (by omega)
      rw [hy, List.nil_append] at hmem'
      simpa using hmem'
    · have hmem'' : '\x7d' ∈ "ENV\x7b".toList ++ y := hy ▸ List.mem_append_right e hmem'
      simpa using hmem''

theorem isIdentifierChar_of_mayBegin (h : mayBegin previous c) : isIdentifierChar c := by
  rw [← caseless_isIdentifierChar c]
  simp only [mayBegin, Bool.and_eq_true, Bool.or_eq_true, beq_iff_eq] at h
  rcases h.1 with (hc | hc) | hc
  all_goals rw [hc]; decide

/-- A beginning that the scanner has passed over ends before the next statement opens. -/
theorem length_le_of_isHead {r v : Text} (hbegin : mayBegin previous c) (hhead : IsHead (c :: r))
    (h : segments (some c) (r ++ v) = pre ++ .statement i :: post) :
    r.length ≤ (pre.flatMap Segment.text).length + (i.word.length + i.beforeParen.length) := by
  have hc := isIdentifierChar_of_mayBegin hbegin
  rw [IsHead, HeadState.run_cons, HeadState.next, if_pos hc] at hhead
  exact length_le_of_begun ⟨.word, trivial, fun _ => by simpa using hc, hhead⟩ h

theorem IsOpening.ne_nil {r : Text} (h : IsOpening r) : r ≠ [] := by
  obtain ⟨word, g, g', rfl, -⟩ := h
  simp

section insert
variable (hl : LastItem i front a tail) (hwf : i.WellFormed) (hk : i.kind ≠ none) (hx : Payload x)
  (hb : '\x7d' ∈ x → '\x7d' ∈ texts front ++ a.token.text)
include hl hwf hk hx hb

/-- The statement itself is found where it was. -/
theorem Step.push (h : Step previous s (.statement i) previous' w) :
    Step previous ((i.pushed front a tail x).text ++ w) (.statement (i.pushed front a tail x))
      previous' w := by
  cases h with
  | @statement c _ _ _ hc hbegin hread =>
    obtain ⟨hs, -⟩ := wellFormed_of_statement hread
    obtain ⟨-, henv⟩ := statement_read_eq_some.1 hread
    rw [hs] at henv
    have hpushed := hl.wellFormed_pushed hwf hk hx.toEntry
    have hread' : Grammar.statement.read ((i.pushed front a tail x).text ++ w) =
        some (i.pushed front a tail x, w) := by
      refine hpushed.read_text fun hset => ?_
      refine alternative_read_insert (q := []) hl hwf hk hx hb
        (fun hne => absurd rfl hne) ?_ (henv hset)
      intro _ r t hr ht hopens
      rw [hwf.opening_unique hopens ht hr.symm, Invocation.head]
      simp only [List.length_append, List.length_cons, List.length_nil]
      omega
    rw [Invocation.pushed_text_append] at hread' ⊢
    rw [hl.text_append] at hs
    obtain ⟨d, y, hy⟩ := List.exists_cons_of_ne_nil (show i.upTo front a ≠ [] by
      simp [Invocation.upTo, Invocation.head])
    rw [hy] at hs hread' ⊢
    obtain rfl := (List.cons.inj hs).1
    exact .statement hc hbegin hread'

/-- What is found before the statement is found again. -/
theorem Step.insert (h : Step previous s seg previous' w)
    (hrest : segments previous' w = pre ++ .statement i :: post) :
    Step previous (seg.text ++ (pre.flatMap Segment.text ++
        ((i.pushed front a tail x).text ++ post.flatMap Segment.text))) seg previous'
      (pre.flatMap Segment.text ++
        ((i.pushed front a tail x).text ++ post.flatMap Segment.text)) := by
  have hw : pre.flatMap Segment.text ++ (i.text ++ post.flatMap Segment.text) = w :=
    (text_of_segments hrest).symm
  refine h.replace ?_ _ ?_ ?_
  · rw [← hw]
    simp [Invocation.text]
  · rintro j rfl hnone
    have hmem : .statement j ∈ segments previous s := by
      rw [segments_eq_cons.2 ⟨previous', w, h, rfl⟩]
      exact List.mem_cons_self
    have hj := wellFormed_of_mem_segments hmem
    rw [← hw, ← List.append_assoc] at hnone
    rw [← List.append_assoc]
    refine alternative_read_insert hl hwf hk hx hb (fun hne => absurd rfl hne) ?_ hnone
    intro _ r t hr ht hopens
    rw [List.append_assoc] at hr
    rw [hj.opening_unique hopens ht hr.symm, Invocation.text, Invocation.head]
    simp only [List.length_append, List.length_cons, List.length_nil]
    omega
  · rintro c rfl hbegin kind hnone
    obtain rfl : previous' = some c := by
      cases h
      rfl
    rw [← hw, ← List.cons_append] at hnone
    rw [← List.cons_append]
    refine alternative_read_insert hl hwf hk hx hb ?_ ?_ hnone
    · -- The beginning would reach into the list.
      intro _ hhead
      rw [List.cons_append] at hhead
      rw [← hw, hl.text_append, ← List.append_assoc] at hrest
      have hle := length_le_of_isHead hbegin hhead hrest
      simp only [Invocation.upTo, Invocation.head, List.length_append, List.length_cons] at hle
      omega
    · intro _ r t hr _ hopens
      obtain ⟨d, r, rfl⟩ := List.exists_cons_of_ne_nil (IsOpening.ne_nil hopens)
      rw [List.cons_append, hw] at hr
      obtain rfl := (List.cons.inj hr).1
      have hwr : w = r ++ t := (List.cons.inj hr).2
      rw [hwr] at hrest
      have hle := length_le_of_isHead hbegin hopens.isHead hrest
      simp only [Invocation.head, List.length_append, List.length_cons]
      omega

/-- With an item behind its last one a statement is scanned as before, and so is all before it. -/
theorem segments_insert (h : segments previous s = pre ++ .statement i :: post) :
    segments previous (pre.flatMap Segment.text ++
        ((i.pushed front a tail x).text ++ post.flatMap Segment.text)) =
      pre ++ .statement (i.pushed front a tail x) :: post :=
  segments_replace h (fun hstep => hstep.push hl hwf hk hx hb) fun hstep =>
    hstep.insert hl hwf hk hx hb

end insert

end SourceLists.Scan
