import SourceLists.Proofs.Reading.Head
import SourceLists.Proofs.Scanning.Step

/-! No statement is found inside of the beginning of another one, even if that one fails later. -/

namespace SourceLists.Grammar.HeadState

variable {st st' : HeadState} {c : Char} {s : Text}

/-- No comment is open. -/
def Closed : HeadState → Prop
  | word => True
  | before inComment | inside inComment => inComment = false

theorem closed_of_nextBefore (h : nextBefore false c = some st) (hc : c ≠ '#') :
    st.Closed ∧ st ≠ word := by
  simp only [nextBefore, Bool.false_eq_true, if_false] at h
  split at h
  · cases h
    simp [Closed, hc]
  · split at h
    · cases h
      simp [Closed]
    · contradiction

theorem closed_of_nextInside (h : nextInside false c = some st) (hc : c ≠ '#') :
    st.Closed ∧ st ≠ word := by
  simp only [nextInside, Bool.false_eq_true, if_false] at h
  split at h
  · contradiction
  · cases h
    simp [Closed, hc]

/-- Outside of comments the state follows the word before it. -/
theorem closed_of_next (hst : st.Closed) (h : st.next c = some st') (hc : c ≠ '#') :
    st'.Closed ∧ (st' = word → isIdentifierChar c) := by
  cases st with
  | word =>
    rw [next] at h
    split at h
    · next hid =>
      cases h
      exact ⟨trivial, fun _ => hid⟩
    · have := closed_of_nextBefore h hc
      exact ⟨this.1, fun hw => absurd hw this.2⟩
  | before inComment =>
    obtain rfl : inComment = false := hst
    have := closed_of_nextBefore h hc
    exact ⟨this.1, fun hw => absurd hw this.2⟩
  | inside inComment =>
    obtain rfl : inComment = false := hst
    have := closed_of_nextInside h hc
    exact ⟨this.1, fun hw => absurd hw this.2⟩

theorem closed_of_lineFeed (h : st.next '\n' = some st') : st'.Closed ∧ st' ≠ word := by
  cases st with
  | word =>
    have h' : nextBefore false '\n' = some st' := h
    exact closed_of_nextBefore h' (by decide)
  | before inComment =>
    cases inComment with
    | false => exact closed_of_nextBefore h (by decide)
    | true =>
      cases h
      simp [Closed]
  | inside inComment =>
    cases inComment with
    | false => exact closed_of_nextInside h (by decide)
    | true =>
      cases h
      simp [Closed]

theorem next_quote (hst : st.Closed) : st.next '"' = none := by
  cases st with
  | word => rfl
  | before inComment =>
    obtain rfl : inComment = false := hst
    rfl
  | inside inComment =>
    obtain rfl : inComment = false := hst
    rfl

/-- What has begun as a statement does not open another one, unless in a comment. -/
theorem run_statement {word g : Text} (hst : st.Closed) (hne : st ≠ .word) (hword : word ≠ [])
    (hid : ∀ c ∈ word, isIdentifierChar c) (hg : IsGap g) :
    st.run (word ++ (g ++ '(' :: s)) = none := by
  cases st with
  | word => exact absurd rfl hne
  | before inComment =>
    obtain rfl : inComment = false := hst
    obtain ⟨c, word, rfl⟩ := List.exists_cons_of_ne_nil hword
    have hc := hid c List.mem_cons_self
    have hblank := (narrow_isIdentifierChar c hc).1
    obtain ⟨-, ho, -, hh⟩ := isQuiet_of_isIdentifierChar hc
    rw [List.cons_append, run_cons, next, nextBefore, if_neg (by simp),
      if_neg (by simp [hblank, hh]), if_neg ho]
    rfl
  | inside inComment =>
    obtain rfl : inComment = false := hst
    rw [run_append, run_quiet fun c hc => isQuiet_of_isIdentifierChar (hid c hc), Option.bind_some,
      run_append, run_inside hg]
    rfl

end SourceLists.Grammar.HeadState

namespace SourceLists.Scan
open Grammar HeadState

variable {r v w : Text} {c : Char} {i : Invocation} {previous previous' : Option Char}
  {seg : Segment} {pre post : List Segment} {st : HeadState}

theorem takeComment_cases (r v : Text) :
    (∃ y z, r = y ++ '\n' :: z ∧ takeComment (r ++ v) = (y ++ ['\n'], z ++ v)) ∨
      r.length ≤ (takeComment (r ++ v)).1.length := by
  induction r with
  | nil => exact Or.inr (Nat.zero_le _)
  | cons c r ih =>
    by_cases hc : c = '\n'
    · subst hc
      exact Or.inl ⟨[], r, rfl, rfl⟩
    · rw [List.cons_append, takeComment, if_neg hc]
      rcases ih with ⟨y, z, rfl, h⟩ | h
      · exact Or.inl ⟨c :: y, z, rfl, by rw [h]; rfl⟩
      · refine Or.inr ?_
        simp only [List.length_cons]
        omega

theorem length_le_of_statement {rest : Text} (hst : st.Closed)
    (hprevious : st = .word → previous.any isIdentifierChar) (hrun : (st.run r).isSome)
    {c : Char} (hbegin : mayBegin previous c) (hr : r ++ v = i.text ++ rest) (hi : i.WellFormed) :
    r.length ≤ i.word.length + i.beforeParen.length := by
  have hne : st ≠ .word := by
    rintro rfl
    simp [mayBegin, hprevious rfl] at hbegin
  have hword := hi.word_ne_nil
  rw [Invocation.text_append, ← List.append_assoc] at hr
  rcases List.append_eq_append_iff.1 hr with ⟨e, he, -⟩ | ⟨e, rfl, he⟩
  · rw [← List.length_append, he, List.length_append]
    omega
  · cases e with
    | nil => simp
    | cons c e =>
      obtain ⟨rfl, -⟩ := List.cons.inj he
      rw [List.append_assoc,
        run_statement hst hne hword hi.isIdentifierChar_word hi.beforeParen] at hrun
      contradiction

/-- The text is no more than the beginning of a statement, with no comment open before it. -/
def Begun (previous : Option Char) (r : Text) : Prop :=
  ∃ st : HeadState, st.Closed ∧ (st = .word → previous.any isIdentifierChar) ∧ (st.run r).isSome

/-- How far a beginning can reach that has not ended before the segment. -/
def Segment.opening : Segment → Nat
  | statement i => i.word.length + i.beforeParen.length
  | seg => seg.text.length

theorem Segment.opening_le : seg.opening ≤ seg.text.length := by
  cases seg with
  | statement i =>
    rw [opening, text, Invocation.text, Invocation.head]
    simp only [List.length_append]
    omega
  | comment | quoted | other => exact Nat.le_refl _

/-- A beginning ends in the first segment, or goes on behind one that is no statement. -/
theorem Step.begun (h : Step previous (c :: r ++ v) seg previous' w)
    (hbegun : Begun previous (c :: r)) :
    (c :: r).length ≤ seg.opening ∨ (∀ i, seg ≠ .statement i) ∧ ∃ r', w = r' ++ v ∧
      (c :: r).length = seg.text.length + r'.length ∧ Begun previous' r' := by
  obtain ⟨st, hst, hprevious, hrun⟩ := hbegun
  obtain ⟨st₁, hnext, hrun₁⟩ := exists_next_of_cons hrun
  rw [List.cons_append] at h
  generalize ht : r ++ v = t at h
  cases h with
  | comment =>
    rcases takeComment_cases r v with ⟨y, z, rfl, htake⟩ | hle
    · -- Behind the line feed the comment is closed for the statement, too.
      right
      obtain ⟨st₂, -, hrun₂⟩ := exists_run_of_append hrun₁
      obtain ⟨st₃, hfeed, hrun₃⟩ := exists_next_of_cons hrun₂
      obtain ⟨hst₃, hne⟩ := closed_of_lineFeed hfeed
      rw [ht] at htake
      refine ⟨fun i => by simp, z, by rw [htake], ?_, st₃, hst₃, fun h => absurd h hne, hrun₃⟩
      simp only [Segment.text, htake, List.length_cons, List.length_append, List.length_nil]
      omega
    · left
      rw [ht] at hle
      exact Nat.succ_le_succ hle
  | quoted =>
    rw [next_quote hst] at hnext
    contradiction
  | statement hc hbegin hread =>
    left
    obtain ⟨htext, hj⟩ := wellFormed_of_statement hread
    rw [← ht, ← List.cons_append] at htext
    exact length_le_of_statement hst hprevious hrun hbegin htext hj
  | other hc hread =>
    right
    obtain ⟨hst₁, hword⟩ := closed_of_next hst hnext hc.1
    refine ⟨fun i => by simp, r, ht.symm, ?_, st₁, hst₁, by simpa using hword, hrun₁⟩
    simp only [Segment.text, List.length_cons, List.length_nil]
    omega

/-- While a text has no more than the beginning of a statement, the scanner finds no statement that
opens in it. -/
theorem length_le_of_begun (hbegun : Begun previous r)
    (h : segments previous (r ++ v) = pre ++ .statement i :: post) :
    r.length ≤ (pre.flatMap Segment.text).length + (i.word.length + i.beforeParen.length) := by
  induction pre generalizing r previous with
  | nil =>
    cases r with
    | nil => exact Nat.zero_le _
    | cons c r =>
      obtain ⟨previous', w, hstep, -⟩ := segments_eq_cons.1 h
      rcases hstep.begun hbegun with hle | ⟨hne, -⟩
      · rw [List.flatMap_nil, List.length_nil, Nat.zero_add]
        exact hle
      · exact absurd rfl (hne i)
  | cons seg pre ih =>
    rw [List.flatMap_cons, List.length_append]
    cases r with
    | nil => exact Nat.zero_le _
    | cons c r =>
      obtain ⟨previous', w, hstep, hrest⟩ := segments_eq_cons.1 h
      rcases hstep.begun hbegun with hle | ⟨-, r', rfl, hlen, hbegun'⟩
      · have hopening := seg.opening_le
        omega
      · have hle := ih hbegun' hrest
        omega

end SourceLists.Scan
