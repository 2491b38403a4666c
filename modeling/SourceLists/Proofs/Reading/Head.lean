import SourceLists.Proofs.Reading.Statement

/-! The beginnings of statements, up to the first item: a word, a parenthesis, a name and flags.
What else they have is blanks and comments. -/

namespace SourceLists.Grammar
open Rule Argument

variable {s t x g rest : Text} {c : Char} {b b' : Bool} {args : List Argument} {i : Invocation}

/-- How far a beginning has come, and whether a comment is open there. -/
inductive HeadState
  | word
  | before (inComment : Bool)
  | inside (inComment : Bool)

namespace HeadState

def nextBefore (inComment : Bool) (c : Char) : Option HeadState :=
  if inComment then some (before (c != '\n' && c != '\r'))
  else if isBlank c || c == '#' then some (before (c == '#'))
  else if c = '(' then some (inside false)
  else none

/-- Neither a quote nor a parenthesis. -/
def nextInside (inComment : Bool) (c : Char) : Option HeadState :=
  if inComment then some (inside (c != '\n' && c != '\r'))
  else if c = '"' ∨ c = '(' ∨ c = ')' then none
  else some (inside (c == '#'))

def next : HeadState → Char → Option HeadState
  | word, c => if isIdentifierChar c then some word else nextBefore false c
  | before inComment, c => nextBefore inComment c
  | inside inComment, c => nextInside inComment c

def run (st : HeadState) : Text → Option HeadState
  | [] => some st
  | c :: s => (st.next c).bind fun st => st.run s

variable {st : HeadState}

theorem run_cons : st.run (c :: s) = (st.next c).bind fun st => st.run s := rfl

theorem run_append : st.run (s ++ t) = (st.run s).bind fun st => st.run t := by
  induction s generalizing st with
  | nil => rfl
  | cons c s ih =>
    rw [List.cons_append, run_cons, run_cons]
    cases st.next c with
    | none => rfl
    | some st => exact ih

theorem exists_run_of_append (h : (st.run (s ++ t)).isSome) :
    ∃ st', st.run s = some st' ∧ (st'.run t).isSome := by
  rw [run_append] at h
  cases hs : st.run s with
  | none =>
    rw [hs] at h
    contradiction
  | some st' =>
    rw [hs] at h
    exact ⟨st', rfl, h⟩

theorem exists_next_of_cons (h : (st.run (c :: s)).isSome) :
    ∃ st', st.next c = some st' ∧ (st'.run s).isSome := by
  rw [run_cons] at h
  cases hc : st.next c with
  | none =>
    rw [hc] at h
    contradiction
  | some st' =>
    rw [hc] at h
    exact ⟨st', rfl, h⟩

theorem run_word (hx : ∀ c ∈ x, isIdentifierChar c) : word.run x = some word := by
  induction x with
  | nil => rfl
  | cons c x ih =>
    rw [run_cons, next, if_pos (hx c List.mem_cons_self)]
    exact ih fun d hd => hx d (List.mem_cons_of_mem c hd)

theorem run_before (h : gapState b g = some b') : (before b).run g = some (before b') := by
  induction g generalizing b with
  | nil => cases h; rfl
  | cons c g ih =>
    rw [run_cons, next, nextBefore]
    simp only [gapState] at h
    split at h
    · next hb =>
      rw [if_pos hb]
      exact ih h
    · next hb =>
      split at h
      · next hc =>
        rw [if_neg hb, if_pos hc]
        exact ih h
      · contradiction

theorem run_inside (h : gapState b g = some b') : (inside b).run g = some (inside b') := by
  induction g generalizing b with
  | nil => cases h; rfl
  | cons c g ih =>
    rw [run_cons, next, nextInside]
    simp only [gapState] at h
    split at h
    · next hb =>
      rw [if_pos hb]
      exact ih h
    · next hb =>
      split at h
      · next hc =>
        have hq : ¬ (c = '"' ∨ c = '(' ∨ c = ')') := by
          rintro (rfl | rfl | rfl) <;> contradiction
        rw [if_neg hb, if_neg hq]
        exact ih h
      · contradiction

/-- A character that means nothing but itself. -/
def IsQuiet (c : Char) : Prop := c ≠ '"' ∧ c ≠ '(' ∧ c ≠ ')' ∧ c ≠ '#'

theorem run_quiet (hx : ∀ c ∈ x, IsQuiet c) : (inside false).run x = some (inside false) := by
  induction x with
  | nil => rfl
  | cons c x ih =>
    obtain ⟨hq, ho, hc, hh⟩ := hx c List.mem_cons_self
    rw [run_cons, next, nextInside, if_neg (by simp), if_neg (by simp [hq, ho, hc])]
    simp only [Option.bind_some, beq_eq_false_iff_ne.2 hh]
    exact ih fun d hd => hx d (List.mem_cons_of_mem c hd)

/-- A word goes on or is followed by what follows a word. -/
theorem run_word_of_endsWord (h : EndsWord (c :: s)) :
    word.run (c :: s) = (before false).run (c :: s) := by
  rw [run_cons, run_cons, next, if_neg (endsWord_cons.1 h), next]

/-- The opening of a statement. -/
theorem run_open (hx : ∀ c ∈ x, isIdentifierChar c) (hg : IsGap g) :
    word.run (x ++ (g ++ '(' :: s)) = (inside false).run s := by
  have hend : EndsWord (g ++ '(' :: s) := endsWord_gap_append hg (endsWord_cons.2 (by decide))
  have hbefore : (before false).run (g ++ '(' :: s) = (inside false).run s := by
    rw [run_append, run_before hg]
    rfl
  rw [run_append, run_word hx, Option.bind_some]
  obtain ⟨c, t, ht⟩ := List.exists_cons_of_ne_nil (show g ++ '(' :: s ≠ [] by simp)
  rw [ht] at hend hbefore ⊢
  rw [run_word_of_endsWord hend, hbefore]

end HeadState

open HeadState

/-- The text has no more than the beginning of a statement. -/
def IsHead (s : Text) : Prop := (word.run s).isSome

theorem isQuiet_of_isIdentifierChar (h : isIdentifierChar c) : IsQuiet c := by
  refine ⟨?_, ?_, ?_, ?_⟩ <;> rintro rfl <;> contradiction

theorem isNameChar_of_isIdentifierChar (h : isIdentifierChar c) : isNameChar c := by
  simp only [isIdentifierChar, Bool.or_eq_true] at h
  rcases h with h | h <;> simp [isNameChar, h]

/-- A character of a name, or of a reference in a name. -/
def IsNamePart (c : Char) : Prop := isNameChar c ∨ c = '$' ∨ c = '\x7b' ∨ c = '\x7d'

theorem IsNamePart.isQuiet (h : IsNamePart c) : IsQuiet c := by
  rcases h with h | rfl | rfl | rfl
  · refine ⟨?_, ?_, ?_, ?_⟩ <;> rintro rfl <;> contradiction
  · unfold IsQuiet; decide
  · unfold IsQuiet; decide
  · unfold IsQuiet; decide

theorem IsNamePart.ne_space (h : IsNamePart c) : c ≠ ' ' := by
  rintro rfl
  rcases h with h | h | h | h <;> contradiction

theorem isNamePart_of_namePiece (h : namePiece.read s = some (x, rest)) :
    ∀ c ∈ x, IsNamePart c := by
  rw [namePiece, read_orElse, Option.or_eq_some_iff] at h
  rcases h with h | ⟨-, h⟩
  · rw [read_map, Option.map_eq_some_iff] at h
    obtain ⟨⟨n, r⟩, hn, heq⟩ := h
    cases heq
    obtain ⟨s', -, hname⟩ := variableReference_read_eq_some.1 hn
    intro c hc
    simp only [Token.referenceText, List.mem_append, List.mem_cons, List.not_mem_nil,
      or_false] at hc
    rcases hc with ((hc | hc) | hc) | hc
    · exact Or.inr (Or.inl hc)
    · exact Or.inr (Or.inr (Or.inl hc))
    · exact Or.inl (isNameChar_of_isIdentifierChar (variableName_read hname c hc))
    · exact Or.inr (Or.inr (Or.inr hc))
  · obtain ⟨c, hc, rfl, -⟩ := char_read_eq_some.1 h
    intro d hd
    obtain rfl := List.mem_singleton.1 hd
    exact Or.inl hc

theorem isNamePart_of_readAll (h : readAll namePiece s = (x, rest)) : ∀ c ∈ x, IsNamePart c := by
  refine readAll_induction (P := fun x => ∀ c ∈ x, IsNamePart c) (by simp) ?_ h
  intro s y s' xs hy ih
  exact List.forall_mem_append.2 ⟨isNamePart_of_namePiece hy, ih⟩

theorem isNamePart_of_declaredName (h : declaredName.read s = some (x, rest)) :
    ∀ c ∈ x, IsNamePart c := by
  obtain ⟨y, z, s', hy, hz, rfl⟩ := declaredName_read_eq_some.1 h
  intro c hc
  rcases List.mem_append.1 hc with hc | hc
  · exact isNamePart_of_namePiece hy c hc
  · exact isNamePart_of_readAll hz c hc

theorem isQuiet_of_declaredName (h : declaredName.read s = some (x, rest)) : ∀ c ∈ x, IsQuiet c :=
  fun c hc => (isNamePart_of_declaredName h c hc).isQuiet

/-- Flags with the gaps behind them belong to the beginning. -/
theorem run_flags (hg : ∀ a ∈ args, IsGap a.gap) (hf : ∀ a ∈ args, ∀ c ∈ a.token.text, IsQuiet c) :
    (inside false).run (texts args) = some (inside false) := by
  induction args with
  | nil => rfl
  | cons a args ih =>
    rw [texts_cons, run_append, run_quiet (hf a List.mem_cons_self), Option.bind_some, run_append,
      run_inside (hg a List.mem_cons_self), Option.bind_some]
    exact ih (fun b hb => hg b (List.mem_cons_of_mem a hb))
      fun b hb => hf b (List.mem_cons_of_mem a hb)

end SourceLists.Grammar
