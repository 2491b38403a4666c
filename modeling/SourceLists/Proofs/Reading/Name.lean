import SourceLists.Proofs.Reading.Statement

/-! Names as texts: which texts are identifiers and declared names, and that they are read as
such. -/

namespace SourceLists.Grammar
open Rule

variable {s v x rest : Text} {c : Char}

/-- Letters, digits and `_`, with no digit at the beginning. -/
def IsIdentifier : Text → Prop
  | [] => False
  | c :: v => isIdentifierStart c ∧ ∀ d ∈ v, isIdentifierChar d

instance : DecidablePred IsIdentifier
  | [] => inferInstanceAs (Decidable False)
  | c :: v => inferInstanceAs (Decidable (isIdentifierStart c ∧ ∀ d ∈ v, isIdentifierChar d))

theorem isIdentifierChar_of_isIdentifierStart (h : isIdentifierStart c) : isIdentifierChar c := by
  simp only [isIdentifierStart, Bool.or_eq_true] at h
  rcases h with h | h <;> simp [isIdentifierChar, Char.isAlphanum, h]

theorem IsIdentifier.isIdentifierChar (h : IsIdentifier v) : ∀ c ∈ v, isIdentifierChar c := by
  cases v with
  | nil => exact h.elim
  | cons c v => exact List.forall_mem_cons.2 ⟨isIdentifierChar_of_isIdentifierStart h.1, h.2⟩

theorem endsWord_dropWhile : EndsWord (s.dropWhile isIdentifierChar) := by
  intro c hc hid
  have hstop := List.head?_dropWhile_not isIdentifierChar s
  rw [hc] at hstop
  simp [hid] at hstop

theorem variableName_read_eq_some :
    variableName.read s = some (v, rest) ↔ IsIdentifier v ∧ s = v ++ rest ∧ EndsWord rest := by
  rw [variableName, read_token, read_append_eq_some]
  constructor
  · rintro ⟨_, s', _, hfirst, hmore, rfl⟩
    obtain ⟨c, hc, rfl, rfl⟩ := char_read_eq_some.1 hfirst
    cases hmore
    refine ⟨⟨hc, fun d hd => List.all_eq_true.1 List.all_takeWhile d hd⟩, ?_, endsWord_dropWhile⟩
    simp [List.takeWhile_append_dropWhile]
  · rintro ⟨hv, rfl, hrest⟩
    cases v with
    | nil => exact hv.elim
    | cons c v =>
      refine ⟨[c], v ++ rest, v, char_read_eq_some.2 ⟨c, hv.1, rfl, rfl⟩, ?_, rfl⟩
      change some ((v ++ rest).takeWhile isIdentifierChar, (v ++ rest).dropWhile _) = _
      rw [List.takeWhile_append_of_pos hv.2, takeWhile_of_endsWord hrest, List.append_nil,
        List.dropWhile_append_of_pos hv.2, dropWhile_of_endsWord hrest]

theorem variableReference_read_iff :
    variableReference.read s = some (v, rest) ↔
      IsIdentifier v ∧ s = Token.referenceText v ++ rest := by
  rw [variableReference_read_eq_some]
  constructor
  · rintro ⟨s', rfl, hname⟩
    obtain ⟨hv, rfl, -⟩ := variableName_read_eq_some.1 hname
    exact ⟨hv, by simp [Token.referenceText]⟩
  · rintro ⟨hv, rfl⟩
    refine ⟨v ++ '\x7d' :: rest, by simp [Token.referenceText],
      variableName_read_eq_some.2 ⟨hv, rfl, ?_⟩⟩
    exact endsWord_cons.2 (by decide)

/-- A run of name characters and of references to variables. -/
inductive IsNameRun : Text → Prop
  | nil : IsNameRun []
  | char {c : Char} {x : Text} (hc : isNameChar c) (h : IsNameRun x) : IsNameRun (c :: x)
  | reference {v x : Text} (hv : IsIdentifier v) (h : IsNameRun x) :
      IsNameRun (Token.referenceText v ++ x)

/-- A name that can be declared. -/
def IsName (x : Text) : Prop := x ≠ [] ∧ IsNameRun x

theorem isNameRun_of_isNameChar (h : ∀ c ∈ x, isNameChar c) : IsNameRun x := by
  induction x with
  | nil => exact .nil
  | cons c x ih =>
    obtain ⟨hc, hx⟩ := List.forall_mem_cons.1 h
    exact .char hc (ih hx)

theorem namePiece_read_eq_some :
    namePiece.read s = some (x, rest) ↔ s = x ++ rest ∧
      ((∃ v, IsIdentifier v ∧ x = Token.referenceText v) ∨ ∃ c, isNameChar c ∧ x = [c]) := by
  constructor
  · intro h
    rw [namePiece, read_orElse, Option.or_eq_some_iff] at h
    rcases h with h | ⟨-, h⟩
    · rw [read_map, Option.map_eq_some_iff] at h
      obtain ⟨⟨v, _⟩, hv, heq⟩ := h
      cases heq
      obtain ⟨hid, rfl⟩ := variableReference_read_iff.1 hv
      exact ⟨rfl, Or.inl ⟨v, hid, rfl⟩⟩
    · obtain ⟨c, hc, rfl, rfl⟩ := char_read_eq_some.1 h
      exact ⟨rfl, Or.inr ⟨c, hc, rfl⟩⟩
  · rintro ⟨rfl, ⟨v, hv, rfl⟩ | ⟨c, hc, rfl⟩⟩
    · rw [namePiece, read_orElse, read_map, variableReference_read_iff.2 ⟨hv, rfl⟩]
      rfl
    · exact namePiece_read_of_isNameChar hc

/-- The text does not go on with the name before it. -/
def EndsName (s : Text) : Prop := ∀ x, IsName x → ¬ x <+: s

theorem endsName_iff : EndsName s ↔ namePiece.read s = none := by
  rw [Option.eq_none_iff_forall_ne_some]
  constructor
  · rintro h ⟨x, rest⟩ hx
    obtain ⟨rfl, ⟨v, hv, rfl⟩ | ⟨c, hc, rfl⟩⟩ := namePiece_read_eq_some.1 hx
    · refine h (Token.referenceText v) ⟨by simp [Token.referenceText], ?_⟩ (List.prefix_append _ _)
      simpa using IsNameRun.reference hv .nil
    · exact h [c] ⟨List.cons_ne_nil c [], .char hc .nil⟩ (List.prefix_append _ _)
  · rintro h _ ⟨hne, hrun⟩ ⟨rest, rfl⟩
    cases hrun with
    | nil => contradiction
    | @char c y hc hy =>
      exact h ([c], y ++ rest) (namePiece_read_eq_some.2 ⟨rfl, Or.inr ⟨c, hc, rfl⟩⟩)
    | @reference v y hv hy =>
      exact h _ (namePiece_read_eq_some.2 ⟨List.append_assoc _ _ _, Or.inl ⟨v, hv, rfl⟩⟩)

instance : DecidablePred EndsName := fun _ => decidable_of_iff _ endsName_iff.symm

/-- A name ends in front of a delimiter. -/
theorem Delimited.endsName (h : Delimited s) : EndsName s := by
  rw [endsName_iff, Option.eq_none_iff_forall_ne_some]
  rintro ⟨x, rest⟩ hx
  obtain ⟨rfl, ⟨v, -, rfl⟩ | ⟨c, hc, rfl⟩⟩ := namePiece_read_eq_some.1 hx
  · exact absurd (delimited_cons.1 h) (by decide)
  · exact absurd (narrow_isNameChar.eq_false h) (by simp [hc])

theorem EndsName.not_isNameChar (h : EndsName s) : ∀ c ∈ s.head?, ¬ isNameChar c := by
  intro c hc hname
  obtain ⟨rest, rfl⟩ := List.head?_eq_some_iff.1 hc
  exact h [c] ⟨List.cons_ne_nil c [], .char hname .nil⟩ ⟨rest, rfl⟩

theorem readAll_namePiece_append (h : IsNameRun x) (hs : EndsName s) :
    readAll namePiece (x ++ s) = (x, s) := by
  induction h with
  | nil => exact readAll_of_read_eq_none namePiece_consumes (endsName_iff.1 hs)
  | @char c y hc h ih =>
    have hread : namePiece.read (c :: (y ++ s)) = some ([c], y ++ s) :=
      namePiece_read_eq_some.2 ⟨rfl, Or.inr ⟨c, hc, rfl⟩⟩
    exact readAll_of_read namePiece_consumes hread ih
  | @reference v y hv h ih =>
    rw [List.append_assoc]
    exact readAll_of_read namePiece_consumes
      (namePiece_read_eq_some.2 ⟨rfl, Or.inl ⟨v, hv, rfl⟩⟩) ih

theorem isNameRun_of_readAll (h : readAll namePiece s = (x, rest)) : IsNameRun x := by
  refine readAll_induction .nil ?_ h
  intro s y s' xs hy ih
  obtain ⟨-, ⟨v, hv, rfl⟩ | ⟨c, hc, rfl⟩⟩ := namePiece_read_eq_some.1 hy
  · exact .reference hv ih
  · exact .char hc ih

theorem namePiece_lossless : Lossless id namePiece := referenceText_lossless.orElse Lossless.char

theorem declaredName_read_iff :
    declaredName.read s = some (x, rest) ↔ x ≠ [] ∧ readAll namePiece s = (x, rest) :=
  plus_read_eq_some namePiece_lossless.toList namePiece_consumes

theorem isName_of_declaredName (h : declaredName.read s = some (x, rest)) : IsName x := by
  obtain ⟨hne, hall⟩ := declaredName_read_iff.1 h
  exact ⟨hne, isNameRun_of_readAll hall⟩

/-- A name that is read is the longest there is. -/
theorem endsName_of_declaredName (h : declaredName.read s = some (x, rest)) : EndsName rest := by
  obtain ⟨-, hall⟩ := declaredName_read_iff.1 h
  have hnone := read_readAll (s := s) namePiece_consumes
  rw [hall] at hnone
  exact endsName_iff.2 hnone

theorem declaredName_read_append (h : IsName x) (hs : EndsName s) :
    declaredName.read (x ++ s) = some (x, s) :=
  declaredName_read_iff.2 ⟨h.1, readAll_namePiece_append h.2 hs⟩

end SourceLists.Grammar
