import SourceLists.Proofs.Reading.Gap

/-! Tokens in front of a delimiter, whatever stands behind it. -/

namespace SourceLists.Grammar
open Rule

variable {s t u x rest quoted : Text} {c : Char}

theorem delimited_nil : Delimited [] := by
  intro c h
  contradiction

namespace Rule
variable {α β : Type} {crossing : Prop}

theorem Parallel.read_congr {x : α} {o : Option (α × Text)}
    (h : Parallel s t False (some (x, u ++ s)) o) : o = some (x, u ++ t) := by
  generalize hs : some (x, u ++ s) = o' at h
  cases h with
  | none => contradiction
  | within y v =>
    simp only [Option.some.injEq, Prod.mk.injEq] at hs
    obtain ⟨rfl, hv⟩ := hs
    rw [List.append_cancel_right hv]
  | beyond h => exact h.elim

theorem Steady.read_congr {r : Rule α} {x : α} {v : Text} (h : Steady s t False r)
    (hx : r.read (u ++ s) = some (x, v ++ s)) : r.read (u ++ t) = some (x, v ++ t) :=
  Parallel.read_congr (hx ▸ h u)

theorem Steady.read_eq_none_iff {r : Rule α} (h : Steady s t crossing r) :
    r.read (u ++ s) = none ↔ r.read (u ++ t) = none := by
  rw [← Option.not_isSome_iff_eq_none, ← Option.not_isSome_iff_eq_none, (h u).isSome_eq]

theorem Consumes.map {r : Rule α} {f : α → β} (h : Consumes r) : Consumes (f <$> r) := by
  intro s y rest hy
  rw [read_map, Option.map_eq_some_iff] at hy
  obtain ⟨⟨x, rest⟩, hx, heq⟩ := hy
  cases heq
  exact h hx

theorem Consumes.orElse {r t : Rule α} (hr : Consumes r) (ht : Consumes t) :
    Consumes (r <|> t) := by
  intro s x rest h
  rw [read_orElse, Option.or_eq_some_iff] at h
  rcases h with h | h
  · exact hr h
  · exact ht h.2

theorem Lossless.consumes {r : Rule α} {view : α → Text} (h : Lossless view r)
    (hv : ∀ x, view x ≠ []) : Consumes r := by
  intro s x rest hx
  have hpos := List.length_pos_iff.2 (hv x)
  rw [← h hx, List.length_append]
  omega

end Rule

theorem isSome_itemEnd_iff : (itemEnd.read s).isSome ↔ Delimited s := by
  cases s with
  | nil => simp [itemEnd, endOfInput, Rule.char, delimited_nil]
  | cons c s =>
    rw [delimited_cons]
    by_cases h : isBlank c || c == ')'
    · simp_all [itemEnd, Rule.char]
    · simp_all [itemEnd, Rule.char, endOfInput]

theorem ahead_itemEnd_read (h : Delimited s) : (ahead itemEnd).read s = some ((), s) := by
  obtain ⟨a, ha⟩ := Option.isSome_iff_exists.1 (isSome_itemEnd_iff.2 h)
  simp [ahead, ha]

theorem delimited_of_ahead_itemEnd (h : (ahead itemEnd).read s = some ((), rest)) :
    Delimited s := by
  obtain ⟨a, ha, -⟩ := Option.map_eq_some_iff.1 h
  exact isSome_itemEnd_iff.1 (by simp [ha])

theorem steady_ahead_itemEnd {crossing : Prop} (hs : Delimited s) (ht : Delimited t) :
    Steady s t crossing (ahead itemEnd) := by
  intro u
  cases u with
  | nil =>
    rw [List.nil_append, List.nil_append, ahead_itemEnd_read hs, ahead_itemEnd_read ht]
    exact .within () []
  | cons c u =>
    have hiff : Delimited (c :: u ++ s) ↔ Delimited (c :: u ++ t) := by
      simp only [List.cons_append, delimited_cons]
    by_cases h : Delimited (c :: u ++ s)
    · rw [ahead_itemEnd_read h, ahead_itemEnd_read (hiff.1 h)]
      exact .within () (c :: u)
    · have hs := mt isSome_itemEnd_iff.1 h
      have ht := mt isSome_itemEnd_iff.1 (mt hiff.2 h)
      rw [Option.not_isSome_iff_eq_none] at hs ht
      simp only [ahead, hs, ht]
      exact .none

/-- Words of identifier characters, which no delimiter can extend. -/
def PlainWords (words : List String) : Prop :=
  ∀ word ∈ words.map String.toList, word ≠ [] ∧ ∀ c ∈ word, isIdentifierChar c

instance (words : List String) : Decidable (PlainWords words) :=
  inferInstanceAs (Decidable
    (∀ word ∈ words.map String.toList, word ≠ [] ∧ ∀ c ∈ word, isIdentifierChar c))

theorem PlainWords.narrow {words : List String} (h : PlainWords words) :
    ∀ word ∈ words.map String.toList, ∀ c ∈ word, ¬ isBlank c ∧ c ≠ ')' :=
  fun word hw c hc => narrow_isIdentifierChar c ((h word hw).2 c hc)

section steady
variable {crossing : Prop} (hs : Delimited s) (ht : Delimited t)
include hs ht

theorem keyword_steady {name : RuleName} {words : List String} (hw : PlainWords words) :
    Steady s t crossing (keyword name words) :=
  Steady.map (Steady.token ((Steady.oneOf hw.narrow hs ht).seqLeft
    (steady_ahead_itemEnd hs ht)))

theorem variableName_steady : Steady s t crossing variableName :=
  ((Steady.char narrow_isIdentifierStart hs ht).append
    (Steady.chars narrow_isIdentifierChar hs ht)).token

theorem variableReference_steady : Steady s t crossing variableReference :=
  ((Steady.exactly (by decide) hs ht).seqRight (variableName_steady hs ht)).seqLeft
    (Steady.exactly (by decide) hs ht)

theorem standaloneVariable_steady : Steady s t crossing standaloneVariable :=
  (((variableReference_steady hs ht).seqLeft (steady_ahead_itemEnd hs ht)).map).named

theorem quotedVariable_steady : Steady s t crossing quotedVariable :=
  (((((Steady.exactly (by decide) hs ht).seqRight (variableReference_steady hs ht)).seqLeft
    (Steady.exactly (by decide) hs ht)).seqLeft (steady_ahead_itemEnd hs ht)).map).named

end steady

/-- A part of a declared name. -/
def namePiece : Rule Text := Token.referenceText <$> variableReference <|> char isNameChar

theorem namePiece_consumes : Consumes namePiece :=
  (Consumes.map (variableReference_lossless.consumes fun _ => by simp [Token.referenceText])).orElse
    consumes_char

theorem namePiece_steady {crossing : Prop} (hs : Delimited s) (ht : Delimited t) :
    Steady s t crossing namePiece :=
  (variableReference_steady hs ht).map.orElse (Steady.char narrow_isNameChar hs ht)

theorem declaredName_steady {crossing : Prop} (hs : Delimited s) (ht : Delimited t) :
    Steady s t crossing declaredName :=
  (Steady.plus namePiece_consumes (namePiece_steady hs ht)).token

/-- A part of a literal. -/
def literalPiece : Rule Text := quotedString <|> char isBare

/-- No literal goes on here. -/
def LiteralEnd (s : Text) : Prop := literalPiece.read s = none

theorem takeQuoted_cons (hc : c ≠ '\\') (hq : c ≠ '"') :
    takeQuoted (c :: s) = (takeQuoted s).map fun (quoted, rest) => (c :: quoted, rest) := by
  rw [takeQuoted]
  · simp [hq]
  · intro d r h
    exact absurd h hc

/-- A quoted string is read alike in front of everything. -/
theorem takeQuoted_append_of_eq_some (h : takeQuoted s = some (quoted, rest)) :
    takeQuoted (quoted ++ t) = some (quoted, t) := by
  fun_induction takeQuoted s generalizing quoted with
  | case1 => contradiction
  | case2 c s ih =>
    obtain ⟨⟨q, r⟩, hq, heq⟩ := Option.map_eq_some_iff.1 h
    cases heq
    simp [takeQuoted, ih hq]
  | case3 =>
    cases h
    simp [takeQuoted]
  | case4 c s hc hne ih =>
    obtain ⟨⟨q, r⟩, hq, heq⟩ := Option.map_eq_some_iff.1 h
    cases heq
    have hb : c ≠ '\\' := by
      rintro rfl
      cases s with
      | nil => contradiction
      | cons d s => exact hc d s rfl rfl
    simp [takeQuoted_cons hb hne, ih hq]

theorem getLast?_takeQuoted (h : takeQuoted s = some (quoted, rest)) :
    quoted.getLast? = some '"' := by
  fun_induction takeQuoted s generalizing quoted with
  | case1 => contradiction
  | case2 c s ih =>
    obtain ⟨⟨q, r⟩, hq, heq⟩ := Option.map_eq_some_iff.1 h
    cases heq
    simp [List.getLast?_cons, ih hq]
  | case3 => cases h; rfl
  | case4 c s hc hne ih =>
    obtain ⟨⟨q, r⟩, hq, heq⟩ := Option.map_eq_some_iff.1 h
    cases heq
    simp [List.getLast?_cons, ih hq]

theorem char_read_eq_some {p : Char → Bool} :
    (char p).read s = some (x, rest) ↔ ∃ c, p c ∧ x = [c] ∧ s = c :: rest := by
  cases s with
  | nil => simp [Rule.char]
  | cons d s =>
    by_cases hd : p d
    · simp only [Rule.char, hd, ↓reduceIte, Option.some.injEq, Prod.mk.injEq, List.cons.injEq]
      constructor
      · rintro ⟨rfl, rfl⟩
        exact ⟨d, hd, rfl, rfl, rfl⟩
      · rintro ⟨c, -, rfl, rfl, rfl⟩
        exact ⟨rfl, rfl⟩
    · simp only [Rule.char, hd, Bool.false_eq_true, ↓reduceIte, reduceCtorEq,
        List.cons.injEq, false_iff]
      rintro ⟨c, hc, -, rfl, -⟩
      exact hd hc

theorem quotedString_read_eq_some :
    quotedString.read s = some (x, rest) ↔
      ∃ q s', s = '"' :: s' ∧ takeQuoted s' = some (q, rest) ∧ x = '"' :: q := by
  rw [quotedString, read_append_eq_some]
  constructor
  · rintro ⟨_, s', q, hopen, hq, rfl⟩
    obtain ⟨c, hc, rfl, rfl⟩ := char_read_eq_some.1 hopen
    rw [eq_of_beq hc]
    exact ⟨q, s', rfl, hq, rfl⟩
  · rintro ⟨q, s', rfl, hq, rfl⟩
    exact ⟨['"'], s', q, char_read_eq_some.2 ⟨'"', rfl, rfl, rfl⟩, hq, rfl⟩

theorem literalPiece_read_eq_some :
    literalPiece.read s = some (x, rest) ↔
      quotedString.read s = some (x, rest) ∨ ∃ c, isBare c ∧ x = [c] ∧ s = c :: rest := by
  rw [literalPiece, read_orElse, Option.or_eq_some_iff, char_read_eq_some]
  constructor
  · rintro (h | h)
    · exact Or.inl h
    · exact Or.inr h.2
  · rintro (h | ⟨c, hc, hx, hs⟩)
    · exact Or.inl h
    · refine Or.inr ⟨?_, c, hc, hx, hs⟩
      rw [Option.eq_none_iff_forall_not_mem]
      rintro ⟨y, r⟩ hy
      obtain ⟨q, s', hs', -⟩ := quotedString_read_eq_some.1 hy
      rw [hs] at hs'
      cases hs'
      contradiction

theorem literalPiece_append (h : literalPiece.read s = some (x, rest)) :
    literalPiece.read (x ++ t) = some (x, t) := by
  rw [literalPiece_read_eq_some] at h ⊢
  rcases h with h | ⟨c, hc, rfl, rfl⟩
  · obtain ⟨q, s', rfl, hq, rfl⟩ := quotedString_read_eq_some.1 h
    exact Or.inl (quotedString_read_eq_some.2
      ⟨q, q ++ t, rfl, takeQuoted_append_of_eq_some hq, rfl⟩)
  · exact Or.inr ⟨c, hc, rfl, rfl⟩

theorem literalPiece_lossless : Lossless id literalPiece :=
  quotedString_lossless.orElse Lossless.char

theorem ne_nil_of_literalPiece (h : literalPiece.read s = some (x, rest)) : x ≠ [] := by
  rcases literalPiece_read_eq_some.1 h with h | ⟨c, -, rfl, -⟩
  · obtain ⟨q, s', -, -, rfl⟩ := quotedString_read_eq_some.1 h
    exact List.cons_ne_nil _ _
  · exact List.cons_ne_nil _ _

theorem literalPiece_consumes : Consumes literalPiece := by
  intro s x rest h
  have hpos := List.length_pos_iff.2 (ne_nil_of_literalPiece h)
  rw [← literalPiece_lossless h, List.length_append, id]
  omega

theorem literalEnd_of_delimited (h : Delimited s) : LiteralEnd s := by
  rw [LiteralEnd, Option.eq_none_iff_forall_not_mem]
  rintro ⟨x, rest⟩ hx
  rcases literalPiece_read_eq_some.1 hx with hq | ⟨c, hc, -, rfl⟩
  · obtain ⟨q, s', rfl, -⟩ := quotedString_read_eq_some.1 hq
    exact absurd (delimited_cons.1 h) (by decide)
  · exact absurd (narrow_isBare.eq_false h) (by simp [hc])

end SourceLists.Grammar
