import SourceLists.Proofs.Reading.Token

/-! Items: each is read alike in front of every delimiter, and none ends without one. -/

namespace SourceLists.Grammar
open Rule

variable {s t u x rest : Text} {c : Char} {tok : Token}

namespace Rule
variable {α : Type} {r : Rule (List α)}

/-- Reading ends where there is nothing more to read. -/
theorem read_readAll (hc : Consumes r) : r.read (readAll r s).2 = none := by
  induction hn : s.length using Nat.strongRecOn generalizing s with
  | ind n ih =>
    rw [readAll_eq hc]
    cases h : r.read s with
    | none => exact h
    | some a =>
      have hlt := hc h
      exact ih a.2.length (by omega) rfl

/-- What holds of nothing and is kept by every round holds of all that is read. -/
theorem readAll_induction {P : List α → Prop} {x : List α} (hnil : P [])
    (hround : ∀ {s x s' y}, r.read s = some (x, s') → P y → P (x ++ y))
    (h : readAll r s = (x, rest)) :
    P x := by
  fun_induction readAll r s generalizing x rest with
  | case1 => cases h; exact hnil
  | case2 s y s' hy hlt xs s'' hxs ih =>
    cases h
    exact hround hy (ih hxs)
  | case3 => cases h; exact hnil

/-- A round, and then all that follows it. -/
theorem readAll_of_read {x y : List α} {s' : Text} (hc : Consumes r) (hx : r.read s = some (x, s'))
    (hy : readAll r s' = (y, rest)) : readAll r s = (x ++ y, rest) := by
  rw [readAll_eq hc, hx]
  simp only [hy]

theorem readAll_of_read_eq_none (hc : Consumes r) (h : r.read s = none) :
    readAll r s = ([], s) := by
  rw [readAll_eq hc, h]

/-- What a rule that takes text reads is not empty. -/
theorem ne_nil_of_consumes {view : α → Text} {x : List α} (hl : LosslessList view r)
    (hc : Consumes r) (h : r.read s = some (x, rest)) : x ≠ [] := by
  rintro rfl
  have hs : rest = s := hl h
  have hlt := hc h
  rw [hs] at hlt
  omega

/-- Reading at least once is reading all, where there is something to read. -/
theorem plus_read_eq_some {view : α → Text} {x : List α} (hl : LosslessList view r)
    (hc : Consumes r) :
    (plus r).read s = some (x, rest) ↔ x ≠ [] ∧ readAll r s = (x, rest) := by
  rw [readAll_eq hc, plus, read_append]
  cases hs : r.read s with
  | none => simp +contextual
  | some b =>
    have hne : b.1 ≠ [] := ne_nil_of_consumes hl hc hs
    simp only [Rule.star, Option.bind_some, Option.map_some, Option.some.injEq, Prod.mk.injEq]
    constructor
    · rintro ⟨rfl, rfl⟩
      exact ⟨by simp [hne], rfl, rfl⟩
    · exact And.right

/-- The first round, and all that follow. -/
theorem plus_read_eq_some_append {x : List α} : (plus r).read s = some (x, rest) ↔
    ∃ y z s', r.read s = some (y, s') ∧ readAll r s' = (z, rest) ∧ x = y ++ z := by
  rw [plus, read_append_eq_some]
  constructor
  · rintro ⟨y, s', z, hy, hz, rfl⟩
    exact ⟨y, z, s', hy, Option.some.inj hz, rfl⟩
  · rintro ⟨y, z, s', hy, hz, rfl⟩
    exact ⟨y, s', z, hy, congrArg some hz, rfl⟩

theorem Consumes.append {r t : Rule (List α)} {view : α → Text} (hr : Consumes r)
    (ht : LosslessList view t) : Consumes (r ++ t) := by
  intro s x rest h
  obtain ⟨y, s', z, hy, hz, rfl⟩ := read_append_eq_some.1 h
  have hs' := ht hz
  have hlt := hr hy
  rw [← hs', List.length_append] at hlt
  omega

theorem absent_seqRight_read_eq_some {α β : Type} {r : Rule α} {t : Rule β} {x : β} :
    (absent r *> t).read s = some (x, rest) ↔ r.read s = none ∧ t.read s = some (x, rest) := by
  rw [read_seqRight]
  cases h : r.read s with
  | none => simp [absent, h]
  | some a => simp [absent, h]

end Rule

theorem readAll_literalPiece_append (h : readAll literalPiece s = (x, rest)) (ht : LiteralEnd t) :
    readAll literalPiece (x ++ t) = (x, t) := by
  fun_induction readAll literalPiece s generalizing x rest with
  | case1 s hs =>
    cases h
    rw [List.nil_append, readAll_eq literalPiece_consumes, show literalPiece.read t = none from ht]
  | case2 s y rest' hy hlt xs rest'' hxs ih =>
    cases h
    rw [List.append_assoc, readAll_eq literalPiece_consumes, literalPiece_append hy]
    simp only [ih hxs]
  | case3 s y rest' hy hlt => exact absurd (literalPiece_consumes hy) hlt

theorem literalItem_read_eq_some :
    literalItem.read s = some (tok, rest) ↔
      ∃ x, tok = .literal x ∧ (plus literalPiece).read s = some (x, rest) := by
  rw [literalItem, read_token, read_map_eq_some]
  constructor
  · rintro ⟨x, hx, rfl⟩
    exact ⟨x, rfl, hx⟩
  · rintro ⟨x, rfl, hx⟩
    exact ⟨x, hx, rfl⟩

theorem literalEnd_of_literalItem (h : literalItem.read s = some (tok, rest)) :
    LiteralEnd rest := by
  obtain ⟨x, -, hx⟩ := literalItem_read_eq_some.1 h
  obtain ⟨y, z, s', -, hz, -⟩ := plus_read_eq_some_append.1 hx
  have hend := read_readAll literalPiece_consumes (s := s')
  rwa [hz] at hend

theorem literalItem_append (h : literalItem.read s = some (tok, rest)) (ht : LiteralEnd t) :
    literalItem.read (tok.text ++ t) = some (tok, t) := by
  obtain ⟨x, rfl, hx⟩ := literalItem_read_eq_some.1 h
  obtain ⟨y, z, s', hy, hz, rfl⟩ := plus_read_eq_some_append.1 hx
  refine literalItem_read_eq_some.2 ⟨y ++ z, rfl, plus_read_eq_some_append.2
    ⟨y, z, z ++ t, ?_, readAll_literalPiece_append hz ht, rfl⟩⟩
  rw [Token.text, List.append_assoc]
  exact literalPiece_append hy

/-- The three forms of an item, in the order in which they are tried. -/
theorem listItem_read_eq_some :
    listItem.read s = some (tok, rest) ↔
      scopeKeyword.read s = none ∧ (standaloneVariable.read s = some (tok, rest) ∨
        standaloneVariable.read s = none ∧ (quotedVariable.read s = some (tok, rest) ∨
          quotedVariable.read s = none ∧ literalItem.read s = some (tok, rest))) := by
  rw [listItem, read_named, absent_seqRight_read_eq_some, read_orElse, read_orElse,
    Option.or_eq_some_iff, Option.or_eq_some_iff]

theorem variableForm_read {r : Rule Text} {quoted : Bool}
    (h : (Token.reference quoted <$> (r <* ahead itemEnd)).read s = some (tok, rest)) :
    Delimited rest ∧ ∃ name, tok = .reference quoted name ∧ r.read s = some (name, rest) := by
  obtain ⟨name, hform, rfl⟩ := read_map_eq_some.1 h
  obtain ⟨s', _, hr, hend⟩ := read_seqLeft_eq_some.1 hform
  obtain rfl := ahead_takesNothing hend
  exact ⟨delimited_of_ahead_itemEnd hend, name, rfl, hr⟩

/-- No literal goes on behind an item. -/
theorem literalEnd_of_listItem (h : listItem.read s = some (tok, rest)) : LiteralEnd rest := by
  obtain ⟨-, h | ⟨-, h | ⟨-, h⟩⟩⟩ := listItem_read_eq_some.1 h
  · exact literalEnd_of_delimited (variableForm_read h).1
  · exact literalEnd_of_delimited (variableForm_read h).1
  · exact literalEnd_of_literalItem h

theorem plainWords_scopeKeyword : PlainWords ["PRIVATE", "PUBLIC", "INTERFACE"] := by decide

/-- What follows a token does not matter, as long as it is a delimiter. -/
theorem listItem_congr (h : listItem.read (tok.text ++ s) = some (tok, s)) (hs : Delimited s)
    (ht : Delimited t) : listItem.read (tok.text ++ t) = some (tok, t) := by
  obtain ⟨hk, h⟩ := listItem_read_eq_some.1 h
  have hscope : Steady s t False scopeKeyword := keyword_steady hs ht plainWords_scopeKeyword
  have hk' := hscope.read_eq_none_iff.1 hk
  have hv : Steady s t False standaloneVariable := standaloneVariable_steady hs ht
  have hq : Steady s t False quotedVariable := quotedVariable_steady hs ht
  refine listItem_read_eq_some.2 ⟨hk', ?_⟩
  rcases h with h | ⟨hnv, h | ⟨hnq, h⟩⟩
  · exact Or.inl (hv.read_congr (v := []) h)
  · exact Or.inr ⟨hv.read_eq_none_iff.1 hnv, Or.inl (hq.read_congr (v := []) h)⟩
  · exact Or.inr ⟨hv.read_eq_none_iff.1 hnv, Or.inr
      ⟨hq.read_eq_none_iff.1 hnq, literalItem_append h (literalEnd_of_delimited ht)⟩⟩

namespace Token

/-- The token is an item of a list: so it is read when nothing follows. -/
def IsItem (tok : Token) : Prop := listItem.read tok.text = some (tok, [])

end Token

theorem listItem_read_append (h : tok.IsItem) (ht : Delimited t) :
    listItem.read (tok.text ++ t) = some (tok, t) := by
  apply listItem_congr (s := []) _ delimited_nil ht
  rw [List.append_nil]
  exact h

theorem isItem_of_listItem (h : listItem.read s = some (tok, rest)) (hr : Delimited rest) :
    tok.IsItem := by
  have hs := listItem_lossless h
  subst hs
  have := listItem_congr h hr delimited_nil
  rwa [List.append_nil] at this

/-- A character that an item can begin or end with. -/
def IsEdge (c : Char) : Prop := isBare c ∨ c = '"'

theorem IsEdge.not_isBlank (h : IsEdge c) : ¬ isBlank c := by
  rcases h with h | rfl
  · exact (narrow_isBare c h).1
  · decide

theorem IsEdge.ne_close (h : IsEdge c) : c ≠ ')' := by
  rcases h with h | rfl
  · exact (narrow_isBare c h).2
  · decide

theorem IsEdge.ne_open (h : IsEdge c) : c ≠ '(' := by
  rintro rfl
  rcases h with h | h <;> contradiction

theorem not_delimited_of_isEdge (h : IsEdge c) : ¬ Delimited (c :: s) := by
  intro hd
  rcases delimited_cons.1 hd with hb | hb
  · exact h.not_isBlank hb
  · exact h.ne_close hb

theorem literalPiece_edges (h : literalPiece.read s = some (x, rest)) :
    (∃ c y, x = c :: y ∧ IsEdge c) ∧ ∀ c ∈ x.getLast?, IsEdge c := by
  rcases literalPiece_read_eq_some.1 h with h | ⟨c, hc, rfl, -⟩
  · obtain ⟨q, s', -, hq, rfl⟩ := quotedString_read_eq_some.1 h
    refine ⟨⟨'"', q, rfl, Or.inr rfl⟩, ?_⟩
    intro c hc
    rw [List.getLast?_cons, getLast?_takeQuoted hq] at hc
    exact Or.inr (Option.some.inj hc).symm
  · refine ⟨⟨c, [], rfl, Or.inl hc⟩, ?_⟩
    intro d hd
    cases hd
    exact Or.inl hc

theorem getLast?_readAll_literalPiece (h : readAll literalPiece s = (x, rest)) :
    ∀ c ∈ x.getLast?, IsEdge c := by
  refine readAll_induction (P := fun x => ∀ c ∈ x.getLast?, IsEdge c) (by simp) ?_ h
  intro s y s' xs hy ih c hc
  rw [List.getLast?_append] at hc
  cases hlast : xs.getLast? with
  | none =>
    rw [hlast] at hc
    exact (literalPiece_edges hy).2 c hc
  | some d =>
    rw [hlast] at hc
    cases hc
    exact ih _ hlast

theorem literalItem_edges (h : literalItem.read s = some (tok, rest)) :
    (∃ c y, tok.text = c :: y ∧ IsEdge c) ∧ ∀ c ∈ tok.text.getLast?, IsEdge c := by
  obtain ⟨x, rfl, hx⟩ := literalItem_read_eq_some.1 h
  obtain ⟨y, z, s', hy, hz, rfl⟩ := plus_read_eq_some_append.1 hx
  obtain ⟨⟨c, w, hw, hc⟩, hlast⟩ := literalPiece_edges hy
  refine ⟨⟨c, w ++ z, by rw [Token.text, hw]; rfl, hc⟩, ?_⟩
  intro d hd
  rw [Token.text, List.getLast?_append] at hd
  cases hz' : z.getLast? with
  | none =>
    rw [hz'] at hd
    exact hlast d hd
  | some e =>
    rw [hz'] at hd
    cases hd
    exact getLast?_readAll_literalPiece hz _ hz'

theorem reference_edges (quoted : Bool) (name : Text) :
    (∃ c y, (Token.reference quoted name).text = c :: y ∧ IsEdge c) ∧
      ∀ c ∈ (Token.reference quoted name).text.getLast?, IsEdge c := by
  cases quoted with
  | false =>
    refine ⟨⟨'$', _, rfl, Or.inl rfl⟩, ?_⟩
    intro c hc
    rw [Token.text, Token.referenceText, List.getLast?_append] at hc
    cases hc
    exact Or.inl rfl
  | true =>
    refine ⟨⟨'"', _, rfl, Or.inr rfl⟩, ?_⟩
    intro c hc
    rw [Token.text, List.getLast?_append] at hc
    cases hc
    exact Or.inr rfl

theorem listItem_edges (h : listItem.read s = some (tok, rest)) :
    (∃ c y, tok.text = c :: y ∧ IsEdge c) ∧ ∀ c ∈ tok.text.getLast?, IsEdge c := by
  obtain ⟨-, h | ⟨-, h | ⟨-, h⟩⟩⟩ := listItem_read_eq_some.1 h
  · obtain ⟨-, name, rfl, -⟩ := variableForm_read h
    exact reference_edges false name
  · obtain ⟨-, name, rfl, -⟩ := variableForm_read h
    exact reference_edges true name
  · exact literalItem_edges h

theorem Token.IsItem.ne_nil (h : tok.IsItem) : tok.text ≠ [] := by
  obtain ⟨⟨c, y, hy, -⟩, -⟩ := listItem_edges h
  rw [hy]
  exact List.cons_ne_nil c y

/-- An item is no keyword. -/
theorem Token.IsItem.literal_or_reference (h : tok.IsItem) :
    (∃ x, tok = .literal x) ∨ ∃ quoted name, tok = .reference quoted name := by
  obtain ⟨-, h | ⟨-, h | ⟨-, h⟩⟩⟩ := listItem_read_eq_some.1 h
  · obtain ⟨-, name, rfl, -⟩ := variableForm_read h
    exact Or.inr ⟨false, name, rfl⟩
  · obtain ⟨-, name, rfl, -⟩ := variableForm_read h
    exact Or.inr ⟨true, name, rfl⟩
  · obtain ⟨x, rfl, -⟩ := literalItem_read_eq_some.1 h
    exact Or.inl ⟨x, rfl⟩

theorem not_word_reference (quoted : Bool) (name : Text) :
    ¬ ∀ c ∈ (Token.reference quoted name).text, isIdentifierChar c := by
  have hdollar : '$' ∈ (Token.reference quoted name).text := by
    cases quoted <;> simp [Token.text, Token.referenceText]
  intro h
  exact absurd (h _ hdollar) (by decide)

/-- An item that is written like a word is a literal. -/
theorem Token.IsItem.text_eq_iff (h : tok.IsItem) (hx : ∀ c ∈ x, isIdentifierChar c) :
    tok.text = x ↔ tok = .literal x := by
  rcases h.literal_or_reference with ⟨y, rfl⟩ | ⟨quoted, v, rfl⟩
  · simp [Token.text]
  · refine iff_of_false ?_ (by simp)
    rintro rfl
    exact not_word_reference quoted v hx

end SourceLists.Grammar
