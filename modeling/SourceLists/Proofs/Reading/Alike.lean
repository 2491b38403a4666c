import SourceLists.Proofs.Reading.Growth

/-! A statement whose items stand in groups is read up to a place as it is written up to there,
whatever follows. -/

namespace SourceLists.Grammar
open Rule Argument

variable {s u v t t' g g' rest r : Text} {tok tok' : Token} {toks : List Token} {b c : Argument}
  {front tail args : List Argument} {i j : Invocation} {start : Nat}

/-- What stands in a list with groups: an item, or the word that opens a group. -/
def Token.IsGrouped (tok : Token) : Prop :=
  tok.IsItem ∨ ∃ w ∈ ["PRIVATE", "PUBLIC", "INTERFACE"].map String.toList, tok = .keyword w

namespace Token.IsGrouped

theorem sound (h : tok.IsGrouped) : tok.Sound := by
  rcases h with hi | ⟨w, hw, rfl⟩
  · exact Or.inl hi
  · exact sound_keyword plainWords_scopeKeyword hw

/-- One rule reads every token of such a list. -/
theorem read_append (h : tok.IsGrouped) (ht : Delimited t) :
    (scopeKeyword <|> listItem).read (tok.text ++ t) = some (tok, t) := by
  rw [read_orElse]
  rcases h with hi | ⟨w, hw, rfl⟩
  · have hread := listItem_read_append hi ht
    rw [(listItem_read_eq_some.1 hread).1, hread]
    rfl
  · have hread : scopeKeyword.read (w ++ t) = some (.keyword w, t) :=
      keyword_read_append plainWords_scopeKeyword prefixFree_scopeKeyword hw ht
    rw [show (Token.keyword w).text = w from rfl, hread]
    rfl

theorem unique (h : tok.IsGrouped) (h' : tok'.IsGrouped) (ht : Delimited t) (ht' : Delimited t')
    (heq : tok.text ++ t = tok'.text ++ t') : tok = tok' ∧ t = t' := by
  have hread := h.read_append ht
  rw [heq, h'.read_append ht'] at hread
  obtain ⟨htok, hrest⟩ := Prod.mk.inj (Option.some.inj hread)
  exact ⟨htok.symm, hrest.symm⟩

end Token.IsGrouped

end SourceLists.Grammar
