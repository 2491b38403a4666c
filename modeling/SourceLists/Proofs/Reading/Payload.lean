import SourceLists.Proofs.Reading.ItemList

/-! Texts that are items wherever they stand. -/

namespace SourceLists.Grammar
open Rule

variable {x rest : Text}

theorem readAll_literalPiece_bare (hx : ∀ c ∈ x, isBare c) : readAll literalPiece x = (x, []) := by
  induction x with
  | nil =>
    exact readAll_of_read_eq_none literalPiece_consumes (literalEnd_of_delimited delimited_nil)
  | cons c x ih =>
    have hc : literalPiece.read (c :: x) = some ([c], x) :=
      literalPiece_read_eq_some.2 (Or.inr ⟨c, hx c List.mem_cons_self, rfl, rfl⟩)
    exact readAll_of_read literalPiece_consumes hc (ih fun d hd => hx d (List.mem_cons_of_mem c hd))

theorem literalItem_read_bare (hne : x ≠ []) (hx : ∀ c ∈ x, isBare c) :
    literalItem.read x = some (.literal x, []) := by
  obtain ⟨c, x, rfl⟩ := List.exists_cons_of_ne_nil hne
  have hc : literalPiece.read (c :: x) = some ([c], x) :=
    literalPiece_read_eq_some.2 (Or.inr ⟨c, hx c List.mem_cons_self, rfl, rfl⟩)
  exact literalItem_read_eq_some.2 ⟨c :: x, rfl, plus_read_eq_some_append.2
    ⟨[c], x, x, hc, readAll_literalPiece_bare fun d hd => hx d (List.mem_cons_of_mem c hd), rfl⟩⟩

theorem eq_nil_of_delimited (hrest : ∀ c ∈ rest, isBare c) (h : Delimited rest) : rest = [] := by
  cases rest with
  | nil => rfl
  | cons c rest =>
    have hc := narrow_isBare c (hrest c List.mem_cons_self)
    rcases delimited_cons.1 h with hb | hb
    · exact absurd hb hc.1
    · exact absurd hb hc.2

/-- Bare characters that are no scope and no reference are an item. -/
theorem isItem_of_bare (hne : x ≠ []) (hx : ∀ c ∈ x, isBare c) (hbrace : '\x7d' ∉ x.getLast?)
    (hscope : x ∉ ["PRIVATE", "PUBLIC", "INTERFACE"].map String.toList) :
    (Token.literal x).IsItem := by
  have hquote : '"' ∉ x := fun h => absurd (hx _ h) (by decide)
  refine listItem_read_eq_some.2 ⟨?_, Or.inr ⟨?_, Or.inr ⟨?_, literalItem_read_bare hne hx⟩⟩⟩
  · rw [Option.eq_none_iff_forall_ne_some]
    rintro ⟨tok, r⟩ h
    obtain ⟨w, hw, -, heq, hr⟩ := keyword_read h
    rw [Token.text] at heq
    obtain rfl := eq_nil_of_delimited (fun c hc => hx c (heq ▸ List.mem_append_right w hc)) hr
    rw [List.append_nil] at heq
    exact hscope (heq ▸ hw)
  · rw [Option.eq_none_iff_forall_ne_some]
    rintro ⟨tok, r⟩ h
    obtain ⟨hd, name, -, hr⟩ := variableForm_read h
    have hs := variableReference_lossless hr
    rw [Token.text, Token.referenceText] at hs
    obtain rfl := eq_nil_of_delimited (fun c hc => hx c (hs ▸ List.mem_append_right _ hc)) hd
    rw [List.append_nil] at hs
    exact hbrace (by rw [← hs, List.getLast?_concat]; rfl)
  · rw [Option.eq_none_iff_forall_ne_some]
    rintro ⟨tok, r⟩ h
    have hs := quotedVariable_lossless h
    obtain ⟨name, rfl, -⟩ := quotedVariable_read h
    rw [Token.text, Token.text] at hs
    exact hquote (by simp [← hs])

theorem isBare_of_readAll {s : Text} (h : readAll literalPiece s = (x, rest)) (hquote : '"' ∉ x) :
    ∀ c ∈ x, isBare c := by
  refine readAll_induction (P := fun x => '"' ∉ x → ∀ c ∈ x, isBare c) (by simp) ?_ h hquote
  intro s y s' xs hy ih hquote
  rw [List.mem_append, not_or] at hquote
  refine List.forall_mem_append.2 ⟨?_, ih hquote.2⟩
  rcases literalPiece_read_eq_some.1 hy with hy | ⟨d, hd, rfl, -⟩
  · obtain ⟨q, s', -, -, rfl⟩ := quotedString_read_eq_some.1 hy
    exact absurd List.mem_cons_self hquote.1
  · exact List.forall_mem_singleton.2 hd

/-- An item without quotes is made of bare characters. -/
theorem isBare_of_isItem (h : (Token.literal x).IsItem) (hquote : '"' ∉ x) : ∀ c ∈ x, isBare c :=
  isBare_of_readAll (readAll_of_isItem h) hquote

theorem isItem_parentScope : (Token.literal "PARENT_SCOPE".toList).IsItem := by
  apply isItem_of_bare
  · decide
  · decide
  · decide
  · decide

/-- A text that is an item, and neither opens a comment nor is the flag behind a list. -/
structure Entry (x : Text) : Prop where
  item : (Token.literal x).IsItem
  settled : Settled x
  ne_parentScope : x ≠ "PARENT_SCOPE".toList

/-- An item of characters that mean nothing. -/
structure Payload (x : Text) : Prop extends Entry x where
  bare : ∀ c ∈ x, isBare c

end SourceLists.Grammar
