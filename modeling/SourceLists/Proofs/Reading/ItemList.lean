import SourceLists.Proofs.Reading.Layout

/-! Lists of items: what is read is laid out, and what is laid out is read. -/

namespace SourceLists.Grammar
open Rule Argument

variable {s t x rest : Text} {c : Char} {tok : Token} {a : Argument} {args more : List Argument}

theorem variableName_read (h : variableName.read s = some (x, rest)) :
    ∀ c ∈ x, isIdentifierChar c := by
  rw [variableName, read_token, read_append_eq_some] at h
  obtain ⟨_, s', _, hfirst, hmore, rfl⟩ := h
  obtain ⟨c, hc, rfl, rfl⟩ := char_read_eq_some.1 hfirst
  cases hmore
  intro d hd
  rcases List.mem_cons.1 hd with rfl | hd
  · simp only [isIdentifierStart, Bool.or_eq_true] at hc
    rcases hc with hc | hc <;> simp [isIdentifierChar, Char.isAlphanum, hc]
  · exact List.all_eq_true.1 List.all_takeWhile d hd

theorem variableReference_read_eq_some :
    variableReference.read s = some (x, rest) ↔
      ∃ s', s = '$' :: '\x7b' :: s' ∧ variableName.read s' = some (x, '\x7d' :: rest) := by
  rw [variableReference, read_seqLeft_singleton_eq_some, read_seqRight_eq_some]
  constructor
  · rintro ⟨_, s', hopen, hn⟩
    obtain ⟨-, rfl⟩ := exactly_read_eq_some.1 hopen
    exact ⟨s', rfl, hn⟩
  · rintro ⟨s', rfl, hn⟩
    exact ⟨_, s', exactly_read_eq_some.2 ⟨rfl, rfl⟩, hn⟩

theorem takeQuoted_of_plain (hx : ∀ c ∈ x, c ≠ '\\' ∧ c ≠ '"') :
    takeQuoted (x ++ '"' :: rest) = some (x ++ ['"'], rest) := by
  induction x with
  | nil => simp [takeQuoted]
  | cons c x ih =>
    have hc := hx c List.mem_cons_self
    rw [List.cons_append, takeQuoted_cons hc.1 hc.2,
      ih fun d hd => hx d (List.mem_cons_of_mem c hd)]
    rfl

theorem quotedVariable_read (h : quotedVariable.read s = some (tok, rest)) :
    ∃ name, tok = .reference true name ∧ ∀ c ∈ name, isIdentifierChar c := by
  obtain ⟨-, name, rfl, hn⟩ := variableForm_read h
  rw [read_seqLeft_singleton_eq_some, read_seqRight_eq_some] at hn
  obtain ⟨_, _, -, hv⟩ := hn
  obtain ⟨s', -, hname⟩ := variableReference_read_eq_some.1 hv
  exact ⟨name, rfl, variableName_read hname⟩

theorem takeQuoted_reference (h : ∀ c ∈ x, isIdentifierChar c) :
    takeQuoted (Token.referenceText x ++ '"' :: rest) =
      some (Token.referenceText x ++ ['"'], rest) := by
  apply takeQuoted_of_plain
  intro c hc
  simp only [Token.referenceText, List.mem_append, List.mem_cons, List.not_mem_nil, or_false] at hc
  rcases hc with ((rfl | rfl) | hc) | rfl
  · decide
  · decide
  · have hid := h c hc
    exact ⟨by rintro rfl; exact absurd hid (by decide), by rintro rfl; exact absurd hid (by decide)⟩
  · decide

theorem identifier_of_reference {quoted : Bool} {name : Text}
    (h : (Token.reference quoted name).IsItem) : ∀ c ∈ name, isIdentifierChar c := by
  obtain ⟨-, hr | ⟨-, hr | ⟨-, hr⟩⟩⟩ := listItem_read_eq_some.1 h
  · obtain ⟨-, n, heq, hn⟩ := variableForm_read hr
    cases heq
    obtain ⟨s', -, hname⟩ := variableReference_read_eq_some.1 hn
    exact variableName_read hname
  · obtain ⟨n, heq, hname⟩ := quotedVariable_read hr
    cases heq
    exact hname
  · obtain ⟨x, heq, -⟩ := literalItem_read_eq_some.1 hr
    contradiction

/-- A literal could be read wherever an item is. -/
theorem not_literalEnd_of_listItem (h : listItem.read s = some (tok, rest)) : ¬ LiteralEnd s := by
  have hlit : ∀ {y r}, literalPiece.read s = some (y, r) → ¬ LiteralEnd s := by
    intro y r hy hend
    rw [show literalPiece.read s = none from hend] at hy
    contradiction
  have hs := listItem_lossless h
  obtain ⟨-, h | ⟨-, h | ⟨-, h⟩⟩⟩ := listItem_read_eq_some.1 h
  · obtain ⟨-, name, -, hn⟩ := variableForm_read h
    obtain ⟨s', rfl, -⟩ := variableReference_read_eq_some.1 hn
    exact hlit (literalPiece_read_eq_some.2 (Or.inr ⟨'$', rfl, rfl, rfl⟩))
  · obtain ⟨name, rfl, hname⟩ := quotedVariable_read h
    have hq : takeQuoted (Token.referenceText name ++ '"' :: rest) =
        some (Token.referenceText name ++ ['"'], rest) := takeQuoted_reference hname
    refine hlit (literalPiece_read_eq_some.2 (Or.inl (quotedString_read_eq_some.2
      ⟨_, _, ?_, hq, rfl⟩)))
    simp [← hs, Token.text]
  · obtain ⟨y, rfl, hy⟩ := literalItem_read_eq_some.1 h
    obtain ⟨z, -, s', hz, -⟩ := plus_read_eq_some_append.1 hy
    exact hlit hz

theorem not_literalEnd_of_keyword {name : RuleName} {words : List String} (hw : PlainWords words)
    (h : (keyword name words).read s = some (tok, rest)) : ¬ LiteralEnd s := by
  obtain ⟨w, hmem, -, rfl, -⟩ := keyword_read h
  obtain ⟨c, w, rfl⟩ := List.exists_cons_of_ne_nil (hw w hmem).1
  exact fun hend => not_isBare_of_literalEnd hend
    (isBare_of_isIdentifierChar ((hw _ hmem).2 c List.mem_cons_self))

/-- A rule that reads one item with its gap, perhaps only in some places. -/
def ReadsItem (r : Rule (List Argument)) : Prop :=
  ∀ ⦃s x rest⦄, r.read s = some (x, rest) → (argument listItem).read s = some (x, rest)

namespace ReadsItem
variable {r : Rule (List Argument)}

theorem lossless (hr : ReadsItem r) : LosslessList Argument.text r :=
  fun _ _ _ h => argument_lossless listItem_lossless (hr h)

theorem consumes (hr : ReadsItem r) : Consumes r := by
  intro s x rest h
  obtain ⟨tok, g, s', htok, -, rfl⟩ := argument_read_eq_some.1 (hr h)
  obtain ⟨⟨c, y, hy, -⟩, -⟩ := listItem_edges htok
  have hs := hr.lossless h
  rw [← hs]
  simp only [List.flatMap_cons, List.flatMap_nil, List.append_nil, Argument.text, hy,
    List.length_append, List.length_cons]
  omega

/-- The items that are read stand in their layout, if a delimiter or something else than a literal
follows them. -/
theorem laid_of_readAll (hr : ReadsItem r) (h : readAll r s = (args, rest)) (hne : rest ≠ [])
    (hend : LiteralEnd rest → Delimited rest) :
    Laid rest args ∧ ∀ a ∈ args, a.token.IsItem := by
  fun_induction readAll r s generalizing args rest with
  | case1 s hs =>
    cases h
    exact ⟨trivial, fun a ha => by contradiction⟩
  | case2 s y s₁ hy hlt xs s₂ hxs ih =>
    cases h
    obtain ⟨hlaid, hitems⟩ := ih hxs hne hend
    obtain ⟨tok, g, s₃, htok, hg, rfl⟩ := argument_read_eq_some.1 (hr hy)
    have hs₁ : texts xs ++ s₂ = s₁ := hr.lossless.star (by simp [Rule.star, hxs])
    have hne₁ : s₁ ≠ [] := by
      rw [← hs₁]
      simp [hne]
    -- Whatever is read next shows that the gap is not empty.
    have hend₁ : g = [] → Delimited s₁ := by
      intro hnil
      have hs₃ : g ++ s₁ = s₃ := gap_lossless hg
      rw [hnil, List.nil_append] at hs₃
      have hlit := literalEnd_of_listItem htok
      rw [← hs₃] at hlit
      rw [readAll_eq hr.consumes] at hxs
      cases hr₁ : r.read s₁ with
      | none =>
        rw [hr₁] at hxs
        cases hxs
        exact hend hlit
      | some b =>
        obtain ⟨tok', g', s₄, htok', -⟩ := argument_read_eq_some.1 (hr hr₁)
        exact absurd hlit (not_literalEnd_of_listItem htok')
    have hd := delimited_of_gap (literalEnd_of_listItem htok) hg hend₁
    obtain ⟨hgap, hsettled⟩ := isGap_of_gap_read hg hne₁
    have hs₃ : g ++ s₁ = s₃ := gap_lossless hg
    refine ⟨⟨hgap, ?_, ?_, hlaid⟩, ?_⟩
    · change Delimited (g ++ (texts xs ++ s₂))
      rwa [hs₁, hs₃]
    · change Settled (texts xs ++ s₂)
      rwa [hs₁]
    intro a ha
    rcases List.mem_cons.1 ha with rfl | ha
    · exact isItem_of_listItem htok hd
    · exact hitems a ha
  | case3 s y s₁ hy hlt => exact absurd (hr.consumes hy) hlt

theorem plus_read_eq_some (hr : ReadsItem r) :
    (plus r).read s = some (args, rest) ↔ args ≠ [] ∧ readAll r s = (args, rest) :=
  Rule.plus_read_eq_some hr.lossless hr.consumes

end ReadsItem

theorem readsItem_argument : ReadsItem (argument listItem) := fun _ _ _ h => h

theorem readsItem_absent {r : Rule Token} {t : Rule (List Argument)} (ht : ReadsItem t) :
    ReadsItem (absent r *> t) := fun _ _ _ h => ht (absent_seqRight_read_eq_some.1 h).2

/-- Arguments that are read one by one are read all. -/
theorem readAll_texts {r : Rule (List Argument)} (hc : Consumes r)
    (h : ∀ xs a ys, args = xs ++ a :: ys →
      r.read (a.token.text ++ (a.gap ++ (texts ys ++ rest))) = some ([a], texts ys ++ rest))
    (hend : r.read rest = none) : readAll r (texts args ++ rest) = (args, rest) := by
  induction args with
  | nil => rw [texts_nil, List.nil_append, readAll_eq hc, hend]
  | cons a args ih =>
    rw [texts_cons, List.append_assoc, List.append_assoc, readAll_eq hc, h [] a args rfl]
    dsimp only
    rw [ih fun xs b ys hb => h (a :: xs) b ys (by rw [hb]; rfl)]
    rfl

theorem Argument.Laid.read_item (hlaid : Laid rest (a :: args)) (ha : a.token.IsItem) :
    (argument listItem).read (a.token.text ++ (a.gap ++ (texts args ++ rest))) =
      some ([a], texts args ++ rest) :=
  argument_read_append (listItem_read_append ha hlaid.2.1) hlaid.1 hlaid.2.2.1

theorem Argument.Laid.of_append (h : Laid rest (args ++ more)) : Laid rest more :=
  (laid_append.1 h).2

/-- One or more items. -/
def Items (toks : List Token) : Prop := toks ≠ [] ∧ ∀ tok ∈ toks, tok.IsItem

theorem listContent_read_of_laid (hlaid : Laid rest args) (hi : Items (args.map Argument.token))
    (hend : listItem.read rest = none) :
    listContent.read (texts args ++ rest) = some (args, rest) := by
  refine readsItem_argument.plus_read_eq_some.2 ⟨?_, ?_⟩
  · rintro rfl
    exact hi.1 rfl
  · refine readAll_texts readsItem_argument.consumes ?_ (argument_read_eq_none.2 hend)
    rintro xs a ys rfl
    exact hlaid.of_append.read_item (hi.2 a.token (by simp))

theorem laid_of_listContent (h : listContent.read s = some (args, rest)) (hne : rest ≠ [])
    (hend : LiteralEnd rest → Delimited rest) :
    Laid rest args ∧ Items (args.map Argument.token) := by
  obtain ⟨hargs, hall⟩ := readsItem_argument.plus_read_eq_some.1 h
  obtain ⟨hlaid, hitems⟩ := readsItem_argument.laid_of_readAll hall hne hend
  refine ⟨hlaid, by simpa using hargs, ?_⟩
  intro tok htok
  obtain ⟨a, ha, rfl⟩ := List.mem_map.1 htok
  exact hitems a ha

theorem delimited_close : Delimited (')' :: s) := delimited_cons.2 (Or.inr rfl)

theorem settled_close : Settled (')' :: s) := settled_cons.2 (by decide)

theorem listItem_close : listItem.read (')' :: s) = none := by
  rw [Option.eq_none_iff_forall_not_mem]
  rintro ⟨tok, rest⟩ h
  exact not_literalEnd_of_listItem h (literalEnd_of_delimited delimited_close)

end SourceLists.Grammar
