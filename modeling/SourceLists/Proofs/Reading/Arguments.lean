import SourceLists.Proofs.Reading.ItemList

/-! The arguments of each kind of statement: they are read exactly if they stand in their layout and
their tokens make sense in their order. -/

namespace SourceLists.Grammar
open Rule Argument

variable {s rest : Text} {a : Argument} {args : List Argument} {words : List String}
  {A B : List Token → Prop} {toks : List Token}

/-- The sources of a target do not begin with a word that makes it a target without any. -/
def TargetItems (toks : List Token) : Prop :=
  Items toks ∧ ∀ tok ∈ toks.head?, tok.text ∉ ["IMPORTED", "ALIAS"].map String.toList

/-- A flag goes before what `A` allows. Where none stands it is up to `B`. -/
def Flagged (words : List String) (A B : List Token → Prop) (toks : List Token) : Prop :=
  (∃ w ∈ words.map String.toList, ∃ more, toks = .keyword w :: more ∧ A more) ∨
    ((∀ tok ∈ toks.head?, tok.text ∉ words.map String.toList) ∧ B toks)

/-- Values, of which the last is not the flag that may stand behind them. -/
def VariableItems (toks : List Token) : Prop :=
  (Items toks ∧ toks.getLast? ≠ some (.literal "PARENT_SCOPE".toList)) ∨
    ∃ items, Items items ∧ toks = items ++ [.keyword "PARENT_SCOPE".toList]

/-- Groups of items, each behind its scope. -/
inductive Scoped : List Token → Prop
  | last {w : Text} {items : List Token}
      (hw : w ∈ ["PRIVATE", "PUBLIC", "INTERFACE"].map String.toList) (hi : Items items) :
      Scoped (.keyword w :: items)
  | cons {w : Text} {items more : List Token}
      (hw : w ∈ ["PRIVATE", "PUBLIC", "INTERFACE"].map String.toList) (hi : Items items)
      (h : Scoped more) : Scoped (.keyword w :: (items ++ more))

/-- A flag may go before what `A` allows. -/
def MaybeFlagged (words : List String) (A : List Token → Prop) : List Token → Prop :=
  Flagged words A A

/-- What a statement of each kind can have as its arguments. -/
def Accepts : Option Kind → List Token → Prop
  | none => fun toks => ∀ tok ∈ toks, tok.IsItem
  | some .set => VariableItems
  | some .addLibrary =>
    Flagged ["OBJECT"] TargetItems
      (MaybeFlagged ["STATIC", "SHARED", "MODULE"] (MaybeFlagged ["EXCLUDE_FROM_ALL"] TargetItems))
  | some .addExecutable =>
    MaybeFlagged ["WIN32"]
      (MaybeFlagged ["MACOSX_BUNDLE"] (MaybeFlagged ["EXCLUDE_FROM_ALL"] TargetItems))
  | some .targetSources => Scoped

/-- The rule for the arguments of a kind of statement. -/
def argumentRule : Option Kind → Rule (List Argument)
  | none => optionally listContent
  | some .set => variableListContent ++ optionally (argument parentScope)
  | some .addLibrary =>
    (argument objectType <|>
      optionally (argument libraryType) ++ optionally (argument excludeFromAll)) ++ targetList
  | some .addExecutable =>
    optionally (argument win32) ++ optionally (argument macosxBundle)
      ++ optionally (argument excludeFromAll) ++ targetList
  | some .targetSources => plus scopedList

/-- In front of a closing parenthesis the rule reads the arguments that `A` allows. -/
def Reads (r : Rule (List Argument)) (A : List Token → Prop) : Prop :=
  ∀ args rest, r.read (texts args ++ ')' :: rest) = some (args, ')' :: rest) ↔
    Laid (')' :: rest) args ∧ A (args.map Argument.token)

/-- The first token can be told from a flag. -/
def WholeHead (A : List Token → Prop) : Prop :=
  ∀ toks, A toks → ∀ tok ∈ toks.head?, IsWhole tok.text

theorem wholeHead_items : WholeHead Items := by
  intro toks h tok htok
  exact isWhole_of_isItem (h.2 tok (List.mem_of_mem_head? htok))

theorem wholeHead_targetItems : WholeHead TargetItems :=
  fun toks h => wholeHead_items toks h.1

theorem wholeHead_flagged (hw : PlainWords words) (hB : WholeHead B) :
    WholeHead (Flagged words A B) := by
  rintro toks (⟨w, hmem, more, rfl, -⟩ | ⟨-, h⟩) tok htok
  · cases htok
    exact isWhole_of_identifier (hw w hmem).2
  · exact hB toks h tok htok

theorem keyword_close {name : RuleName} (hw : PlainWords words) :
    (keyword name words).read (')' :: s) = none := by
  rw [Option.eq_none_iff_forall_not_mem]
  rintro ⟨tok, rest⟩ h
  exact not_literalEnd_of_keyword hw h (literalEnd_of_delimited delimited_close)

/-- An argument in its layout is read as a keyword if it is one. -/
theorem Argument.Laid.read_keyword (name : RuleName) (hlaid : Laid rest (a :: args))
    (hw : PlainWords words) (hp : PrefixFree words)
    (ha : a.token.text ∈ words.map String.toList) :
    (argument (keyword name words)).read (a.token.text ++ (a.gap ++ (texts args ++ rest))) =
      some ([⟨.keyword a.token.text, a.gap⟩], texts args ++ rest) :=
  argument_read_append (a := ⟨.keyword a.token.text, a.gap⟩)
    (keyword_read_append hw hp ha hlaid.2.1) hlaid.1 hlaid.2.2.1

/-- Arguments in their layout whose first is no keyword of the list are not read as one. -/
theorem Argument.Laid.read_keyword_eq_none {name : RuleName} (hlaid : Laid (')' :: rest) args)
    (hw : PlainWords words) (hhead : ∀ tok ∈ (args.map Argument.token).head?, IsWhole tok.text)
    (ha : ∀ tok ∈ (args.map Argument.token).head?, tok.text ∉ words.map String.toList) :
    (argument (keyword name words)).read (texts args ++ ')' :: rest) = none := by
  rw [argument_read_eq_none]
  cases args with
  | nil => exact keyword_close hw
  | cons a args =>
    rw [texts_cons, List.append_assoc, List.append_assoc]
    exact keyword_read_eq_none hw (ha a.token rfl) (hhead a.token rfl) hlaid.2.1

/-- The layout of a keyword that was read. -/
theorem laid_of_keyword {name : RuleName} {x : List Argument}
    (h : (argument (keyword name words)).read s = some (x, texts args ++ rest))
    (hne : texts args ++ rest ≠ []) (hlaid : Laid rest args) :
    ∃ w ∈ words.map String.toList, ∃ g, x = [⟨.keyword w, g⟩] ∧
      s = w ++ (g ++ (texts args ++ rest)) ∧ Laid rest (⟨.keyword w, g⟩ :: args) := by
  obtain ⟨tok, g, s', htok, hg, rfl⟩ := argument_read_eq_some.1 h
  obtain ⟨w, hmem, rfl, rfl, hd⟩ := keyword_read htok
  obtain ⟨hgap, hsettled⟩ := isGap_of_gap_read hg hne
  have hs : g ++ (texts args ++ rest) = s' := gap_lossless hg
  exact ⟨w, hmem, g, rfl, by rw [hs], hgap, by rw [hs]; exact hd, hsettled, hlaid⟩

theorem reads_listContent : Reads listContent Items := by
  intro args rest
  constructor
  · intro h
    exact laid_of_listContent h (List.cons_ne_nil _ _) fun _ => delimited_close
  · rintro ⟨hlaid, hi⟩
    exact listContent_read_of_laid hlaid hi listItem_close

theorem listContent_close : listContent.read (')' :: rest) = none := by
  change (plus (argument listItem)).read (')' :: rest) = none
  rw [plus, read_append, argument_read_eq_none.2 listItem_close]
  rfl

theorem reads_optionally_listContent :
    Reads (optionally listContent) (fun toks => ∀ tok ∈ toks, tok.IsItem) := by
  intro args rest
  cases args with
  | nil =>
    rw [texts_nil, List.nil_append, optionally, read_orElse, listContent_close]
    simp [Laid]
  | cons a args =>
    have hi : Items ((a :: args).map Argument.token) ↔
        ∀ tok ∈ (a :: args).map Argument.token, tok.IsItem := by
      simp [Items]
    change _ ↔ Laid (')' :: rest) (a :: args) ∧
      ∀ tok ∈ (a :: args).map Argument.token, tok.IsItem
    rw [← hi, ← reads_listContent, optionally, read_orElse, Option.or_eq_some_iff]
    constructor
    · rintro (h | ⟨-, h⟩)
      · exact h
      · cases h
    · exact Or.inl

/-- A choice by a flag. -/
theorem reads_flagged (name : RuleName) {r r₁ r₂ : Rule (List Argument)} (hw : PlainWords words)
    (hp : PrefixFree words)
    (hr : ∀ s, r.read s = ((argument (keyword name words)).read s).elim (r₂.read s)
      fun (x, s') => (r₁.read s').map fun (y, rest) => (x ++ y, rest))
    (h₁ : Reads r₁ A) (hl : LosslessList Argument.text r₁) (h₂ : Reads r₂ B) (hB : WholeHead B) :
    Reads r (Flagged words A B) := by
  intro args rest
  rw [hr]
  constructor
  · intro h
    cases hk : (argument (keyword name words)).read (texts args ++ ')' :: rest) with
    | none =>
      rw [hk] at h
      obtain ⟨hlaid, hb⟩ := (h₂ args rest).1 h
      refine ⟨hlaid, Or.inr ⟨?_, hb⟩⟩
      cases args with
      | nil => intro tok htok; contradiction
      | cons a args =>
        intro tok htok ha
        cases htok
        rw [texts_cons, List.append_assoc, List.append_assoc,
          hlaid.read_keyword name hw hp ha] at hk
        contradiction
    | some b =>
      obtain ⟨x, s'⟩ := b
      rw [hk] at h
      obtain ⟨⟨y, _⟩, hy, heq⟩ := Option.map_eq_some_iff.1 h
      cases heq
      have hs' : texts y ++ ')' :: rest = s' := hl hy
      subst hs'
      obtain ⟨hlaid, ha⟩ := (h₁ y rest).1 hy
      obtain ⟨w, hmem, g, rfl, -, hlaid'⟩ := laid_of_keyword hk (by simp) hlaid
      exact ⟨hlaid', Or.inl ⟨w, hmem, y.map Argument.token, rfl, ha⟩⟩
  · rintro ⟨hlaid, ⟨w, hmem, more, heq, ha⟩ | ⟨hhead, hb⟩⟩
    · obtain ⟨a, args, rfl, hat, rfl⟩ := List.map_eq_cons_iff.1 heq
      have htext : a.token.text = w := by rw [hat]; rfl
      have hk := hlaid.read_keyword name hw hp (by rw [htext]; exact hmem)
      rw [texts_cons, List.append_assoc, List.append_assoc, hk]
      simp [(h₁ args rest).2 ⟨hlaid.2.2.2, ha⟩, htext, ← hat]
    · rw [hlaid.read_keyword_eq_none hw (hB _ hb) hhead]
      exact (h₂ args rest).2 ⟨hlaid, hb⟩

theorem plainWords_importedOrAlias : PlainWords ["IMPORTED", "ALIAS"] := by decide

theorem prefixFree_importedOrAlias : PrefixFree ["IMPORTED", "ALIAS"] := by decide

theorem reads_targetList : Reads targetList TargetItems := by
  intro args rest
  rw [targetList, absent_seqRight_read_eq_some, reads_listContent, TargetItems]
  constructor
  · rintro ⟨hk, hlaid, hi⟩
    refine ⟨hlaid, hi, ?_⟩
    intro tok htok hmem
    cases args with
    | nil => contradiction
    | cons a args =>
      cases htok
      have hsome := hlaid.read_keyword .importedOrAlias plainWords_importedOrAlias
        prefixFree_importedOrAlias hmem
      rw [← argument_read_eq_none, texts_cons, List.append_assoc, List.append_assoc,
        importedOrAlias, hsome] at hk
      contradiction
  · rintro ⟨hlaid, hi, hhead⟩
    refine ⟨argument_read_eq_none.1 ?_, hlaid, hi⟩
    exact hlaid.read_keyword_eq_none plainWords_importedOrAlias (wholeHead_items _ hi) hhead

theorem plainWords_parentScope : PlainWords ["PARENT_SCOPE"] := by decide

theorem prefixFree_parentScope : PrefixFree ["PARENT_SCOPE"] := by decide

/-- The word that ends the values of a variable, in front of the closing parenthesis. -/
def parentScopeEnd : Rule Token := parentScope <* gap <* exactly [')']

def variableItem : Rule (List Argument) := absent parentScopeEnd *> argument listItem

theorem readsItem_variableItem : ReadsItem variableItem := readsItem_absent readsItem_argument

theorem variableListContent_read_eq_some :
    variableListContent.read s = some (args, rest) ↔
      args ≠ [] ∧ readAll variableItem s = (args, rest) :=
  readsItem_variableItem.plus_read_eq_some

theorem parentScopeEnd_read_eq_none (h : parentScope.read s = none) :
    parentScopeEnd.read s = none := by
  rw [parentScopeEnd, read_seqLeft, read_seqLeft, h]
  rfl

theorem close_read_eq_none : (exactly [')']).read s = none ↔ s.head? ≠ some ')' := by
  rw [Option.eq_none_iff_forall_not_mem]
  constructor
  · intro hnone hhead
    obtain ⟨rest, rfl⟩ := List.head?_eq_some_iff.1 hhead
    exact hnone ([')'], rest) (exactly_read_eq_some.2 ⟨rfl, rfl⟩)
  · rintro hhead ⟨x, rest⟩ hx
    obtain ⟨-, rfl⟩ := exactly_read_eq_some.1 hx
    exact hhead rfl

theorem parentScopeEnd_read_append {g t : Text} (hg : IsGap g) (hs : Settled t)
    (hd : Delimited (g ++ t)) :
    parentScopeEnd.read ("PARENT_SCOPE".toList ++ (g ++ t)) = none ↔ t.head? ≠ some ')' := by
  have hk : parentScope.read ("PARENT_SCOPE".toList ++ (g ++ t)) =
      some (.keyword "PARENT_SCOPE".toList, g ++ t) :=
    keyword_read_append plainWords_parentScope prefixFree_parentScope (by simp) hd
  have hgap := gap_read_append hg hs
  rw [parentScopeEnd, read_seqLeft, read_seqLeft, hk]
  dsimp only [Option.bind_some]
  rw [hgap]
  exact Option.map_eq_none_iff.trans close_read_eq_none

theorem parentScopeEnd_read_eq_none_of_isItem {g t : Text} {tok : Token} (ht : tok.IsItem)
    (hg : IsGap g) (hs : Settled t) (hd : Delimited (g ++ t)) :
    parentScopeEnd.read (tok.text ++ (g ++ t)) = none ↔
      (tok = .literal "PARENT_SCOPE".toList → t.head? ≠ some ')') := by
  have htok : tok.text = "PARENT_SCOPE".toList ↔ tok = .literal "PARENT_SCOPE".toList :=
    ht.text_eq_iff (by decide)
  by_cases hword : tok.text = "PARENT_SCOPE".toList
  · rw [hword, parentScopeEnd_read_append hg hs hd]
    simp [htok.1 hword]
  · have hk : parentScope.read (tok.text ++ (g ++ t)) = none :=
      keyword_read_eq_none plainWords_parentScope (by simpa using hword) (isWhole_of_isItem ht) hd
    exact iff_of_true (parentScopeEnd_read_eq_none hk) fun h => absurd (htok.2 h) hword

theorem head?_texts_ne_close (ha : a.token.IsItem) : (texts (a :: args) ++ s).head? ≠ some ')' := by
  obtain ⟨⟨c, y, hy, hc⟩, -⟩ := listItem_edges ha
  rw [texts_cons, hy]
  simpa using hc.ne_close

/-- The values of a variable are read up to what is none, if the last of them is not the word that
only a closing parenthesis makes a flag. -/
theorem readAll_variableItem (hlaid : Laid rest args) (hi : ∀ a ∈ args, a.token.IsItem)
    (hlast : ∀ a ∈ args.getLast?, a.token = .literal "PARENT_SCOPE".toList → rest.head? ≠ some ')')
    (hend : variableItem.read rest = none) :
    readAll variableItem (texts args ++ rest) = (args, rest) := by
  apply readAll_texts readsItem_variableItem.consumes _ hend
  rintro xs a ys rfl
  have ha := hi a (by simp)
  have hlaid' := hlaid.of_append
  refine absent_seqRight_read_eq_some.2 ⟨?_, hlaid'.read_item ha⟩
  rw [parentScopeEnd_read_eq_none_of_isItem ha hlaid'.1 hlaid'.2.2.1 hlaid'.2.1]
  intro hword
  cases ys with
  | nil => exact hlast a (by simp) hword
  | cons b ys => exact head?_texts_ne_close (hi b (by simp))

/-- The reading of some arguments ends with the reading of the last of them. -/
theorem readAll_append_right {r : Rule (List Argument)} (hr : ReadsItem r)
    {xs ys : List Argument} (h : readAll r s = (xs ++ ys, rest)) :
    readAll r (texts ys ++ rest) = (ys, rest) := by
  induction xs generalizing s with
  | nil =>
    have hs : texts ys ++ rest = s := hr.lossless.star (by simpa [Rule.star] using h)
    rw [hs]
    exact h
  | cons a xs ih =>
    rw [readAll_eq hr.consumes] at h
    cases hs : r.read s with
    | none => rw [hs] at h; cases h
    | some b =>
      obtain ⟨x, s₁⟩ := b
      obtain ⟨tok, g, s', -, -, rfl⟩ := argument_read_eq_some.1 (hr hs)
      rw [hs] at h
      obtain ⟨hx, hrest⟩ := Prod.mk.inj h
      exact ih (s := s₁) (Prod.ext (List.cons.inj hx).2 hrest)

theorem variableItem_close : variableItem.read (')' :: s) = none := by
  rw [Option.eq_none_iff_forall_ne_some]
  rintro ⟨x, rest⟩ h
  have hnone := argument_read_eq_none.2 (listItem_close (s := s))
  rw [(absent_seqRight_read_eq_some.1 h).2] at hnone
  contradiction

theorem variableItem_parentScope {g : Text} (hg : IsGap g) (hd : Delimited (g ++ ')' :: s)) :
    variableItem.read ("PARENT_SCOPE".toList ++ (g ++ ')' :: s)) = none := by
  rw [Option.eq_none_iff_forall_ne_some]
  rintro ⟨x, rest⟩ h
  have hnone := (absent_seqRight_read_eq_some.1 h).1
  exact (parentScopeEnd_read_append hg settled_close hd).1 hnone rfl

theorem optionally_parentScope_close :
    (optionally (argument parentScope)).read (')' :: s) = some ([], ')' :: s) := by
  have hnone : (argument parentScope).read (')' :: s) = none :=
    argument_read_eq_none.2 (keyword_close plainWords_parentScope)
  rw [optionally, read_orElse, hnone]
  rfl

/-- In front of a closing parenthesis the flag is not the last of the values. -/
theorem ne_parentScope_of_readAll (hall : readAll variableItem s = (args, ')' :: rest))
    (hlaid : Laid (')' :: rest) args) (hitems : ∀ a ∈ args, a.token.IsItem) :
    ∀ a ∈ args.getLast?, a.token ≠ .literal "PARENT_SCOPE".toList := by
  intro a ha hword
  obtain ⟨zs, rfl⟩ := List.getLast?_eq_some_iff.1 ha
  have hone := readAll_append_right readsItem_variableItem hall
  rw [readAll_eq readsItem_variableItem.consumes] at hone
  cases hread : variableItem.read (texts [a] ++ ')' :: rest) with
  | none =>
    rw [hread] at hone
    cases hone
  | some b =>
    have hnone := (absent_seqRight_read_eq_some.1 hread).1
    have hlaid' := hlaid.of_append
    rw [texts_cons, List.append_assoc, List.append_assoc] at hnone
    exact (parentScopeEnd_read_eq_none_of_isItem (hitems a (by simp)) hlaid'.1 hlaid'.2.2.1
      hlaid'.2.1).1 hnone hword rfl

theorem variableItems_of_read (h : (argumentRule (some .set)).read s = some (args, ')' :: rest)) :
    Laid (')' :: rest) args ∧ VariableItems (args.map Argument.token) := by
  obtain ⟨xs, s₁, ys, hlist, hys, rfl⟩ := read_append_eq_some.1 h
  obtain ⟨hxs, hall⟩ := variableListContent_read_eq_some.1 hlist
  rw [optionally, read_orElse, Option.or_eq_some_iff] at hys
  rcases hys with hys | ⟨-, hys⟩
  · -- The flag stands behind the values.
    have hne : s₁ ≠ [] := by
      rintro rfl
      obtain ⟨tok, g, s', htok, -⟩ := argument_read_eq_some.1 hys
      exact not_literalEnd_of_keyword plainWords_parentScope htok
        (literalEnd_of_delimited delimited_nil)
    have hend : LiteralEnd s₁ → Delimited s₁ := by
      obtain ⟨tok, g, s', htok, -⟩ := argument_read_eq_some.1 hys
      exact fun h => absurd h (not_literalEnd_of_keyword plainWords_parentScope htok)
    obtain ⟨hlaid, hitems⟩ := readsItem_variableItem.laid_of_readAll hall hne hend
    obtain ⟨w, hmem, g, rfl, rfl, hlaid'⟩ :=
      laid_of_keyword
        (show (argument parentScope).read s₁ = some (ys, texts [] ++ ')' :: rest) from hys)
        (List.cons_ne_nil _ _) trivial
    obtain rfl : w = "PARENT_SCOPE".toList := by simpa using hmem
    refine ⟨laid_append.2 ⟨by simpa [Token.text] using hlaid, hlaid'⟩,
      Or.inr ⟨xs.map Argument.token, ⟨?_, ?_⟩, ?_⟩⟩
    · simpa using hxs
    · simpa using hitems
    · simp
  · cases hys
    obtain ⟨hlaid, hitems⟩ := readsItem_variableItem.laid_of_readAll hall (List.cons_ne_nil _ _)
      fun _ => delimited_close
    rw [List.append_nil]
    refine ⟨hlaid, Or.inl ⟨⟨by simpa using hxs, by simpa using hitems⟩, ?_⟩⟩
    rw [List.getLast?_map]
    intro hlast
    obtain ⟨a, ha, hword⟩ := Option.map_eq_some_iff.1 hlast
    exact ne_parentScope_of_readAll hall hlaid hitems a ha hword

theorem read_of_variableItems (hlaid : Laid (')' :: rest) args)
    (h : VariableItems (args.map Argument.token)) :
    (argumentRule (some .set)).read (texts args ++ ')' :: rest) = some (args, ')' :: rest) := by
  simp only [argumentRule, read_append_eq_some, variableListContent_read_eq_some]
  rcases h with ⟨⟨hne, hi⟩, hlast⟩ | ⟨items, ⟨hne, hi⟩, heq⟩
  · refine ⟨args, ')' :: rest, [], ⟨by simpa using hne, ?_⟩, optionally_parentScope_close,
      List.append_nil _⟩
    apply readAll_variableItem hlaid (by simpa using hi) _ variableItem_close
    intro a ha hword
    exact absurd (by rw [List.getLast?_map, ha, Option.map_some, hword]) hlast
  · obtain ⟨xs, ys, rfl, rfl, hys⟩ := List.map_eq_append_iff.1 heq
    obtain ⟨p, rfl, hp⟩ := List.map_eq_singleton_iff.1 hys
    obtain ⟨hlaid₁, hlaid₂⟩ := laid_append.1 hlaid
    have htext : p.token.text = "PARENT_SCOPE".toList := by rw [hp]; rfl
    have hpeq : texts [p] ++ ')' :: rest = "PARENT_SCOPE".toList ++ (p.gap ++ ')' :: rest) := by
      simp [htext]
    refine ⟨xs, texts [p] ++ ')' :: rest, [p], ⟨by simpa using hne, ?_⟩, ?_, rfl⟩
    · rw [texts_append, List.append_assoc]
      apply readAll_variableItem hlaid₁ (by simpa using hi)
      · intro a ha hword
        rw [hpeq]
        simp
      · rw [hpeq]
        exact variableItem_parentScope hlaid₂.1 hlaid₂.2.1
    · have hk := hlaid₂.read_keyword .parentScope plainWords_parentScope
        prefixFree_parentScope (by simp [htext])
      rw [optionally, read_orElse, parentScope, texts_cons, List.append_assoc,
        List.append_assoc, hk, htext, ← hp]
      rfl

end SourceLists.Grammar
