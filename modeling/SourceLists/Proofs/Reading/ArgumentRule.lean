import SourceLists.Proofs.Reading.Arguments

/-! The rule for the arguments of each kind of statement, and what it reads in front of the closing
parenthesis. -/

namespace SourceLists.Grammar
open Rule Argument

variable {s rest : Text} {a : Argument} {args more : List Argument} {words : List String}
  {A B : List Token → Prop} {toks : List Token}

theorem reads_congr {r : Rule (List Argument)} (r' : Rule (List Argument))
    (h : ∀ s, r.read s = r'.read s) (hr : Reads r' A) : Reads r A := by
  intro args rest
  rw [h]
  exact hr args rest

/-- A flag that may be missing. -/
theorem reads_optionally {name : RuleName} {r : Rule (List Argument)} (hw : PlainWords words)
    (hp : PrefixFree words) (hr : Reads r A) (hl : LosslessList Argument.text r)
    (hA : WholeHead A) :
    Reads (optionally (argument (keyword name words)) ++ r) (MaybeFlagged words A) := by
  apply reads_flagged name hw hp _ hr hl hr hA
  intro s
  rw [read_append, optionally, read_orElse]
  cases (argument (keyword name words)).read s with
  | none =>
    simp only [Option.none_or, read_pure, Option.bind_some, Option.elim_none, List.nil_append]
    cases r.read s <;> rfl
  | some b => rfl

theorem append_read_assoc {r₁ r₂ r₃ : Rule (List Argument)} :
    (r₁ ++ r₂ ++ r₃).read s = (r₁ ++ (r₂ ++ r₃)).read s := by
  simp only [read_append]
  cases r₁.read s with
  | none => rfl
  | some b =>
    simp only [Option.bind_some]
    cases r₂.read b.2 with
    | none => rfl
    | some b' =>
      simp only [Option.map_some, Option.bind_some]
      cases r₃.read b'.2 with
      | none => rfl
      | some b'' => simp

theorem plainWords_excludeFromAll : PlainWords ["EXCLUDE_FROM_ALL"] := by decide

theorem prefixFree_excludeFromAll : PrefixFree ["EXCLUDE_FROM_ALL"] := by decide

theorem wholeHead_excludable : WholeHead (MaybeFlagged ["EXCLUDE_FROM_ALL"] TargetItems) :=
  wholeHead_flagged plainWords_excludeFromAll wholeHead_targetItems

theorem reads_excludable :
    Reads (optionally (argument excludeFromAll) ++ targetList)
      (MaybeFlagged ["EXCLUDE_FROM_ALL"] TargetItems) :=
  reads_optionally plainWords_excludeFromAll prefixFree_excludeFromAll reads_targetList
    targetList_lossless wholeHead_targetItems

theorem excludable_lossless :
    LosslessList Argument.text (optionally (argument excludeFromAll) ++ targetList) :=
  flag_lossless.optionally.append targetList_lossless

theorem reads_addLibrary :
    Reads (argumentRule (some .addLibrary)) (Accepts (some .addLibrary)) := by
  have hwType : PlainWords ["STATIC", "SHARED", "MODULE"] := by decide
  have htyped : Reads (optionally (argument libraryType) ++
      (optionally (argument excludeFromAll) ++ targetList))
      (MaybeFlagged ["STATIC", "SHARED", "MODULE"]
        (MaybeFlagged ["EXCLUDE_FROM_ALL"] TargetItems)) :=
    reads_optionally hwType (by decide) reads_excludable excludable_lossless
      wholeHead_excludable
  apply reads_flagged .objectType (by decide)
    (by decide) _ reads_targetList targetList_lossless htyped
    (wholeHead_flagged hwType wholeHead_excludable)
  intro s
  rw [argumentRule, ← append_read_assoc, read_append, read_orElse, objectType]
  cases (argument (keyword .objectType ["OBJECT"])).read s with
  | none => rw [Option.none_or, ← read_append]; rfl
  | some b => rfl

theorem reads_addExecutable :
    Reads (argumentRule (some .addExecutable)) (Accepts (some .addExecutable)) := by
  have hwBundle : PlainWords ["MACOSX_BUNDLE"] := by decide
  have hbundle : Reads (optionally (argument macosxBundle) ++
      (optionally (argument excludeFromAll) ++ targetList))
      (MaybeFlagged ["MACOSX_BUNDLE"] (MaybeFlagged ["EXCLUDE_FROM_ALL"] TargetItems)) :=
    reads_optionally hwBundle (by decide) reads_excludable excludable_lossless
      wholeHead_excludable
  apply reads_congr (optionally (argument win32) ++ (optionally (argument macosxBundle) ++
    (optionally (argument excludeFromAll) ++ targetList)))
  · intro s
    rw [argumentRule, append_read_assoc, append_read_assoc]
  · exact reads_optionally (by decide) (by decide) hbundle
      (flag_lossless.optionally.append excludable_lossless)
      (wholeHead_flagged hwBundle wholeHead_excludable)

theorem reads_set : Reads (argumentRule (some .set)) (Accepts (some .set)) :=
  fun _ _ => ⟨variableItems_of_read, fun h => read_of_variableItems h.1 h.2⟩

theorem prefixFree_scopeKeyword : PrefixFree ["PRIVATE", "PUBLIC", "INTERFACE"] := by decide

theorem scopedList_lossless : LosslessList Argument.text scopedList :=
  flag_lossless.append listContent_lossless

theorem keyword_consumes {name : RuleName} (hw : PlainWords words) :
    Consumes (argument (keyword name words)) := by
  intro s x rest h
  obtain ⟨tok, g, s', htok, hg, rfl⟩ := argument_read_eq_some.1 h
  obtain ⟨w, hmem, -, rfl, -⟩ := keyword_read htok
  have hpos := List.length_pos_iff.2 (hw w hmem).1
  have hs' : g ++ rest = s' := gap_lossless hg
  rw [← hs', List.length_append, List.length_append]
  omega

theorem scopedList_consumes : Consumes scopedList :=
  Consumes.append (keyword_consumes plainWords_scopeKeyword) listContent_lossless

theorem scopedList_read_eq_some :
    scopedList.read s = some (args, rest) ↔
      ∃ x y s', (argument scopeKeyword).read s = some (x, s') ∧
      listContent.read s' = some (y, rest) ∧ args = x ++ y := by
  rw [scopedList, read_named, read_append, Option.bind_eq_some_iff]
  simp only [Option.map_eq_some_iff, Prod.exists, Prod.mk.injEq]
  constructor
  · rintro ⟨x, s', hx, y, _, hy, rfl, rfl⟩
    exact ⟨x, y, s', hx, hy, rfl⟩
  · rintro ⟨x, y, s', hx, hy, rfl⟩
    exact ⟨x, s', hx, y, rest, hy, rfl, rfl⟩

theorem scoped_of_readAll (h : readAll scopedList s = (args, ')' :: rest)) :
    Laid (')' :: rest) args ∧ (args = [] ∨ Scoped (args.map Argument.token)) := by
  induction hn : s.length using Nat.strongRecOn generalizing s args with
  | ind n ih =>
    rw [readAll_eq scopedList_consumes] at h
    cases hs : scopedList.read s with
    | none =>
      rw [hs] at h
      obtain ⟨rfl, -⟩ := Prod.mk.inj h
      exact ⟨trivial, Or.inl rfl⟩
    | some b =>
      obtain ⟨x, s₁⟩ := b
      have hlt := scopedList_consumes hs
      rw [hs] at h
      obtain ⟨rfl, hrest⟩ := Prod.mk.inj h
      have hall : readAll scopedList s₁ = ((readAll scopedList s₁).1, ')' :: rest) :=
        Prod.ext rfl hrest
      obtain ⟨hlaid, hmore⟩ := ih s₁.length (by omega) hall rfl
      generalize (readAll scopedList s₁).1 = xs at *
      have hs₁ : texts xs ++ ')' :: rest = s₁ :=
        scopedList_lossless.star (congrArg some hall)
      subst hs₁
      obtain ⟨k, items, s₂, hk, hitems, rfl⟩ := scopedList_read_eq_some.1 hs
      -- The items end at the parenthesis or at the next scope.
      have hend : LiteralEnd (texts xs ++ ')' :: rest) → Delimited (texts xs ++ ')' :: rest) := by
        rw [readAll_eq scopedList_consumes] at hall
        cases hnext : scopedList.read (texts xs ++ ')' :: rest) with
        | none =>
          rw [hnext] at hall
          obtain ⟨rfl, -⟩ := Prod.mk.inj hall
          exact fun _ => delimited_close
        | some b =>
          obtain ⟨k', _, _, hk', -, -⟩ := scopedList_read_eq_some.1 hnext
          obtain ⟨tok, g, s', htok, -⟩ := argument_read_eq_some.1 hk'
          exact fun hlit => absurd hlit (not_literalEnd_of_keyword plainWords_scopeKeyword htok)
      obtain ⟨hlaid', hi⟩ := laid_of_listContent hitems (by simp) hend
      have hs₂ : texts items ++ (texts xs ++ ')' :: rest) = s₂ := listContent_lossless hitems
      rw [← hs₂, ← List.append_assoc, ← texts_append] at hk
      obtain ⟨w, hmem, g, rfl, -, hlaid''⟩ :=
        laid_of_keyword hk (by simp) (laid_append.2 ⟨hlaid', hlaid⟩)
      refine ⟨hlaid'', Or.inr ?_⟩
      rcases hmore with rfl | hmore
      · simpa using Scoped.last hmem hi
      · simpa using Scoped.cons hmem hi hmore

theorem exists_scope_of_scoped (h : Scoped toks) :
    ∃ w ∈ ["PRIVATE", "PUBLIC", "INTERFACE"].map String.toList, ∃ more,
      toks = .keyword w :: more := by
  cases h with
  | last hw hi => exact ⟨_, hw, _, rfl⟩
  | cons hw hi h => exact ⟨_, hw, _, rfl⟩

/-- No item begins at a scope. -/
theorem Argument.Laid.listItem_scope (hlaid : Laid rest (a :: args))
    (ha : a.token.text ∈ ["PRIVATE", "PUBLIC", "INTERFACE"].map String.toList) :
    listItem.read (texts (a :: args) ++ rest) = none := by
  rw [Option.eq_none_iff_forall_ne_some]
  rintro ⟨tok, s'⟩ h
  have hnone := argument_read_eq_none.2 (listItem_read_eq_some.1 h).1
  rw [texts_cons, List.append_assoc, List.append_assoc, scopeKeyword,
    hlaid.read_keyword .scopeKeyword plainWords_scopeKeyword prefixFree_scopeKeyword ha] at hnone
  contradiction

theorem scopedList_read_of_laid {w : Text} (hlaid : Laid rest (a :: args))
    (hw : w ∈ ["PRIVATE", "PUBLIC", "INTERFACE"].map String.toList) (ha : a.token = .keyword w)
    (hi : Items (args.map Argument.token)) (hend : listItem.read rest = none) :
    scopedList.read (texts (a :: args) ++ rest) = some (a :: args, rest) := by
  have htext : a.token.text = w := by rw [ha]; rfl
  have hk := hlaid.read_keyword .scopeKeyword plainWords_scopeKeyword
    prefixFree_scopeKeyword (by rw [htext]; exact hw)
  rw [htext, ← ha] at hk
  refine scopedList_read_eq_some.2 ⟨[a], args, texts args ++ rest, ?_,
    listContent_read_of_laid hlaid.2.2.2 hi hend, rfl⟩
  rw [texts_cons, List.append_assoc, List.append_assoc, htext]
  exact hk

theorem readAll_of_scoped (hlaid : Laid (')' :: rest) args) (h : Scoped toks)
    (heq : args.map Argument.token = toks) :
    readAll scopedList (texts args ++ ')' :: rest) = (args, ')' :: rest) := by
  have hclose : readAll scopedList (')' :: rest) = ([], ')' :: rest) := by
    have hnone : scopedList.read (')' :: rest) = none := by
      rw [Option.eq_none_iff_forall_ne_some]
      rintro ⟨x, s'⟩ h
      obtain ⟨_, _, _, hk, -⟩ := scopedList_read_eq_some.1 h
      rw [scopeKeyword, argument_read_eq_none.2 (keyword_close plainWords_scopeKeyword)] at hk
      contradiction
    rw [readAll_eq scopedList_consumes, hnone]
  induction h generalizing args with
  | @last w items hw hi =>
    obtain ⟨a, args, rfl, ha, rfl⟩ := List.map_eq_cons_iff.1 heq
    rw [readAll_eq scopedList_consumes, scopedList_read_of_laid hlaid hw ha hi listItem_close]
    simp [hclose]
  | @cons w items more hw hi hmore ih =>
    obtain ⟨a, args, rfl, ha, heq⟩ := List.map_eq_cons_iff.1 heq
    obtain ⟨xs, ys, rfl, rfl, rfl⟩ := List.map_eq_append_iff.1 heq
    obtain ⟨hlaid₁, hlaid₂⟩ :=
      laid_append.1 (show Laid (')' :: rest) ((a :: xs) ++ ys) from hlaid)
    have hend : listItem.read (texts ys ++ ')' :: rest) = none := by
      obtain ⟨w', hw', toks, htoks⟩ := exists_scope_of_scoped hmore
      obtain ⟨b, ys, rfl, hb, -⟩ := List.map_eq_cons_iff.1 htoks
      exact hlaid₂.listItem_scope (by rw [hb]; exact hw')
    rw [← List.cons_append, texts_append, List.append_assoc, readAll_eq scopedList_consumes,
      scopedList_read_of_laid hlaid₁ hw ha hi hend]
    simp [ih hlaid₂ rfl]

theorem reads_targetSources :
    Reads (argumentRule (some .targetSources)) (Accepts (some .targetSources)) := by
  intro args rest
  rw [argumentRule, plus_read_eq_some scopedList_lossless scopedList_consumes]
  constructor
  · rintro ⟨hne, hall⟩
    obtain ⟨hlaid, hnil | hs⟩ := scoped_of_readAll hall
    · exact absurd hnil hne
    · exact ⟨hlaid, hs⟩
  · rintro ⟨hlaid, hs⟩
    refine ⟨?_, readAll_of_scoped hlaid hs rfl⟩
    rintro rfl
    obtain ⟨w, -, more, hmore⟩ := exists_scope_of_scoped hs
    contradiction

theorem argumentRule_lossless (kind : Option Kind) :
    LosslessList Argument.text (argumentRule kind) := by
  match kind with
  | none => exact listContent_lossless.optionally
  | some .set => exact variableListContent_lossless.append flag_lossless.optionally
  | some .addLibrary =>
    exact LosslessList.append (Lossless.orElse flag_lossless
      (flag_lossless.optionally.append flag_lossless.optionally)) targetList_lossless
  | some .addExecutable =>
    exact ((flag_lossless.optionally.append flag_lossless.optionally).append
      flag_lossless.optionally).append targetList_lossless
  | some .targetSources => exact scopedList_lossless.plus

/-- The arguments of a statement are read exactly if they stand in their layout and are accepted. -/
theorem reads_argumentRule (kind : Option Kind) : Reads (argumentRule kind) (Accepts kind) := by
  match kind with
  | none => exact reads_optionally_listContent
  | some .set => exact reads_set
  | some .addLibrary => exact reads_addLibrary
  | some .addExecutable => exact reads_addExecutable
  | some .targetSources => exact reads_targetSources

end SourceLists.Grammar
