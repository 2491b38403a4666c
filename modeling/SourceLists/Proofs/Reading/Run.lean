import SourceLists.Proofs.Reading.Name
import SourceLists.Proofs.Reading.Quote

/-! Items as texts: which texts are literals, and that they and references to variables are read as
items. -/

namespace SourceLists.Grammar
open Rule

variable {s v x y q rest : Text} {c : Char} {tok : Token} {quoted : Bool}

/-- The inside of a quoted string and the quote that closes it. A backslash escapes one
character. -/
inductive Closes : Text → Prop
  | quote : Closes ['"']
  | escaped (c : Char) {q : Text} (h : Closes q) : Closes ('\\' :: c :: q)
  | ordinary {c : Char} {q : Text} (hc : c ≠ '\\' ∧ c ≠ '"') (h : Closes q) : Closes (c :: q)

/-- A run of quoted strings and bare characters. -/
inductive IsRun : Text → Prop
  | nil : IsRun []
  | bare {c : Char} {x : Text} (hc : isBare c) (h : IsRun x) : IsRun (c :: x)
  | quoted {q x : Text} (hq : Closes q) (h : IsRun x) : IsRun ('"' :: (q ++ x))

theorem closes_of_ordinary (h : ∀ c ∈ x, c ≠ '\\' ∧ c ≠ '"') : Closes (x ++ ['"']) := by
  induction x with
  | nil => exact .quote
  | cons c x ih =>
    obtain ⟨hc, hx⟩ := List.forall_mem_cons.1 h
    exact .ordinary hc (ih hx)

theorem isRun_of_isBare (h : ∀ c ∈ x, isBare c) : IsRun x := by
  induction x with
  | nil => exact .nil
  | cons c x ih =>
    obtain ⟨hc, hx⟩ := List.forall_mem_cons.1 h
    exact .bare hc (ih hx)

theorem takeQuoted_closes (h : Closes q) : takeQuoted (q ++ s) = some (q, s) := by
  induction h with
  | quote => rfl
  | escaped c h ih =>
    rw [List.cons_append, List.cons_append, takeQuoted_backslash, ih, Option.map_some]
  | ordinary hc h ih => rw [List.cons_append, takeQuoted_cons hc.1 hc.2, ih, Option.map_some]

theorem closes_of_takeQuoted (h : takeQuoted s = some (q, rest)) : Closes q := by
  fun_induction takeQuoted s generalizing q with
  | case1 => contradiction
  | case2 c s ih =>
    obtain ⟨⟨q, _⟩, hq, heq⟩ := Option.map_eq_some_iff.1 h
    cases heq
    exact .escaped c (ih hq)
  | case3 =>
    cases h
    exact .quote
  | case4 c s hc hne ih =>
    obtain ⟨⟨q, _⟩, hq, heq⟩ := Option.map_eq_some_iff.1 h
    cases heq
    refine .ordinary ⟨?_, hne⟩ (ih hq)
    rintro rfl
    cases s with
    | nil => contradiction
    | cons d s => exact hc d s rfl rfl

theorem literalPiece_read_iff :
    literalPiece.read s = some (x, rest) ↔ s = x ++ rest ∧
      ((∃ q, Closes q ∧ x = '"' :: q) ∨ ∃ c, isBare c ∧ x = [c]) := by
  rw [literalPiece_read_eq_some, quotedString_read_eq_some]
  constructor
  · rintro (⟨q, s', rfl, hq, rfl⟩ | ⟨c, hc, rfl, rfl⟩)
    · exact ⟨by rw [← takeQuoted_append hq]; rfl, Or.inl ⟨q, closes_of_takeQuoted hq, rfl⟩⟩
    · exact ⟨rfl, Or.inr ⟨c, hc, rfl⟩⟩
  · rintro ⟨rfl, ⟨q, hq, rfl⟩ | ⟨c, hc, rfl⟩⟩
    · exact Or.inl ⟨q, q ++ rest, rfl, takeQuoted_closes hq, rfl⟩
    · exact Or.inr ⟨c, hc, rfl, rfl⟩

theorem readAll_literalPiece_isRun (h : IsRun x) (hs : LiteralEnd s) :
    readAll literalPiece (x ++ s) = (x, s) := by
  induction h with
  | nil => exact readAll_of_read_eq_none literalPiece_consumes hs
  | @bare c y hc h ih =>
    have hread : literalPiece.read (c :: (y ++ s)) = some ([c], y ++ s) :=
      literalPiece_read_iff.2 ⟨rfl, Or.inr ⟨c, hc, rfl⟩⟩
    exact readAll_of_read literalPiece_consumes hread ih
  | @quoted q y hq h ih =>
    have hread : literalPiece.read ('"' :: (q ++ (y ++ s))) = some ('"' :: q, y ++ s) :=
      literalPiece_read_iff.2 ⟨rfl, Or.inl ⟨q, hq, rfl⟩⟩
    rw [List.cons_append, List.append_assoc]
    exact readAll_of_read literalPiece_consumes hread ih

theorem isRun_of_readAll (h : readAll literalPiece s = (x, rest)) : IsRun x := by
  refine readAll_induction .nil ?_ h
  intro s y s' xs hy ih
  obtain ⟨-, ⟨q, hq, rfl⟩ | ⟨c, hc, rfl⟩⟩ := literalPiece_read_iff.1 hy
  · exact .quoted hq ih
  · exact .bare hc ih

theorem readAll_literalPiece_eq_self (h : IsRun x) : readAll literalPiece x = (x, []) := by
  have hall := readAll_literalPiece_isRun h (literalEnd_of_delimited delimited_nil)
  rwa [List.append_nil] at hall

theorem isRun_iff : IsRun x ↔ readAll literalPiece x = (x, []) :=
  ⟨readAll_literalPiece_eq_self, isRun_of_readAll⟩

instance : DecidablePred IsRun := fun _ => decidable_of_iff' _ isRun_iff

example : IsRun "-I\"my dir\"/\"\\\"\"".toList ∧ ¬ IsRun "\"my dir".toList := by decide +kernel

theorem literalItem_read_iff :
    literalItem.read s = some (tok, rest) ↔
      ∃ x, tok = .literal x ∧ x ≠ [] ∧ readAll literalPiece s = (x, rest) := by
  have hplus : ∀ {x}, (plus literalPiece).read s = some (x, rest) ↔
      x ≠ [] ∧ readAll literalPiece s = (x, rest) :=
    plus_read_eq_some literalPiece_lossless.toList literalPiece_consumes
  simp only [literalItem_read_eq_some, hplus]

theorem variableForm_read_iff {r : Rule Text} :
    (Token.reference quoted <$> (r <* ahead itemEnd)).read s = some (tok, rest) ↔
      Delimited rest ∧ ∃ v, tok = .reference quoted v ∧ r.read s = some (v, rest) := by
  constructor
  · exact variableForm_read
  · rintro ⟨hd, v, rfl, hv⟩
    simp [read_seqLeft, hv, ahead_itemEnd_read hd]

theorem standaloneVariable_read_iff :
    standaloneVariable.read s = some (tok, rest) ↔ Delimited rest ∧
      ∃ v, IsIdentifier v ∧ tok = .reference false v ∧ s = tok.text ++ rest := by
  rw [standaloneVariable, read_named, variableForm_read_iff]
  simp only [variableReference_read_iff]
  constructor
  · rintro ⟨hd, v, rfl, hv, rfl⟩
    exact ⟨hd, v, hv, rfl, rfl⟩
  · rintro ⟨hd, v, hv, rfl, rfl⟩
    exact ⟨hd, v, rfl, hv, rfl⟩

theorem quotedVariable_read_iff :
    quotedVariable.read s = some (tok, rest) ↔ Delimited rest ∧
      ∃ v, IsIdentifier v ∧ tok = .reference true v ∧ s = tok.text ++ rest := by
  rw [quotedVariable, read_named, variableForm_read_iff]
  simp only [read_seqLeft_singleton_eq_some, read_seqRight_eq_some]
  constructor
  · rintro ⟨hd, v, rfl, _, s', hopen, hread⟩
    obtain ⟨-, rfl⟩ := exactly_singleton_read.1 hopen
    obtain ⟨hv, rfl⟩ := variableReference_read_iff.1 hread
    exact ⟨hd, v, hv, rfl, by simp [Token.text]⟩
  · rintro ⟨hd, v, hv, rfl, rfl⟩
    exact ⟨hd, v, rfl, ['"'], Token.referenceText v ++ '"' :: rest,
      exactly_singleton_read.2 ⟨rfl, by simp [Token.text]⟩,
      variableReference_read_iff.2 ⟨hv, rfl⟩⟩

/-- A run does not end in front of a delimiter that stands inside of it. -/
theorem eq_nil_of_isRun (h : IsRun (x ++ y)) (hx : IsRun x) (hy : Delimited y) : y = [] := by
  have hall := isRun_iff.1 h
  rw [readAll_literalPiece_isRun hx (literalEnd_of_delimited hy)] at hall
  exact (Prod.mk.inj hall).2

theorem isRun_reference (hv : IsIdentifier v) : IsRun (Token.reference quoted v).text := by
  have hmem :
      ∀ c ∈ Token.referenceText v, c = '$' ∨ c = '\x7b' ∨ c = '\x7d' ∨ isIdentifierChar c := by
    intro c hc
    simp only [Token.referenceText, List.mem_append, List.mem_cons, List.not_mem_nil,
      or_false] at hc
    rcases hc with ((hc | hc) | hc) | hc
    · exact Or.inl hc
    · exact Or.inr (Or.inl hc)
    · exact Or.inr (Or.inr (Or.inr (hv.isIdentifierChar c hc)))
    · exact Or.inr (Or.inr (Or.inl hc))
  cases quoted with
  | false =>
    apply isRun_of_isBare
    intro c hc
    rcases hmem c hc with rfl | rfl | rfl | hid
    · decide
    · decide
    · decide
    · exact isBare_of_isIdentifierChar hid
  | true =>
    have hclose : Closes (Token.referenceText v ++ ['"']) := by
      apply closes_of_ordinary
      intro c hc
      rcases hmem c hc with rfl | rfl | rfl | hid
      · decide
      · decide
      · decide
      · constructor <;> rintro rfl <;> contradiction
    have hrun := IsRun.quoted hclose .nil
    rwa [List.append_nil] at hrun

/-- A text that is a literal: a run that is neither a scope nor one reference to a variable. -/
structure IsLiteral (x : Text) : Prop where
  nonempty : x ≠ []
  run : IsRun x
  unscoped : x ∉ ["PRIVATE", "PUBLIC", "INTERFACE"].map String.toList
  unreferenced : ∀ quoted v, IsIdentifier v → x ≠ (Token.reference quoted v).text

theorem isWhole_of_isRun (h : IsRun x) : IsWhole x := by
  rintro w y rfl - hw hy
  exact eq_nil_of_isRun h (isRun_of_isBare fun c hc => isBare_of_isIdentifierChar (hw c hc)) hy

theorem scopeKeyword_read_eq_none_iff (h : IsRun x) :
    scopeKeyword.read x = none ↔ x ∉ ["PRIVATE", "PUBLIC", "INTERFACE"].map String.toList := by
  constructor
  · intro hnone hmem
    have hread : scopeKeyword.read (x ++ []) = some (.keyword x, []) :=
      keyword_read_append plainWords_scopeKeyword prefixFree_scopeKeyword hmem delimited_nil
    rw [List.append_nil, hnone] at hread
    contradiction
  · intro hx
    have hread : scopeKeyword.read (x ++ []) = none :=
      keyword_read_eq_none plainWords_scopeKeyword hx (isWhole_of_isRun h) delimited_nil
    rwa [List.append_nil] at hread

/-- A run is no reference if it is not written like one. -/
theorem variable_read_eq_none_iff (h : IsRun x) :
    (standaloneVariable.read x = none ∧ quotedVariable.read x = none) ↔
      ∀ quoted v, IsIdentifier v → x ≠ (Token.reference quoted v).text := by
  constructor
  · rintro ⟨hstandalone, hquoted⟩ (- | -) v hv rfl
    · have hread :=
        standaloneVariable_read_iff.2 ⟨delimited_nil, v, hv, rfl, (List.append_nil _).symm⟩
      rw [hstandalone] at hread
      contradiction
    · have hread := quotedVariable_read_iff.2 ⟨delimited_nil, v, hv, rfl, (List.append_nil _).symm⟩
      rw [hquoted] at hread
      contradiction
  · intro hx
    have hwhole : ∀ quoted v rest, IsIdentifier v → Delimited rest →
        x ≠ (Token.reference quoted v).text ++ rest := by
      rintro quoted v rest hv hd rfl
      obtain rfl := eq_nil_of_isRun h (isRun_reference hv) hd
      exact hx quoted v hv (List.append_nil _)
    constructor
    · rw [Option.eq_none_iff_forall_ne_some]
      rintro ⟨tok, rest⟩ hread
      obtain ⟨hd, v, hv, rfl, heq⟩ := standaloneVariable_read_iff.1 hread
      exact hwhole false v rest hv hd heq
    · rw [Option.eq_none_iff_forall_ne_some]
      rintro ⟨tok, rest⟩ hread
      obtain ⟨hd, v, hv, rfl, heq⟩ := quotedVariable_read_iff.1 hread
      exact hwhole true v rest hv hd heq

theorem isItem_literal_iff : (Token.literal x).IsItem ↔ IsLiteral x := by
  constructor
  · intro h
    obtain ⟨hk, hread⟩ := listItem_read_eq_some.1 h
    rw [Token.text] at hk hread
    have hlit := literalItem_of_isItem h
    obtain ⟨_, heq, hne, hall⟩ := literalItem_read_iff.1 hlit
    cases heq
    have hrun := isRun_of_readAll hall
    refine ⟨hne, hrun, (scopeKeyword_read_eq_none_iff hrun).1 hk,
      (variable_read_eq_none_iff hrun).1 ?_⟩
    rcases hread with hv | ⟨hnone, hv | ⟨hnone', -⟩⟩
    · obtain ⟨-, v, -, heq, -⟩ := standaloneVariable_read_iff.1 hv
      contradiction
    · obtain ⟨-, v, -, heq, -⟩ := quotedVariable_read_iff.1 hv
      contradiction
    · exact ⟨hnone, hnone'⟩
  · intro h
    obtain ⟨hstandalone, hquoted⟩ := (variable_read_eq_none_iff h.run).2 h.unreferenced
    refine listItem_read_eq_some.2 ⟨(scopeKeyword_read_eq_none_iff h.run).2 h.unscoped,
      Or.inr ⟨hstandalone, Or.inr ⟨hquoted, ?_⟩⟩⟩
    exact literalItem_read_iff.2 ⟨x, rfl, h.nonempty, isRun_iff.1 h.run⟩

theorem isItem_reference_iff : (Token.reference quoted v).IsItem ↔ IsIdentifier v := by
  constructor
  · intro h
    obtain ⟨-, hv | ⟨-, hv | ⟨-, hv⟩⟩⟩ := listItem_read_eq_some.1 h
    · obtain ⟨-, _, hid, heq, -⟩ := standaloneVariable_read_iff.1 hv
      cases heq
      exact hid
    · obtain ⟨-, _, hid, heq, -⟩ := quotedVariable_read_iff.1 hv
      cases heq
      exact hid
    · obtain ⟨_, heq, -⟩ := literalItem_read_iff.1 hv
      contradiction
  · intro hv
    have hscope :
        (Token.reference quoted v).text ∉ ["PRIVATE", "PUBLIC", "INTERFACE"].map String.toList :=
      fun hmem => not_word_reference quoted v (plainWords_scopeKeyword _ hmem).2
    refine listItem_read_eq_some.2
      ⟨(scopeKeyword_read_eq_none_iff (isRun_reference hv)).2 hscope, ?_⟩
    cases quoted with
    | false =>
      exact Or.inl
        (standaloneVariable_read_iff.2 ⟨delimited_nil, v, hv, rfl, (List.append_nil _).symm⟩)
    | true =>
      refine Or.inr ⟨?_, Or.inl (quotedVariable_read_iff.2
        ⟨delimited_nil, v, hv, rfl, (List.append_nil _).symm⟩)⟩
      rw [Option.eq_none_iff_forall_ne_some]
      rintro ⟨tok, rest⟩ hread
      obtain ⟨-, w, -, rfl, heq⟩ := standaloneVariable_read_iff.1 hread
      exact absurd (List.cons.inj heq).1 (by decide)

end SourceLists.Grammar
