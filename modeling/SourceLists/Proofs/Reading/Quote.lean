import SourceLists.Proofs.Reading.ItemList

/-! Quoted strings that go on behind a place where a text without quotes is put in or taken out. -/

namespace SourceLists.Grammar
open Rule

variable {s t u v w x y z rest : Text} {c : Char}

theorem takeQuoted_backslash :
    takeQuoted ('\\' :: c :: s) = (takeQuoted s).map fun (quoted, rest) =>
      ('\\' :: c :: quoted, rest) := by
  rw [takeQuoted]

/-- Where the string ends that is open at the beginning of the text. -/
def afterQuote (s : Text) : Option Text := (takeQuoted s).map Prod.snd

theorem afterQuote_backslash : afterQuote ('\\' :: c :: s) = afterQuote s := by
  rw [afterQuote, takeQuoted_backslash, afterQuote]
  cases takeQuoted s <;> rfl

theorem afterQuote_cons (hc : c ≠ '\\') (hq : c ≠ '"') : afterQuote (c :: s) = afterQuote s := by
  rw [afterQuote, takeQuoted_cons hc hq, afterQuote]
  cases takeQuoted s <;> rfl

theorem Delimited.ne_quote (h : Delimited (c :: s)) : c ≠ '"' := by
  rintro rfl
  exact absurd (delimited_cons.1 h) (by decide)

theorem Delimited.ne_backslash (h : Delimited (c :: s)) : c ≠ '\\' := by
  rintro rfl
  exact absurd (delimited_cons.1 h) (by decide)

/-- Nothing is escaped by a backslash in front of a delimiter. -/
theorem afterQuote_backslash_delimited (h : Delimited s) :
    afterQuote ('\\' :: s) = afterQuote s := by
  cases s with
  | nil => rfl
  | cons c s => rw [afterQuote_backslash, afterQuote_cons h.ne_backslash h.ne_quote]

/-- A text without quotes changes nothing about where a quoted string ends. -/
theorem afterQuote_skip (hw : '"' ∉ w) (hv : Delimited v) : afterQuote (w ++ v) = afterQuote v := by
  induction hn : w.length using Nat.strongRecOn generalizing w with
  | ind n ih =>
    match w with
    | [] => rfl
    | [c] =>
      by_cases hc : c = '\\'
      · rw [hc]
        exact afterQuote_backslash_delimited hv
      · have hq : c ≠ '"' := by rintro rfl; simp at hw
        exact afterQuote_cons hc hq
    | c :: d :: w =>
      simp only [List.length_cons] at hn
      by_cases hc : c = '\\'
      · rw [hc, List.cons_append, List.cons_append, afterQuote_backslash]
        exact ih w.length (by omega) (fun h => hw (by simp [h])) rfl
      · have hq : c ≠ '"' := by rintro rfl; simp at hw
        rw [List.cons_append, afterQuote_cons hc hq]
        exact ih (w.length + 1) (by omega) (fun h => hw (List.mem_cons_of_mem c h)) (by simp)

theorem parallel_of_snd {o o' : Option (Text × Text)} (h : o.map Prod.snd = o'.map Prod.snd) :
    Parallel s t True o o' := by
  cases o with
  | none =>
    rw [Option.map_eq_none_iff.1 h.symm]
    exact .none
  | some a =>
    obtain ⟨⟨y, r⟩, rfl, hr⟩ := Option.map_eq_some_iff.1 h.symm
    cases hr
    exact .beyond trivial a.1 y a.2

theorem takeQuoted_parallel (hs : Delimited s) (ht : Delimited t)
    (hst : afterQuote s = afterQuote t) :
    Parallel s t True (takeQuoted (u ++ s)) (takeQuoted (u ++ t)) := by
  induction hn : u.length using Nat.strongRecOn generalizing u with
  | ind n ih =>
    match u with
    | [] => exact parallel_of_snd hst
    | [c] =>
      by_cases hc : c = '\\'
      · rw [hc]
        apply parallel_of_snd
        change afterQuote ('\\' :: s) = afterQuote ('\\' :: t)
        rw [afterQuote_backslash_delimited hs, afterQuote_backslash_delimited ht, hst]
      · by_cases hq : c = '"'
        · rw [hq]
          exact .within ['"'] []
        · rw [List.singleton_append, List.singleton_append, takeQuoted_cons hc hq,
            takeQuoted_cons hc hq]
          exact (parallel_of_snd hst).map (c :: ·)
    | c :: d :: u =>
      simp only [List.length_cons] at hn
      by_cases hc : c = '\\'
      · simp only [hc, List.cons_append, takeQuoted_backslash]
        exact (ih u.length (by omega) rfl).map ('\\' :: d :: ·)
      · by_cases hq : c = '"'
        · subst hq
          exact .within ['"'] (d :: u)
        · rw [List.cons_append (a := c), List.cons_append (a := c), takeQuoted_cons hc hq,
            takeQuoted_cons hc hq]
          exact (ih (u.length + 1) (by omega) (by simp)).map (c :: ·)

section steady
variable (hs : Delimited s) (ht : Delimited t) (hst : afterQuote s = afterQuote t)
include hs ht hst

theorem quotedString_steady : Steady s t True quotedString := by
  refine (Steady.char ?_ hs ht).append fun u => takeQuoted_parallel hs ht hst
  intro c hc
  rw [eq_of_beq hc]
  decide

theorem literalItem_steady : Steady s t True literalItem :=
  (Steady.map (Steady.plus literalPiece_consumes
    ((quotedString_steady hs ht hst).orElse (Steady.char narrow_isBare hs ht)))).token

end steady

/-- What is no edge stands inside of quotes, which are closed behind it. -/
theorem quote_of_readAll (h : readAll literalPiece s = (y ++ c :: z, rest)) (hc : ¬ IsEdge c) :
    '"' ∈ z := by
  generalize hx : y ++ c :: z = x at h
  fun_induction readAll literalPiece s generalizing x y rest with
  | case1 => cases h; simp at hx
  | case2 s p s' hp hlt xs s'' hxs ih =>
    cases h
    rcases List.append_eq_append_iff.1 hx with ⟨a, rfl, ha⟩ | ⟨a, rfl, ha⟩
    · cases a with
      | nil => exact ih xs (y := []) ha hxs
      | cons d a =>
        obtain ⟨rfl, rfl⟩ := List.cons.inj ha
        rcases literalPiece_read_eq_some.1 hp with hq | ⟨e, he, heq, -⟩
        · obtain ⟨q, s₁, -, hq, heq⟩ := quotedString_read_eq_some.1 hq
          have hlast : (y ++ c :: a).getLast? = some '"' := by
            rw [heq, List.getLast?_cons, getLast?_takeQuoted hq]
            rfl
          rw [List.getLast?_append, List.getLast?_cons] at hlast
          cases ha : a.getLast? with
          | none =>
            rw [ha] at hlast
            cases hlast
            exact absurd (Or.inr rfl) hc
          | some e =>
            rw [ha] at hlast
            cases hlast
            exact List.mem_append_left xs (List.mem_of_getLast? ha)
        · cases y with
          | nil =>
            rw [(List.cons.inj heq).1] at hc
            exact absurd (Or.inl he) hc
          | cons f y =>
            have hlen := congrArg List.length heq
            simp at hlen
    · exact ih xs ha.symm hxs
  | case3 => cases h; simp at hx

variable {tok : Token}

theorem quote_of_isItem (h : (Token.literal (y ++ c :: z)).IsItem) (hc : ¬ IsEdge c) : '"' ∈ z :=
  quote_of_readAll (readAll_of_isItem h) hc

/-- An item from whose quotes a text without any is taken out. -/
theorem isItem_of_skip (h : (Token.literal (u ++ (w ++ v))).IsItem) (hw : '"' ∉ w)
    (hd : Delimited (w ++ v)) (hv : Delimited v) (hne : w ++ v ≠ []) :
    (Token.literal (u ++ v)).IsItem := by
  obtain ⟨hk, hitem⟩ := listItem_read_eq_some.1 h
  rw [Token.text] at hk hitem
  obtain ⟨hvar, hquoted, hlit⟩ : standaloneVariable.read (u ++ (w ++ v)) = none ∧
      quotedVariable.read (u ++ (w ++ v)) = none ∧
        literalItem.read (u ++ (w ++ v)) = some (.literal (u ++ (w ++ v)), []) := by
    rcases hitem with hr | ⟨hnone, hr | ⟨hnone', hr⟩⟩
    · obtain ⟨-, name, hn, -⟩ := variableForm_read hr
      contradiction
    · obtain ⟨-, name, hn, -⟩ := variableForm_read hr
      contradiction
    · exact ⟨hnone, hnone', hr⟩
  have hst := afterQuote_skip hw hv
  have hread : literalItem.read (u ++ v) = some (.literal (u ++ v), []) := by
    have hpar := literalItem_steady hd hv hst u
    rw [hlit] at hpar
    generalize ho : literalItem.read (u ++ v) = o at hpar
    generalize hx : some (Token.literal (u ++ (w ++ v)), ([] : Text)) = o' at hpar
    cases hpar with
    | none => contradiction
    | within tok r =>
      have hnil := (Prod.mk.inj (Option.some.inj hx)).2
      exact absurd (List.append_eq_nil_iff.1 hnil.symm).2 hne
    | beyond _ tok tok' r =>
      obtain rfl := (Prod.mk.inj (Option.some.inj hx)).2
      obtain ⟨x, rfl, -⟩ := literalItem_read_eq_some.1 ho
      have hs := literalItem_lossless ho
      rw [Token.text, List.append_nil] at hs
      rw [hs]
  have hscope : Steady (w ++ v) v True scopeKeyword :=
    keyword_steady hd hv plainWords_scopeKeyword
  have hvariable : Steady (w ++ v) v True standaloneVariable := standaloneVariable_steady hd hv
  have hquote : Steady (w ++ v) v True quotedVariable := quotedVariable_steady hd hv
  exact listItem_read_eq_some.2 ⟨hscope.read_eq_none_iff.1 hk,
    Or.inr ⟨hvariable.read_eq_none_iff.1 hvar, Or.inr ⟨hquote.read_eq_none_iff.1 hquoted, hread⟩⟩⟩

end SourceLists.Grammar
