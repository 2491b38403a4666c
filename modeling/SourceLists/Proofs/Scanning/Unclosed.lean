import SourceLists.Proofs.Scanning.ListStart
import SourceLists.Proofs.Scanning.Parts

/-! A statement that is not closed. It is not read, since no list goes on with a call, and the
scanner passes over its arguments and finds the statement behind it. -/

namespace SourceLists
open Grammar Grammar.Argument

namespace Grammar

variable {s t x y w g word rest : Text} {tok : Token} {toks : List Token}
  {args more : List Argument} {kind : Kind} {name : Text} {i : Invocation}

/-- Runs that end at a place where no literal goes on are the same. -/
theorem run_unique (hx : IsRun x) (hy : IsRun y) (hs : LiteralEnd s) (ht : LiteralEnd t)
    (h : x ++ s = y ++ t) : x = y ∧ s = t := by
  have hall := readAll_literalPiece_isRun hx hs
  rw [h, readAll_literalPiece_isRun hy ht] at hall
  obtain ⟨hxy, hst⟩ := Prod.mk.inj hall
  exact ⟨hxy.symm, hst.symm⟩

theorem isRun_of_isIdentifierChar (h : ∀ c ∈ x, isIdentifierChar c) : IsRun x :=
  isRun_of_isBare fun c hc => isBare_of_isIdentifierChar (h c hc)

theorem Token.Sound.isRun (h : tok.Sound) : IsRun tok.text := by
  rcases h with hi | ⟨w, rfl, -, hid⟩
  · rcases hi.literal_or_reference with ⟨x, rfl⟩ | ⟨quoted, v, rfl⟩
    · exact (isItem_literal_iff.1 hi).run
    · exact isRun_reference (isItem_reference_iff.1 hi)
  · exact isRun_of_isIdentifierChar hid

/-- A list that begins like some arguments has in it what stands behind them. -/
theorem exists_behind (hlaid : Laid w args) (hsound : ∀ a ∈ args, a.token.Sound)
    (hlaid' : Laid (')' :: rest) more) (hsound' : ∀ a ∈ more, a.token.Sound)
    (h : texts more ++ ')' :: rest = texts args ++ w) :
    ∃ behind, Laid (')' :: rest) behind ∧ (∀ a ∈ behind, a.token.Sound) ∧
      texts behind ++ ')' :: rest = w := by
  induction args generalizing more with
  | nil => exact ⟨more, hlaid', hsound', h⟩
  | cons a args ih =>
    obtain ⟨ha, hsound⟩ := List.forall_mem_cons.1 hsound
    obtain ⟨hgap, hd, hs, hlaid⟩ := hlaid
    rw [texts_cons, List.append_assoc, List.append_assoc] at h
    cases more with
    | nil =>
      have hclose : Delimited (texts [] ++ ')' :: rest) := delimited_close
      exact absurd (h ▸ hclose) ha.not_delimited
    | cons b more =>
      obtain ⟨hb, hsound'⟩ := List.forall_mem_cons.1 hsound'
      obtain ⟨hgap', hd', hs', hlaid'⟩ := hlaid'
      rw [texts_cons, List.append_assoc, List.append_assoc] at h
      obtain ⟨-, hbehind⟩ :=
        run_unique hb.isRun ha.isRun (literalEnd_of_delimited hd') (literalEnd_of_delimited hd) h
      obtain ⟨-, hmore⟩ := gap_of_read hgap' hs' hgap hs hbehind
      exact ih hlaid hsound hlaid' hsound' hmore

theorem literalEnd_open : LiteralEnd ('(' :: s) := by
  rw [LiteralEnd, Option.eq_none_iff_forall_ne_some]
  rintro ⟨y, rest⟩ hread
  obtain ⟨heq, ⟨q, -, rfl⟩ | ⟨c, hc, rfl⟩⟩ := literalPiece_read_iff.1 hread
  · exact absurd (List.cons.inj heq).1 (by decide)
  · rw [← (List.cons.inj heq).1] at hc
    contradiction

/-- No word is called in a list. -/
theorem list_not_called (hlaid : Laid (')' :: rest) more) (hsound : ∀ a ∈ more, a.token.Sound)
    (hne : word ≠ []) (hword : ∀ c ∈ word, isIdentifierChar c) :
    texts more ++ ')' :: rest ≠ word ++ '(' :: s := by
  intro h
  cases more with
  | nil =>
    have hclose : Delimited (texts [] ++ ')' :: rest) := delimited_close
    exact not_delimited_append hne hword (h ▸ hclose)
  | cons a more =>
    obtain ⟨-, hd, -⟩ := hlaid
    rw [texts_cons, List.append_assoc, List.append_assoc] at h
    obtain ⟨-, hopen⟩ :=
      run_unique (hsound a List.mem_cons_self).isRun (isRun_of_isIdentifierChar hword)
      (literalEnd_of_delimited hd) literalEnd_open h
    rw [hopen] at hd
    exact absurd (delimited_cons.1 hd) (by decide)

/-- The name of a statement is all that stands between its parenthesis and a space. -/
theorem Invocation.WellFormed.name_before_space (h : i.WellFormed) (hname : IsName name)
    (heq : i.name ++ (i.afterName ++ (texts i.arguments ++ ')' :: rest)) = name ++ ' ' :: s) :
    i.afterName ++ (texts i.arguments ++ ')' :: rest) = ' ' :: s := by
  have hread := nameRule_close [] rest h.name
  have hname' : declaredName.read (name ++ ' ' :: s) = some (name, ' ' :: s) :=
    declaredName_read_append hname delimited_space.endsName
  rw [heq] at hread
  cases hkind : i.kind with
  | none =>
    -- The name of an environment variable would end before its brace.
    rw [hkind] at hread
    obtain ⟨hs, y, hy, -⟩ := envName_read_eq_some.1 hread
    rw [hs, hy, List.append_assoc, List.append_assoc, declaredName_read_env] at hname'
    obtain ⟨-, hbrace⟩ := Prod.mk.inj (Option.some.inj hname')
    exact absurd (List.cons.inj hbrace).1 (by decide)
  | some kind =>
    rw [hkind, nameRule, hname'] at hread
    exact (Prod.mk.inj (Option.some.inj hread)).2.symm

/-- A statement whose list would go on with a call is not read. -/
theorem statement_read_unclosed (hname : IsName name) (hlaid : Laid w args)
    (hsound : ∀ a ∈ args, a.token.Sound) (hs : Settled (texts args ++ w)) (hne : word ≠ [])
    (hword : ∀ c ∈ word, isIdentifierChar c) (hw : w = word ++ '(' :: t) :
    statement.read (kind.command.toList ++ '(' :: (name ++ ' ' :: (texts args ++ w))) = none := by
  rw [Option.eq_none_iff_forall_ne_some]
  rintro ⟨j, rest⟩ hread
  obtain ⟨heq, hj⟩ := wellFormed_of_statement hread
  have hopening : IsOpening (kind.command.toList ++ ['(']) :=
    ⟨_, [], [], rfl, isIdentifierChar_of_command (map_toLower_command (some kind)),
      isGap_nil, isGap_nil⟩
  have hopened :
      (kind.command.toList ++ ['(']) ++ (name ++ ' ' :: (texts args ++ w)) = j.text ++ rest := by
    rw [← heq]
    simp
  have hassoc : ∀ a b c d : Text, a ++ (b ++ '(' :: (c ++ d)) = (a ++ (b ++ '(' :: c)) ++ d := by
    simp
  have hsame := hopened.symm
  rw [Invocation.text_append, hassoc, hj.opening_unique hopening hname.settled hopened] at hsame
  have hbehind := hj.name_before_space hname (List.append_cancel_left hsame)
  have hspace : j.afterName ++ (texts j.arguments ++ ')' :: rest) = [' '] ++ (texts args ++ w) :=
    hbehind
  have hgap : IsGap [' '] := rfl
  obtain ⟨-, hlist⟩ := gap_of_read hj.afterName (settled_close_congr hj.settled) hgap hs hspace
  have hsound' : ∀ a ∈ j.arguments, a.token.Sound := fun a ha =>
    sound_of_accepts hj.accepts a.token (List.mem_map_of_mem ha)
  obtain ⟨behind, hlaid', hsound', hcall⟩ :=
    exists_behind hlaid hsound ((laid_congr (by rfl)).1 hj.laid) hsound' hlist
  exact list_not_called hlaid' hsound' hne hword (hcall.trans hw)

/-- Tokens in front of a text, with one space between them and a gap behind the last. -/
theorem exists_spaced (hne : toks ≠ []) (hsound : ∀ tok ∈ toks, tok.Sound)
    (hs : ∀ tok ∈ toks, Settled tok.text) (hg : IsGap g) (hd : Delimited (g ++ w))
    (hw : Settled w) :
    ∃ args, args.map Argument.token = toks ∧ texts args = texts (spaced toks) ++ g ∧
      Laid w args := by
  fun_induction spaced toks with
  | case1 => contradiction
  | case2 tok => exact ⟨[⟨tok, g⟩], rfl, by simp, hg, hd, hw, trivial⟩
  | case3 tok next toks ih =>
    obtain ⟨-, hsound⟩ := List.forall_mem_cons.1 hsound
    obtain ⟨-, hs⟩ := List.forall_mem_cons.1 hs
    obtain ⟨args, hargs, htexts, hlaid⟩ := ih (by simp) hsound hs
    have hnext : Settled (texts args ++ w) := settled_texts (hargs ▸ hsound) (hargs ▸ hs) hw
    exact ⟨⟨tok, [' ']⟩ :: args, by simp [hargs], by simp [htexts], rfl, delimited_space,
      hnext, hlaid⟩

open Scan in
theorem IsNamePart.isPlain {c : Char} (h : IsNamePart c) : IsPlain c := by
  obtain ⟨hquote, hopen, hclose, hhash⟩ := h.isQuiet
  have hblank : isBlank c = false := by
    rcases h with h | rfl | rfl | rfl
    · exact Bool.eq_false_iff.2 (narrow_isNameChar c h).1
    · decide
    · decide
    · decide
  exact ⟨by simp [isBare, hquote, hopen, hclose, hblank], hhash⟩

end Grammar

namespace Scan

variable {x rest : Text} {p : Option Char} {kind : Kind} {toks : List Token}

theorem isPlainRun_of_isIdentifierChar (h : ∀ c ∈ x, isIdentifierChar c) : IsPlainRun x :=
  isPlainRun_of_isPlain fun c hc =>
    ⟨isBare_of_isIdentifierChar (h c hc), (isQuiet_of_isIdentifierChar (h c hc)).2.2.2⟩

theorem isPlainRun_of_isName (h : IsName x) : IsPlainRun x := by
  apply isPlainRun_of_isPlain
  intro c hc
  have hread : declaredName.read (x ++ []) = some (x, []) :=
    declaredName_read_append h delimited_nil.endsName
  exact (isNamePart_of_declaredName hread c hc).isPlain

theorem line_dropLast : (line kind x toks).dropLast = kind.command.toList ++
    (['('] ++ (x ++ ([' '] ++ List.intercalate [' '] (toks.map Token.text)))) := by
  rw [line, List.dropLast_concat]
  simp

/-- A statement without its parenthesis is passed if it is not read. -/
theorem passed_unclosed (hname : IsName x) (hne : toks ≠ [])
    (htoks : ∀ y ∈ toks.map Token.text, IsPlainRun y ∧ y ≠ [])
    (hread : statement.read (kind.command.toList ++
      '(' :: (x ++ ' ' :: (List.intercalate [' '] (toks.map Token.text) ++ rest))) = none)
    (hend : EndsWord rest) (hrest : Uncalled rest) :
    ∃ r, Passed p (kind.command.toList ++
      (['('] ++ (x ++ ([' '] ++ List.intercalate [' '] (toks.map Token.text))))) r rest := by
  have hcommand : ∀ c ∈ kind.command.toList, isIdentifierChar c :=
    isIdentifierChar_of_command (map_toLower_command (some kind))
  obtain ⟨k, hk⟩ := passed_word (p := p) hcommand hread
  have hcalled : Uncalled (List.intercalate [' '] (toks.map Token.text) ++ rest) :=
    uncalled_intercalate htoks (by simpa using hne)
  obtain ⟨n, hn⟩ := (isPlainRun_of_isName hname).passed (p := some '(')
    (endsWord_cons.2 (by decide)) (uncalled_space.2 hcalled)
  obtain ⟨r, hr⟩ := passed_arguments (p := some ' ') htoks hend hrest
  have hopen : Passed k ['('] (some '(')
      (x ++ ' ' :: (List.intercalate [' '] (toks.map Token.text) ++ rest)) :=
    passed_of_not_mayBegin (by decide) (by simp [mayBegin])
  have hspace : Passed n [' '] (some ' ') (List.intercalate [' '] (toks.map Token.text) ++ rest) :=
    passed_of_not_mayBegin (by decide) (by simp [mayBegin])
  refine ⟨r, Passed.append (by simpa using hk) ?_⟩
  refine Passed.append (by simpa using hopen) ?_
  exact Passed.append (by simpa using hn) (hspace.append hr)

end Scan

open Scan

variable {u v : Statement}

theorem Grammar.sign_not_mem_reference {v : Text} {quoted : Bool} (h : IsIdentifier v) :
    '#' ∉ (Token.reference quoted v).text := by
  have hv : '#' ∉ v := fun hmem => absurd (h.isIdentifierChar '#' hmem) (by decide)
  cases quoted <;> simp [Token.text, Token.referenceText, hv]

/-- The tokens of a statement are passed if there is no number sign in its items. -/
theorem Statement.Content.WellFormed.isPlainRun {c : Statement.Content} {toks : List Token}
    (h : c.WellFormed) (hd : Decorated c.kind (c.items.map Item.Content.token) toks)
    (hsigns : ∀ x, .literal x ∈ c.items → '#' ∉ x) :
    ∀ y ∈ toks.map Token.text, IsPlainRun y ∧ y ≠ [] := by
  intro y hy
  obtain ⟨tok, htok, rfl⟩ := List.mem_map.1 hy
  have hsound := sound_of_accepts (h.accepts hd) tok htok
  refine ⟨isPlainRun_of_isRun hsound.isRun ?_, hsound.ne_nil⟩
  rcases hsound with hitem | ⟨w, rfl, -, hword⟩
  · rcases hitem.literal_or_reference with ⟨x, rfl⟩ | ⟨quoted, v, rfl⟩
    · have hmem : .literal x ∈ contents toks := List.mem_filterMap.2 ⟨_, htok, rfl⟩
      rw [hd.contents_eq, contents_map_token] at hmem
      exact hsigns x hmem
    · exact sign_not_mem_reference (isItem_reference_iff.1 hitem)
  · exact fun hmem => absurd (hword '#' hmem) (by decide)

/-- A statement that is not closed is passed where another one follows on the next line. -/
theorem Statement.Content.WellFormed.passed_unclosed {c : Statement.Content} {toks : List Token}
    {word t : Text} {p : Option Char} (h : c.WellFormed)
    (hd : Decorated c.kind (c.items.map Item.Content.token) toks)
    (hsigns : ∀ x, .literal x ∈ c.items → '#' ∉ x) (hne : word ≠ [])
    (hword : ∀ c ∈ word, isIdentifierChar c) :
    ∃ r, Passed p (line c.kind c.name toks).dropLast r ('\n' :: (word ++ '(' :: t)) := by
  have hsound := sound_of_accepts (h.accepts hd)
  have htoks : toks ≠ [] := by
    rintro rfl
    have hitems := hd.contents_eq
    rw [contents_map_token] at hitems
    exact h.nonempty hitems.symm
  have hword' : Settled (word ++ '(' :: t) := by
    obtain ⟨d, word, rfl⟩ := List.exists_cons_of_ne_nil hne
    have hd := hword d List.mem_cons_self
    exact settled_cons.2 ⟨(narrow_isIdentifierChar d hd).1, (isQuiet_of_isIdentifierChar hd).2.2.2⟩
  have hfeed : Uncalled ('\n' :: (word ++ '(' :: t)) :=
    (isPlainRun_of_isIdentifierChar hword).uncalled hne
  obtain ⟨args, rfl, htexts, hlaid⟩ :=
    exists_spaced (g := ['\n']) htoks hsound (h.settled_tokens hd) rfl
    (delimited_cons.2 (by decide)) hword'
  have hsettled : Settled (texts args ++ (word ++ '(' :: t)) :=
    settled_texts hsound (h.settled_tokens hd) hword'
  have hnone : statement.read (c.kind.command.toList ++
      '(' :: (c.name ++ ' ' :: (texts args ++ (word ++ '(' :: t)))) = none :=
    statement_read_unclosed h.name hlaid
      (fun a ha => hsound a.token (List.mem_map_of_mem ha)) hsettled hne hword
      rfl
  rw [htexts, texts_spaced, List.append_assoc] at hnone
  rw [line_dropLast]
  exact Scan.passed_unclosed h.name htoks (h.isPlainRun hd hsigns) hnone
    (endsWord_cons.2 (by decide)) hfeed

/-- A statement is found behind another one that is not closed, and nothing else. -/
theorem scan_unclosed (hu : u.content.WellFormed) (hv : v.content.WellFormed)
    (hsigns : ∀ x, .literal x ∈ u.content.items → '#' ∉ x) :
    (scan (u.render.dropLast ++ '\n' :: v.render)).map (fun st => (st.content, st.span)) =
      [(v.content, ⟨Text.size (u.render.dropLast ++ ['\n']),
        Text.size (u.render.dropLast ++ ['\n']) + Text.size v.render⟩)] := by
  have hlineu : u.render = line u.content.kind u.content.name u.content.tokens :=
    Statement.render_eq (by simpa [Statement.content] using hu.nonempty)
  have hlinev : v.render = line v.content.kind v.content.name v.content.tokens :=
    Statement.render_eq (by simpa [Statement.content] using hv.nonempty)
  have hword : ∀ c ∈ v.content.kind.command.toList, isIdentifierChar c :=
    isIdentifierChar_of_command (map_toLower_command (some v.content.kind))
  have hcall : ∃ t, v.render = v.content.kind.command.toList ++ '(' :: t := by
    rw [hlinev, line]
    simp
  obtain ⟨t, ht⟩ := hcall
  obtain ⟨r, hr⟩ :=
    hu.passed_unclosed (p := none) (t := t) (Statement.Content.decorated_tokens hu.nonempty) hsigns
    (by cases v.content.kind <;> decide) hword
  have hfeed : Passed r ['\n'] (some '\n') v.render :=
    passed_of_not_mayBegin (by decide) (by simp [mayBegin])
  rw [← ht, ← hlineu] at hr
  have hfound : places (statementsAt (Text.size (u.render.dropLast ++ ['\n'])) (segments (some '\n')
      (line v.content.kind v.content.name v.content.tokens ++ []))) = _ :=
    places_line hv (Statement.Content.decorated_tokens hv.nonempty) (by decide)
  rw [List.append_nil, ← hlinev, segments_nil] at hfound
  have hpassed := (Passed.append hr hfeed) 0
  rw [Nat.zero_add, List.append_assoc, List.singleton_append] at hpassed
  rw [scan, hpassed]
  exact hfound

/-- Both statements may even have the same text. -/
theorem scan_unclosed_library :
    (scan "add_library(core a.cpp\nadd_library(core a.cpp)".toList).map
      (fun st => (st.content, st.span)) =
      [(⟨.addLibrary, "core".toList, [.literal "a.cpp".toList]⟩, ⟨23, 46⟩)] := by
  have hwf : (Statement.content ⟨.addLibrary, "core".toList, [.literal "a.cpp".toList 0],
      ⟨0, 0⟩⟩).WellFormed := wellFormed_library
  have hsigns :
      ∀ x, .literal x ∈ (Statement.content ⟨.addLibrary, "core".toList, [.literal "a.cpp".toList 0],
      ⟨0, 0⟩⟩).items → '#' ∉ x := by
    intro x hx
    cases List.mem_singleton.1 hx
    decide
  convert scan_unclosed hwf hwf hsigns using 3
  · decide
  · rfl
  · decide

end SourceLists
