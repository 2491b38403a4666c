import SourceLists.Proofs.Reading.Growth
import SourceLists.Proofs.Rendering.WellFormed

/-! Statements on one line are read as they were meant. -/

namespace SourceLists
open Grammar Grammar.Argument

namespace Grammar

variable {tok : Token} {toks : List Token} {args : List Argument} {rest : Text} {kind : Kind}
  {name : Text}

/-- Tokens with one space between them. -/
def spaced : List Token → List Argument
  | [] => []
  | [tok] => [⟨tok, []⟩]
  | tok :: next :: toks => ⟨tok, [' ']⟩ :: spaced (next :: toks)

/-- A statement with a space behind its name and between its arguments. -/
def Invocation.line (kind : Kind) (name : Text) (toks : List Token) : Invocation :=
  ⟨some kind, kind.command.toList, [], [], name, [' '], spaced toks⟩

/-- A statement on one line, with its items and keywords. -/
def line (kind : Kind) (name : Text) (toks : List Token) : Text :=
  kind.command.toList ++ ['('] ++ name ++ [' '] ++
    List.intercalate [' '] (toks.map Token.text) ++ [')']

theorem map_token_spaced : (spaced toks).map Argument.token = toks := by
  fun_induction spaced toks with
  | case1 => rfl
  | case2 => rfl
  | case3 tok next toks ih => rw [List.map_cons, ih]

theorem texts_spaced : texts (spaced toks) = List.intercalate [' '] (toks.map Token.text) := by
  fun_induction spaced toks with
  | case1 => rfl
  | case2 tok => simp [List.intercalate_singleton]
  | case3 tok next toks ih => simp [ih, List.intercalate_cons_cons]

theorem Invocation.text_line :
    (Invocation.line kind name toks).text = Grammar.line kind name toks := by
  rw [Grammar.line, ← texts_spaced]
  simp [text, head, body, texts, line]

/-- Arguments do not begin with a gap if the first one does not. -/
theorem settled_texts (hsound : ∀ tok ∈ args.map Argument.token, tok.Sound)
    (hs : ∀ tok ∈ args.map Argument.token, Settled tok.text) (hrest : Settled rest) :
    Settled (texts args ++ rest) := by
  cases args with
  | nil => exact hrest
  | cons a args =>
    rw [texts_cons, List.append_assoc]
    exact (settled_append (hsound a.token List.mem_cons_self).ne_nil).2
      (hs a.token List.mem_cons_self)

theorem laid_spaced (hsound : ∀ tok ∈ toks, tok.Sound) (hs : ∀ tok ∈ toks, Settled tok.text)
    (hd : Delimited rest) (hrest : Settled rest) : Laid rest (spaced toks) := by
  fun_induction spaced toks with
  | case1 => trivial
  | case2 tok => exact ⟨rfl, hd, hrest, trivial⟩
  | case3 tok next toks ih =>
    obtain ⟨-, hsound⟩ := List.forall_mem_cons.1 hsound
    obtain ⟨-, hs⟩ := List.forall_mem_cons.1 hs
    have hnext : Settled (texts (spaced (next :: toks)) ++ rest) :=
      settled_texts (by rwa [map_token_spaced]) (by rwa [map_token_spaced]) hrest
    exact ⟨rfl, delimited_space, hnext, ih hsound hs⟩

/-- A token opens no comment if what it says can be written. -/
theorem Token.Sound.settled (h : tok.Sound) (hc : ∀ item ∈ tok.content?, item.WellFormed) :
    Settled tok.text := by
  rcases h with hi | ⟨w, rfl, hne, hid⟩
  · rcases hi.literal_or_reference with ⟨x, rfl⟩ | ⟨quoted, v, rfl⟩
    · exact (hc (.literal x) rfl).settled
    · rw [hi.settled_iff]
      cases quoted <;> simp [Token.text, Token.referenceText]
  · obtain ⟨d, w, rfl⟩ := List.exists_cons_of_ne_nil hne
    refine settled_cons.2 ⟨(narrow_isIdentifierChar d (hid d List.mem_cons_self)).1, ?_⟩
    rintro rfl
    exact absurd (hid '#' List.mem_cons_self) (by decide)

/-- A statement is well-formed if its name is read from what stands before its arguments. -/
theorem wellFormed_spaced {g : Text} (hg : IsGap g) (haccepts : Accepts (some kind) toks)
    (hs : ∀ tok ∈ toks, Settled tok.text)
    (hname : declaredName.read (name ++ (g ++ (texts (spaced toks) ++ [')']))) =
      some (name, g ++ (texts (spaced toks) ++ [')']))) :
    (Invocation.mk (some kind) kind.command.toList [] [] name g (spaced toks)).WellFormed where
  word := map_toLower_command (some kind)
  beforeParen := rfl
  beforeName := rfl
  name := hname
  afterName := hg
  settled := settled_texts (by rw [map_token_spaced]; exact sound_of_accepts haccepts)
    (by rwa [map_token_spaced]) settled_close
  laid := laid_spaced (sound_of_accepts haccepts) hs delimited_close settled_close
  accepts := by
    rw [map_token_spaced]
    exact haccepts

/-- A statement on one line is well-formed. -/
theorem wellFormed_line (hname : IsName name) (haccepts : Accepts (some kind) toks)
    (hs : ∀ tok ∈ toks, Settled tok.text) : (Invocation.line kind name toks).WellFormed :=
  wellFormed_spaced rfl haccepts hs (declaredName_read_append hname delimited_space.endsName)

theorem statement_read_line (h : (Invocation.line kind name toks).WellFormed) (rest : Text) :
    statement.read (line kind name toks ++ rest) = some (Invocation.line kind name toks, rest) := by
  rw [← Invocation.text_line]
  refine h.read_text fun _ => ?_
  rw [Option.eq_none_iff_forall_ne_some]
  rintro ⟨j, rest'⟩ hread
  -- The name is followed by a space, not by a brace.
  obtain ⟨-, y, hy⟩ := h.env_of_alternative (by simp [Invocation.line]) hread
  exact absurd (List.cons.inj hy).1 (by decide)

end Grammar

namespace Statement.Content
variable {c : Statement.Content} {toks : List Token}

/-- No token of such a statement opens a comment. -/
theorem WellFormed.settled_tokens (h : c.WellFormed)
    (hd : Decorated c.kind (c.items.map Item.Content.token) toks) :
    ∀ tok ∈ toks, Settled tok.text := by
  intro tok htok
  apply (sound_of_accepts (h.accepts hd) tok htok).settled
  intro item hitem
  have hmem : item ∈ contents toks := List.mem_filterMap.2 ⟨tok, htok, hitem⟩
  rw [hd.contents_eq, contents_map_token] at hmem
  exact h.items item hmem

theorem WellFormed.wellFormed_line (h : c.WellFormed)
    (hd : Decorated c.kind (c.items.map Item.Content.token) toks) :
    (Invocation.line c.kind c.name toks).WellFormed :=
  Grammar.wellFormed_line h.name (h.accepts hd) (h.settled_tokens hd)

end Statement.Content
end SourceLists
