import SourceLists.Proofs.Insertion.Moved
import SourceLists.Proofs.Location
import SourceLists.Proofs.Rendering.Room

/-! Statements are read again from the text that they are written as. -/

namespace SourceLists
open Grammar Grammar.Argument

namespace Statement.Content
variable {c : Statement.Content} {toks : List Token}

/-- The tokens as which the items are written, all of one scope if there must be one. -/
def tokens (c : Content) : List Token :=
  match c.kind with
  | .targetSources => .keyword "PRIVATE".toList :: c.items.map Item.Content.token
  | .set | .addLibrary | .addExecutable => c.items.map Item.Content.token

theorem decorated_tokens (hne : c.items ≠ []) :
    Decorated c.kind (c.items.map Item.Content.token) c.tokens := by
  unfold tokens
  cases c.kind with
  | set => exact Or.inl rfl
  | addLibrary => exact ⟨[], Or.inl flags_nil, rfl⟩
  | addExecutable => exact ⟨[], flags_nil, rfl⟩
  | targetSources => exact .last (by decide) (by simpa using hne)

/-- A statement says what its name and the items among its arguments say. -/
theorem exists_statement {i : Invocation} (hkind : i.kind = some c.kind) (hname : i.name = c.name)
    (hd : Decorated c.kind (c.items.map Item.Content.token) (i.arguments.map Argument.token))
    (start : Nat) :
    ∃ st, i.statement? start = some st ∧ st.content = c ∧
      st.span = ⟨start, start + Text.size i.text⟩ := by
  refine ⟨_, by rw [Invocation.statement?, hkind]; rfl, ?_, rfl⟩
  rw [Statement.content, map_content_itemsAt, hd.contents_eq, contents_map_token, hname]

/-- A statement on one line says what it was written for. -/
theorem exists_statement_line (hd : Decorated c.kind (c.items.map Item.Content.token) toks)
    (start : Nat) :
    ∃ st, (Invocation.line c.kind c.name toks).statement? start = some st ∧ st.content = c ∧
      st.span = ⟨start, start + Text.size (line c.kind c.name toks)⟩ := by
  rw [← Invocation.text_line]
  exact exists_statement rfl rfl (map_token_spaced.symm ▸ hd) start

theorem WellFormed.parse_line (h : c.WellFormed)
    (hd : Decorated c.kind (c.items.map Item.Content.token) toks) :
    ∃ st, parse (line c.kind c.name toks) = .ok [st] ∧ st.content = c := by
  obtain ⟨st, hst, hsay, -⟩ := exists_statement_line hd 0
  have hread := statement_read_line (h.wellFormed_line hd) []
  refine ⟨st, parse_eq_singleton.2 ⟨[], _, [], ?_, rfl, ?_, hst⟩, hsay⟩
  · rw [Invocation.text_line, List.append_nil, List.nil_append]
  · rwa [Invocation.text_line]

end Statement.Content

variable {st : Statement} {s : Text}

theorem map_render_items : st.items.map Item.render =
    (st.content.items.map Item.Content.token).map Token.text := by
  rw [Statement.content, List.map_map, List.map_map]
  apply List.map_congr_left
  rintro (⟨x, start⟩ | ⟨v, span⟩) -
  · rfl
  · rfl

/-- A statement is written on one line. -/
theorem Statement.render_eq (hne : st.items ≠ []) :
    st.render = line st.kind st.name st.content.tokens := by
  have hcontent : st.content.kind = st.kind := rfl
  rw [Statement.render, renderItems, map_render_items, line, Statement.Content.tokens, hcontent]
  cases st.kind with
  | set | addLibrary | addExecutable => simp
  | targetSources =>
    obtain ⟨item, items, hitems⟩ := List.exists_cons_of_ne_nil hne
    simp [Statement.content, hitems, List.intercalate_cons_cons, Token.text]

/-- A statement that can be written is read again from its text, and so it is with any keywords
around its items that its kind allows. -/
theorem parse_decorated (h : st.content.WellFormed) :
    (∃ st', parse st.render = .ok [st'] ∧ st'.content = st.content) ∧
      ∀ toks, Decorated st.kind (st.items.map fun item => item.content.token) toks →
        ∃ st', parse (line st.kind st.name toks) = .ok [st'] ∧ st'.content = st.content := by
  constructor
  · rw [Statement.render_eq (by simpa [Statement.content] using h.nonempty)]
    exact h.parse_line (Statement.Content.decorated_tokens h.nonempty)
  · intro toks hd
    apply h.parse_line
    rwa [Statement.content, List.map_map]

theorem parse_decorated_library :
    (∃ st, parse "add_library(core a.cpp)".toList = .ok [st] ∧
      st.content = ⟨.addLibrary, "core".toList, [.literal "a.cpp".toList]⟩) ∧
    ∃ st, parse "add_library(core STATIC EXCLUDE_FROM_ALL a.cpp)".toList = .ok [st] ∧
      st.content = ⟨.addLibrary, "core".toList, [.literal "a.cpp".toList]⟩ := by
  have hrender :
      Statement.render ⟨.addLibrary, "core".toList, [.literal "a.cpp".toList 0], ⟨0, 0⟩⟩ =
      "add_library(core a.cpp)".toList := by decide
  have hline : line .addLibrary "core".toList [.keyword "STATIC".toList,
      .keyword "EXCLUDE_FROM_ALL".toList, .literal "a.cpp".toList] =
      "add_library(core STATIC EXCLUDE_FROM_ALL a.cpp)".toList := by decide
  have hflags : Flags [["STATIC", "SHARED", "MODULE"], ["EXCLUDE_FROM_ALL"]]
      [.keyword "STATIC".toList, .keyword "EXCLUDE_FROM_ALL".toList] :=
    .take (by decide) (.take (by decide) .nil)
  have hwf : (Statement.content ⟨.addLibrary, "core".toList, [.literal "a.cpp".toList 0],
      ⟨0, 0⟩⟩).WellFormed := wellFormed_library
  obtain ⟨hplain, hdecorated⟩ := parse_decorated hwf
  rw [hrender] at hplain
  have hflagged := hdecorated _ ⟨_, Or.inr hflags, rfl⟩
  exact ⟨hplain, hline ▸ hflagged⟩

/-- A statement for which the same is read from its text has no item that is taken for a flag. -/
theorem unflagged_of_parse {st' : Statement} (hne : st.items ≠ [])
    (hkind : st.kind ≠ .targetSources) (hparse : parse st.render = .ok [st'])
    (hsay : st'.content = st.content) : st.content.Unflagged := by
  obtain ⟨g, i, rest, hs, -, hread, hst⟩ := parse_eq_singleton.1 hparse
  obtain ⟨-, hwf⟩ := wellFormed_of_statement hread
  obtain ⟨hik, hcontent⟩ := content_of_statement? hst
  rw [hsay] at hcontent
  have hst' : st.kind = st'.kind := congrArg Statement.Content.kind hcontent
  have hname : st.name = i.name := congrArg Statement.Content.name hcontent
  have hitems : contents (i.arguments.map Argument.token) = st.content.items :=
    (congrArg Statement.Content.items hcontent).symm
  have htokens : st.content.tokens = st.content.items.map Item.Content.token := by
    unfold Statement.Content.tokens
    split
    · next hk => exact absurd hk hkind
    all_goals rfl
  have hlength : i.text.length ≤
      (line st'.kind i.name (st.content.items.map Item.Content.token)).length := by
    rw [← hst', ← hname, ← htokens, ← Statement.render_eq hne, hs]
    simp only [List.length_append]
    omega
  have hitem := isItem_of_line (by simpa [Statement.content] using hne) hwf hik hitems hlength
  have haccepts := hwf.accepts
  rw [hik] at haccepts
  rw [hcontent]
  exact (unflagged_iff hitem).1 (unflagged_of_accepts haccepts hitem)

/-- A statement of a script is read again from its own text exactly if none of its items is taken
for a flag there. -/
theorem parse_render_iff (h : st ∈ scan s) :
    (∃ st', parse st.render = .ok [st'] ∧ st'.content = st.content) ↔ st.content.Unflagged := by
  obtain ⟨k, hk⟩ := List.mem_iff_getElem?.1 h
  obtain ⟨pre, i, post, front, a, tail, hfound⟩ := Scan.exists_found hk
  have hne : st.items ≠ [] := by
    obtain ⟨kind, hkind, rfl⟩ := Option.map_eq_some_iff.1 hfound.statement
    exact exists_item_of_accepts (hkind ▸ hfound.wellFormed.accepts)
  constructor
  · rintro ⟨st', hparse, hsay⟩
    by_cases hkind : st.kind = .targetSources
    · have hck : st.content.kind = .targetSources := hkind
      exact ⟨by rw [hck]; intro w hw; contradiction, by rw [hck]; intro hset; contradiction⟩
    · exact unflagged_of_parse hne hkind hparse hsay
  · intro hu
    have hwf := Statement.Content.wellFormed_of_statement? hfound.wellFormed hfound.statement hu
    rw [Statement.render_eq hne]
    exact hwf.parse_line (Statement.Content.decorated_tokens hwf.nonempty)

theorem parse_render_flagged :
    ∃ st ∈ scan "add_library(core EXCLUDE_FROM_ALL STATIC a.cpp)".toList,
      ¬ ∃ st', parse st.render = .ok [st'] ∧ st'.content = st.content := by
  have hmem : Statement.mk .addLibrary "core".toList
      [.literal "STATIC".toList 34, .literal "a.cpp".toList 41] ⟨0, 47⟩ ∈
      scan "add_library(core EXCLUDE_FROM_ALL STATIC a.cpp)".toList := by decide +kernel
  refine ⟨_, hmem, fun h => ?_⟩
  exact ((parse_render_iff hmem).1 h).first "STATIC" (by decide) rfl

end SourceLists
