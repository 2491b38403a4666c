import SourceLists.Proofs.Reading.Behind
import SourceLists.Proofs.Scanning.Division
import SourceLists.Proofs.Scanning.Leading
import SourceLists.Proofs.Spelling

/-! Where a list begins and with what. Nothing needs to stand between it and the name, as long as
the name could not go on there; and it is only by its first item that a target is known to have no
sources. -/

namespace SourceLists
open Grammar Grammar.Argument

variable {s x rest : Text} {c : Char} {i : Invocation} {st : Statement} {toks : List Token}
  {kind : Kind}

/-- A statement that is read at the beginning of a text is found there. -/
theorem mem_scan_of_read (h : statement.read s = some (i, rest)) (hst : i.statement? 0 = some st) :
    st ∈ scan s := by
  have hstep : Scan.Step none s _ _ _ := Scan.step_of_read h (by simp)
  rw [scan, hstep.segments_eq, Scan.statementsAt, Scan.Segment.statement?, hst]
  exact List.mem_append_left _ (List.mem_singleton_self st)

/-- A statement that is found is read where it stands. -/
theorem exists_read_of_scan (h : st ∈ scan s) : ∃ before i after, st.Spelled s before i after ∧
    i.statement? (Text.size before) = some st ∧
      statement.read (i.text ++ after) = some (i, after) := by
  obtain ⟨k, hk⟩ := List.mem_iff_getElem?.1 h
  obtain ⟨pre, i, post, front, a, tail, hfound⟩ := Scan.exists_found hk
  exact ⟨_, i, _, hfound.spelled, hfound.statement,
    Scan.statement_read_of_segments hfound.segments_eq⟩

/-- A statement that reaches over a whole source is all there is. -/
theorem Statement.Spelled.text_eq {before after : Text} (h : st.Spelled s before i after)
    (hspan : st.span = ⟨0, Text.size s⟩) : s = i.text ∧ after = [] := by
  obtain ⟨hbefore, hsize⟩ := Span.mk.inj (h.span.symm.trans hspan)
  obtain rfl := Text.size_eq_zero.1 hbefore
  have hs : s = i.text ++ after := h.source_eq
  rw [hs, Text.size_append, Text.size_nil, Nat.zero_add] at hsize
  have hafter : after = [] := Text.size_eq_zero.1 (by omega)
  exact ⟨by rw [hs, hafter, List.append_nil], hafter⟩

theorem Statement.Content.mem_iff_of_head? {c : Statement.Content} {item : Item.Content}
    (h : c.items.head? ≠ some item) : item ∈ c.items ↔ item ∈ c.items.tail := by
  cases hitems : c.items with
  | nil => rfl
  | cons first items =>
    rw [hitems] at h
    have hne : item ≠ first := fun heq => h (congrArg some heq.symm)
    simp [hne]

/-- Which targets are found is told by the first item. No other item is looked at, and so a target
that is `IMPORTED` is found if another word comes first. -/
theorem target_first_item (s : Text) :
    (∀ st ∈ scan s, st.kind.declaresTarget →
      (∀ w ∈ ["IMPORTED", "ALIAS"], st.content.items.head? ≠ some (.literal w.toList)) ∧
      (.literal "IMPORTED".toList ∉ st.content.items ∧
        st.content.items.head? ≠ some (.literal "ALIAS".toList) ↔
        .literal "IMPORTED".toList ∉ st.content.items.tail)) ∧
    ∀ (c : Statement.Content) (toks : List Token), c.kind.declaresTarget → IsName c.name →
      c.items ≠ [] →
      (∀ item ∈ c.items, item.WellFormed) → c.Unflagged →
      Decorated c.kind (c.items.map Item.Content.token) toks → s = line c.kind c.name toks →
      ((∃ st ∈ scan s, st.content = c) ↔
        ∀ w ∈ ["IMPORTED", "ALIAS"], c.items.head? ≠ some (.literal w.toList)) := by
  have hfirst : ∀ st ∈ scan s, st.kind.declaresTarget → ∀ w ∈ ["IMPORTED", "ALIAS"],
      st.content.items.head? ≠ some (.literal w.toList) := by
    intro st hst htarget
    obtain ⟨before, i, after, -, hstatement, hread⟩ := exists_read_of_scan hst
    exact Statement.Content.first_of_statement? (wellFormed_of_statement hread).2 hstatement htarget
  refine ⟨fun st hst htarget => ⟨hfirst st hst htarget, ?_⟩,
    fun c toks htarget hname hne hitems hunflagged hd hs => ⟨?_, fun hsources => ?_⟩⟩
  · have himported := hfirst st hst htarget "IMPORTED" (by decide)
    have halias := hfirst st hst htarget "ALIAS" (by decide)
    rw [Statement.Content.mem_iff_of_head? himported, and_iff_left halias]
  · rintro ⟨st, hst, rfl⟩
    exact hfirst st hst htarget
  · have hwf : c.WellFormed := ⟨hunflagged, hname, hne, hitems, fun _ => hsources⟩
    obtain ⟨st, hst, hsay, -⟩ := Statement.Content.exists_statement_line hd 0
    have hmem := mem_scan_of_read (statement_read_line (hwf.wellFormed_line hd) []) hst
    rw [List.append_nil, ← hs] at hmem
    exact ⟨st, hmem, hsay⟩

/-- The library type comes first, and is taken for a source. -/
theorem target_first_item_unknown : ∃ st ∈ scan "add_library(foo UNKNOWN IMPORTED)".toList,
    st.content = ⟨.addLibrary, "foo".toList,
      [.literal "UNKNOWN".toList, .literal "IMPORTED".toList]⟩ := by
  have hname : IsName "foo".toList := ⟨by decide, isNameRun_of_isNameChar (by decide)⟩
  have hunknown : (Item.Content.literal "UNKNOWN".toList).WellFormed :=
    Item.Content.wellFormed_bare (by decide) (by decide) (by decide) (by decide) (by decide)
  have himported : (Item.Content.literal "IMPORTED".toList).WellFormed :=
    Item.Content.wellFormed_bare (by decide) (by decide) (by decide) (by decide) (by decide)
  have hiff := (target_first_item "add_library(foo UNKNOWN IMPORTED)".toList).2
    ⟨.addLibrary, "foo".toList, [.literal "UNKNOWN".toList, .literal "IMPORTED".toList]⟩
    [.literal "UNKNOWN".toList, .literal "IMPORTED".toList] rfl hname (by decide)
    (List.forall_mem_cons.2 ⟨hunknown, List.forall_mem_singleton.2 himported⟩)
    ⟨by decide, by decide⟩ ⟨[], Or.inl flags_nil, rfl⟩ (by decide)
  exact hiff.2 (by decide)

namespace Grammar

theorem IsName.settled (h : IsName x) : Settled (x ++ s) := by
  obtain ⟨hne, hrun⟩ := h
  cases hrun with
  | nil => contradiction
  | @char c y hc hy =>
    refine settled_cons.2 ⟨(narrow_isNameChar c hc).1, ?_⟩
    rintro rfl
    contradiction
  | reference hv hy => exact settled_cons.2 (by decide)

/-- The list of a statement, up to the end of the statement. -/
def listText (toks : List Token) : Text := List.intercalate [' '] (toks.map Token.text) ++ [')']

/-- A statement with nothing between its name and its list. -/
def joined (kind : Kind) (name : Text) (toks : List Token) : Text :=
  kind.command.toList ++ '(' :: (name ++ listText toks)

def Invocation.joined (kind : Kind) (name : Text) (toks : List Token) : Invocation :=
  ⟨some kind, kind.command.toList, [], [], name, [], spaced toks⟩

theorem Invocation.text_joined :
    (Invocation.joined kind x toks).text = Grammar.joined kind x toks := by
  rw [Grammar.joined, listText, ← texts_spaced]
  simp [text, head, body, texts, joined]

/-- What stands behind the name of a statement. -/
def Invocation.behindName (i : Invocation) (after : Text) : Text :=
  i.afterName ++ (texts i.arguments ++ ')' :: after)

/-- A name is the longest there is. Where no gap ends it, an item does. -/
structure NameEnd (kind : Kind) (i : Invocation) (after : Text) : Prop where
  longest : EndsName (i.behindName after)
  apart : (∃ c ∈ (i.behindName after).head?, isBlank c ∨ c = '#') ↔ i.afterName ≠ []
  item : i.afterName = [] →
    kind ≠ .targetSources ∧ ∃ a more, i.arguments = a :: more ∧ a.token.IsItem

namespace Invocation.WellFormed

theorem endsName (h : i.WellFormed) (hkind : i.kind = some kind) (after : Text) :
    EndsName (i.behindName after) := by
  have hname := nameRule_close [] after h.name
  rw [hkind] at hname
  exact endsName_of_declaredName hname

theorem blank_iff (h : i.WellFormed) (after : Text) :
    (∃ c ∈ (i.behindName after).head?, isBlank c ∨ c = '#') ↔ i.afterName ≠ [] := by
  rw [behindName]
  cases hgap : i.afterName with
  | nil =>
    have hsettled : Settled (texts i.arguments ++ ')' :: after) := settled_close_congr h.settled
    simp only [List.nil_append, ne_eq, not_true_eq_false, iff_false]
    rintro ⟨c, hc, hblank | hhash⟩
    · exact (hsettled c hc).1 hblank
    · exact (hsettled c hc).2 hhash
  | cons c g =>
    have hisGap := h.afterName
    rw [hgap] at hisGap
    refine iff_of_true ⟨c, rfl, ?_⟩ (List.cons_ne_nil c g)
    by_cases hc : c = '#'
    · exact Or.inr hc
    · exact Or.inl (Scan.isGap_of_cons hisGap hc).1

end Invocation.WellFormed

/-- A keyword has only letters, with which a name would go on. -/
theorem Token.Sound.isItem_of_endsName {tok : Token} (h : tok.Sound)
    (hend : EndsName (tok.text ++ s)) :
    tok.IsItem := by
  rcases h with hitem | ⟨w, rfl, hne, hid⟩
  · exact hitem
  · obtain ⟨c, w, rfl⟩ := List.exists_cons_of_ne_nil hne
    exact absurd (isNameChar_of_isIdentifierChar (hid c List.mem_cons_self))
      (hend.not_isNameChar c rfl)

theorem Invocation.WellFormed.item_of_joined (h : i.WellFormed) (hkind : i.kind = some kind)
    (hgap : i.afterName = []) :
    kind ≠ .targetSources ∧ ∃ a more, i.arguments = a :: more ∧ a.token.IsItem := by
  have haccepts := h.accepts
  have hend := h.endsName hkind []
  rw [hkind] at haccepts
  obtain ⟨front, tok, tail, htoks, -⟩ := exists_last_of_accepts haccepts
  obtain ⟨a, more, hargs⟩ : ∃ a more, i.arguments = a :: more := by
    apply List.exists_cons_of_ne_nil
    intro hnil
    simp [hnil] at htoks
  rw [hargs, List.map_cons] at haccepts
  simp only [behindName, hgap, hargs, texts_cons, List.nil_append, List.append_assoc] at hend
  have hitem := (sound_of_accepts haccepts _ List.mem_cons_self).isItem_of_endsName hend
  refine ⟨?_, a, more, hargs, hitem⟩
  rintro rfl
  obtain ⟨w, -, items, hscope⟩ := exists_scope_of_scoped haccepts
  exact hitem.ne_keyword (List.cons.inj hscope).1

theorem Invocation.WellFormed.nameEnd (h : i.WellFormed) (hkind : i.kind = some kind)
    (after : Text) :
    NameEnd kind i after :=
  ⟨h.endsName hkind after, h.blank_iff after, h.item_of_joined hkind⟩

end Grammar

/-- What is read as a statement sets no environment variable. -/
theorem not_setsEnvironment_of_read (h : statement.read s = some (i, rest))
    (hkind : i.kind ≠ none) :
    ¬ SetsEnvironment s := by
  obtain ⟨hs, -⟩ := wellFormed_of_statement h
  obtain ⟨kind, hk⟩ := Option.ne_none_iff_exists'.1 hkind
  obtain ⟨st, hst⟩ : ∃ st, i.statement? 0 = some st := ⟨_, by rw [Invocation.statement?, hk]; rfl⟩
  have hparse : parse s = .ok [st] := parse_eq_singleton.2 ⟨[], i, rest, hs, isGap_nil, hs ▸ h, hst⟩
  rw [← parse_eq_nil, hparse]
  simp

theorem read_of_not_setsEnvironment (h : i.WellFormed) (henv : ¬ SetsEnvironment (i.text ++ rest)) :
    statement.read (i.text ++ rest) = some (i, rest) := by
  refine h.read_text fun _ => ?_
  rw [Option.eq_none_iff_forall_ne_some]
  rintro ⟨j, rest'⟩ hj
  obtain ⟨hkind, hs, hwf⟩ := alternative_read_eq_some.1 hj
  exact henv ⟨[], j, rest', hs, isGap_nil, hkind, hwf⟩

variable {c : Statement.Content}

theorem wellFormed_joined (h : c.WellFormed)
    (hd : Decorated c.kind (c.items.map Item.Content.token) toks)
    (hend : EndsName (listText toks)) :
    (Invocation.joined c.kind c.name toks).WellFormed := by
  rw [listText, ← texts_spaced] at hend
  exact wellFormed_spaced rfl (h.accepts hd) (h.settled_tokens hd)
    (declaredName_read_append h.name hend)

/-- Where a name stands right behind the parenthesis, the list stands behind it. -/
theorem behind_name_of_joined (h : i.WellFormed) (hname : IsName i.name)
    (htext : i.text = joined kind i.name toks) :
    i.behindName [] = listText toks := by
  have hopening : IsOpening (kind.command.toList ++ ['(']) :=
    ⟨_, [], [], rfl, isIdentifierChar_of_command (map_toLower_command (some kind)),
      isGap_nil, isGap_nil⟩
  have heq : (kind.command.toList ++ ['(']) ++ (i.name ++ listText toks) = i.text ++ [] := by
    rw [htext, joined]
    simp
  have hassoc : ∀ a b c d : Text, a ++ (b ++ '(' :: (c ++ d)) = (a ++ (b ++ '(' :: c)) ++ d := by
    simp
  have hsame := heq
  rw [Invocation.text_append, hassoc, ← h.opening_unique hopening hname.settled heq] at hsame
  exact (List.append_cancel_left (List.append_cancel_left hsame)).symm

/-- A statement can be read without anything between its name and its list exactly if the name could
not go on there, and no environment variable is set. -/
theorem exists_joined_iff (h : c.WellFormed)
    (hd : Decorated c.kind (c.items.map Item.Content.token) toks) :
    (∃ st ∈ scan (joined c.kind c.name toks), st.content = c ∧
      st.span = ⟨0, Text.size (joined c.kind c.name toks)⟩) ↔
      EndsName (listText toks) ∧ ¬ SetsEnvironment (joined c.kind c.name toks) := by
  constructor
  · rintro ⟨st, hst, rfl, hspan⟩
    obtain ⟨before, i, after, hspelled, hstatement, hread⟩ := exists_read_of_scan hst
    obtain ⟨hkind, -⟩ := content_of_statement? hstatement
    have hwf := (wellFormed_of_statement hread).2
    obtain ⟨htext, rfl⟩ := hspelled.text_eq hspan
    have hname : i.name = st.content.name := hspelled.name
    have hbehind : i.behindName [] = listText toks := by
      apply behind_name_of_joined hwf (hname ▸ h.name)
      rw [hname, htext]
    refine ⟨hbehind ▸ hwf.endsName hkind [], ?_⟩
    have henv := not_setsEnvironment_of_read hread (by simp [hkind])
    rwa [List.append_nil, ← htext] at henv
  · rintro ⟨hend, henv⟩
    rw [← Invocation.text_joined, ← List.append_nil (Invocation.text _)] at henv
    have hread := read_of_not_setsEnvironment (wellFormed_joined h hd hend) henv
    obtain ⟨st, hst, hsay, hspan⟩ :=
      Statement.Content.exists_statement (i := .joined c.kind c.name toks) rfl rfl
      (map_token_spaced.symm ▸ hd) 0
    have hmem := mem_scan_of_read hread hst
    rw [List.append_nil, Invocation.text_joined] at hmem
    rw [Invocation.text_joined, Nat.zero_add] at hspan
    exact ⟨st, hmem, hsay, hspan⟩

/-- A name ends where it could not go on, and there a gap or the list begins. So a token can be
divided into a name and an item, which is what becomes of the name of an environment variable
without its brace. -/
theorem names_end (s : Text) :
    (∀ st ∈ scan s, ∃ before i after, st.Spelled s before i after ∧ NameEnd st.kind i after ∧
      ¬ SetsEnvironment (i.text ++ after)) ∧
    ∀ (c : Statement.Content) (toks : List Token), c.WellFormed →
      Decorated c.kind (c.items.map Item.Content.token) toks → s = joined c.kind c.name toks →
      ((∃ st ∈ scan s, st.content = c ∧ st.span = ⟨0, Text.size s⟩) ↔
        EndsName (listText toks) ∧ ¬ SetsEnvironment s) := by
  refine ⟨fun st hst => ?_, fun c toks hwf hd hs => hs ▸ exists_joined_iff hwf hd⟩
  obtain ⟨before, i, after, hspelled, hstatement, hread⟩ := exists_read_of_scan hst
  obtain ⟨hkind, -⟩ := content_of_statement? hstatement
  exact ⟨before, i, after, hspelled, (wellFormed_of_statement hread).2.nameEnd hkind after,
    not_setsEnvironment_of_read hread (by simp [hkind])⟩

theorem names_end_brace : ∃ st ∈ scan "set(ENV\x7bX a)".toList,
    st.content = ⟨.set, "ENV".toList, [.literal "\x7bX".toList, .literal "a".toList]⟩ := by
  have hbrace : (Item.Content.literal "\x7bX".toList).WellFormed :=
    Item.Content.wellFormed_bare (by decide) (by decide) (by decide) (by decide) (by decide)
  have hvalue : (Item.Content.literal "a".toList).WellFormed :=
    Item.Content.wellFormed_bare (by decide) (by decide) (by decide) (by decide) (by decide)
  have hwf : Statement.Content.WellFormed
      ⟨.set, "ENV".toList, [.literal "\x7bX".toList, .literal "a".toList]⟩ :=
    { first := by decide
      last := by decide
      name := ⟨by decide, isNameRun_of_isNameChar (by decide)⟩
      nonempty := by decide
      items := List.forall_mem_cons.2 ⟨hbrace, List.forall_mem_singleton.2 hvalue⟩
      sources := by decide }
  have hend : EndsName (listText [.literal "\x7bX".toList, .literal "a".toList]) := by decide
  have henv : ¬ SetsEnvironment "set(ENV\x7bX a)".toList := by
    rw [← parse_eq_nil]
    decide +kernel
  obtain ⟨st, hst, hsay, -⟩ := ((names_end "set(ENV\x7bX a)".toList).2 _
    [.literal "\x7bX".toList, .literal "a".toList] hwf (Or.inl rfl) (by decide)).2 ⟨hend, henv⟩
  exact ⟨st, hst, hsay⟩

end SourceLists
