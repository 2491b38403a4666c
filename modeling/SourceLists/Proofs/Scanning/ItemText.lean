import SourceLists.Proofs.Insertion.Reference
import SourceLists.Proofs.Scanning.ListStart

/-! What the text of an item can be. It is no word that is reserved where it stands. A number sign
is a part of it like any other character, unless the item would begin with one. -/

namespace SourceLists
open Grammar Grammar.Argument

variable {s x g after : Text} {item : Item} {st : Statement} {start : Nat} {i : Invocation}
  {front tail : List Argument} {a : Argument}

/-- An item that is found is an argument of a statement that is read. -/
structure Item.Written (s : Text) (st : Statement) (item : Item) (before : Text) (i : Invocation)
    (front : List Argument) (a : Argument) (tail : List Argument) (after : Text) : Prop where
  wellFormed : i.WellFormed
  kind : i.kind = some st.kind
  arguments : i.arguments = front ++ a :: tail
  item : a.token.item? (Text.size before) = some item
  source_eq : s = before ++ (a.token.text ++ (a.gap ++ (texts tail ++ ')' :: after)))

theorem exists_written (hst : st ∈ scan s) (hitem : item ∈ st.items) :
    ∃ before i front a tail after, item.Written s st before i front a tail after := by
  obtain ⟨before, i, after, hspelled, hstatement, hread⟩ := exists_read_of_scan hst
  obtain ⟨kind, hkind, rfl⟩ := Option.map_eq_some_iff.1 hstatement
  obtain ⟨front, a, tail, hargs, ha⟩ := exists_of_mem_itemsAt hitem
  rw [← Text.size_append, ← Text.size_append] at ha
  refine ⟨(before ++ i.head) ++ texts front, i, front, a, tail, after,
    (wellFormed_of_statement hread).2, hkind, hargs, ha, ?_⟩
  rw [hspelled.source_eq]
  simp [Invocation.text, Invocation.body, hargs, Argument.text, texts]

namespace Item.Written
variable {before : Text}

theorem laid (h : item.Written s st before i front a tail after) :
    Laid [')'] (front ++ a :: tail) := h.arguments ▸ h.wellFormed.laid

theorem stop_eq (h : item.Written s st before i front a tail after) :
    Text.size (before ++ a.token.text) = item.span.stop := by
  rw [Token.span_of_item? h.item, Text.size_append]

theorem token_eq (h : item.Written s st before i front a tail after)
    (hsay : item.content = .literal x) :
    a.token = .literal x := by
  have htoken := congrArg (Option.map Item.content) h.item
  rw [Token.map_content_item?, Option.map_some, hsay] at htoken
  exact Token.content?_eq_literal.1 htoken

theorem isItem (h : item.Written s st before i front a tail after) : a.token.IsItem := by
  have hmem : a.token ∈ i.arguments.map Argument.token := by simp [h.arguments]
  apply (sound_of_accepts h.wellFormed.accepts _ hmem).isItem
  rintro ⟨w, hw⟩
  have hitem := h.item
  rw [hw] at hitem
  contradiction

/-- What stands behind an item in the source, stands behind its argument. -/
theorem behind_eq {y z : Text} (h : item.Written s st before i front a tail after) (hs : s = y ++ z)
    (hsize : Text.size y = item.span.stop) : z = a.gap ++ (texts tail ++ ')' :: after) := by
  rw [h.source_eq, ← List.append_assoc] at hs
  exact (Text.append_inj_of_size hs (h.stop_eq.trans hsize.symm)).2.symm

end Item.Written

/-- A value of a variable is followed by another one, or by the flag, if it is written like the
flag. -/
theorem Grammar.exists_next_of_variableItems {toks : List Token} {front tail : List Token}
    (h : VariableItems toks) (heq : toks = front ++ .literal "PARENT_SCOPE".toList :: tail) :
    tail ≠ [] := by
  rintro rfl
  rw [heq] at h
  rcases h with ⟨-, hlast⟩ | ⟨items, -, hitems⟩
  · exact hlast (by simp)
  · have hlast := congrArg List.getLast? hitems
    simp at hlast

/-- No scope is an item, and no value of a variable is the flag behind which the list is closed. -/
theorem reserved_words (s : Text) : ∀ st ∈ scan s,
    (∀ x start, .literal x start ∈ st.items →
      x ∉ ["PRIVATE", "PUBLIC", "INTERFACE"].map String.toList) ∧
    (st.kind = .set → ∀ item ∈ st.items, item.content = .literal "PARENT_SCOPE".toList →
      ∀ before g after, s = before ++ (g ++ ')' :: after) → Text.size before = item.span.stop →
        ¬ IsGap g) := by
  intro st hst
  constructor
  · intro x start hitem
    obtain ⟨before, i, front, a, tail, after, hwritten⟩ := exists_written hst hitem
    have hscope := hwritten.isItem.text_not_scope
    rwa [hwritten.token_eq rfl] at hscope
  · intro hset item hitem hsay before g after hs hsize hgap
    obtain ⟨before', i, front, a, tail, after', hwritten⟩ := exists_written hst hitem
    have haccepts := hwritten.wellFormed.accepts
    have htoken := hwritten.token_eq hsay
    rw [hwritten.kind, hset] at haccepts
    have htail := exists_next_of_variableItems haccepts
      (by rw [hwritten.arguments, List.map_append, List.map_cons, htoken])
    obtain ⟨b, tail, rfl⟩ := List.exists_cons_of_ne_nil (mt List.map_eq_nil_iff.2 htail)
    obtain ⟨hgap', -, hsettled, -⟩ := hwritten.laid.of_append
    have hbehind := hwritten.behind_eq hs hsize
    obtain ⟨-, hclose⟩ :=
      gap_of_read hgap settled_close hgap' (settled_close_congr hsettled) hbehind
    -- The next argument would begin with the parenthesis.
    have hsound : b.token.Sound :=
      sound_of_accepts hwritten.wellFormed.accepts _ (by simp [hwritten.arguments])
    refine hsound.not_delimited (s := b.gap ++ (texts tail ++ ')' :: after')) ?_
    rw [texts_cons, List.append_assoc, List.append_assoc] at hclose
    rw [← hclose]
    exact delimited_close

/-- Only the last of two such words is the flag. -/
theorem reserved_words_repeated : ∃ st ∈ scan "set(A PARENT_SCOPE PARENT_SCOPE)".toList,
    st.items = [.literal "PARENT_SCOPE".toList 6] ∧ ¬ IsGap " PARENT_SCOPE".toList := by
  have hmem : ⟨.set, "A".toList, [.literal "PARENT_SCOPE".toList 6], ⟨0, 32⟩⟩ ∈
      scan "set(A PARENT_SCOPE PARENT_SCOPE)".toList := by decide +kernel
  refine ⟨_, hmem, rfl, ?_⟩
  exact (reserved_words _ _ hmem).2 rfl _
    (List.mem_singleton_self _) rfl "set(A PARENT_SCOPE".toList _ []
    (by decide) (by decide)

/-- An item does not begin like a comment, and nothing but a blank or the end of the list ends
it. -/
theorem item_delimited (hst : st ∈ scan s) (hitem : .literal x start ∈ st.items) :
    x.head? ≠ some '#' ∧ ∀ before after, s = before ++ (x ++ after) → Text.size before = start →
      ∃ c ∈ after.head?, isBlank c ∨ c = ')' := by
  obtain ⟨before', i, front, a, tail, after', hwritten⟩ := exists_written hst hitem
  have htoken := hwritten.token_eq rfl
  have hwf := hwritten.wellFormed
  constructor
  · have hmem : a ∈ i.arguments := by simp [hwritten.arguments]
    have hsettled := hwf.laid.settled_text hwf.settled a hmem hwritten.isItem.ne_nil
    rwa [hwritten.isItem.settled_iff, htoken] at hsettled
  · intro before after hs hsize
    obtain ⟨-, hdelimited, -, -⟩ := hwritten.laid.of_append
    have hstop : Text.size (before ++ x) = (Item.literal x start).span.stop := by
      rw [Text.size_append, hsize]
      rfl
    have hbehind := hwritten.behind_eq (by rw [hs, List.append_assoc]) hstop
    obtain ⟨c, y, hy⟩ := List.exists_cons_of_ne_nil
      (show a.gap ++ (texts tail ++ ')' :: after') ≠ [] by simp)
    have hhead : (a.gap ++ (texts tail ++ [')'])).head? = some c := by
      rw [← List.head?_cons (a := c) (l := y), ← hy]
      exact head?_append_congr (head?_append_congr rfl)
    exact ⟨c, by rw [hbehind, hy]; rfl, hdelimited c hhead⟩

/-- Of what can be read as an item, a literal that begins like a comment is all that cannot be
written. -/
theorem Item.Content.wellFormed_iff {item : Item.Content} :
    item.WellFormed ↔ item.token.IsItem ∧ ∀ x, item = .literal x → x.head? ≠ some '#' := by
  cases item with
  | literal x =>
    have hitem : (Item.Content.literal x).token.IsItem ↔ IsLiteral x := isItem_literal_iff
    rw [hitem]
    simp [WellFormed]
  | reference v =>
    have hitem : (Item.Content.reference v).token.IsItem ↔ IsIdentifier v := isItem_reference_iff
    rw [hitem]
    simp [WellFormed]

/-- A statement on one line is found. -/
theorem Statement.Content.WellFormed.exists_scan_line {c : Statement.Content} {toks : List Token}
    (h : c.WellFormed) (hd : Decorated c.kind (c.items.map Item.Content.token) toks) :
    ∃ st ∈ scan (line c.kind c.name toks), st.content = c := by
  obtain ⟨st, hst, hsay, -⟩ := Statement.Content.exists_statement_line hd 0
  have hmem := mem_scan_of_read (statement_read_line (h.wellFormed_line hd) []) hst
  rw [List.append_nil] at hmem
  exact ⟨st, hmem, hsay⟩

/-- A number sign makes a comment in front of an item only. Behind any character of an item it is a
part of the item. -/
theorem number_sign_in_item (s : Text) :
    (∀ st ∈ scan s, ∀ x start, .literal x start ∈ st.items → x.head? ≠ some '#' ∧
      ∀ before after, s = before ++ (x ++ after) → Text.size before = start →
        ∃ c ∈ after.head?, isBlank c ∨ c = ')') ∧
    ∀ (c : Statement.Content) (toks : List Token), c.Unflagged → IsName c.name → c.items ≠ [] →
      (∀ item ∈ c.items, item.token.IsItem) →
      (c.kind.declaresTarget → ∀ w ∈ ["IMPORTED", "ALIAS"],
        c.items.head? ≠ some (.literal w.toList)) →
      Decorated c.kind (c.items.map Item.Content.token) toks → s = line c.kind c.name toks →
      ((∃ st ∈ scan s, st.content = c) ↔ ∀ x, .literal x ∈ c.items → x.head? ≠ some '#') := by
  refine ⟨fun st hst x start hitem => item_delimited hst hitem,
    fun c toks hunflagged hname hne hitems hsources hd hs => ⟨?_, fun hsigns => ?_⟩⟩
  · rintro ⟨st, hst, rfl⟩ x hx
    obtain ⟨item, hitem, hsay⟩ := List.mem_map.1 hx
    cases item with
    | reference v span => contradiction
    | literal y start =>
      cases hsay
      exact (item_delimited hst hitem).1
  · have hwf : c.WellFormed :=
      { toUnflagged := hunflagged
        name := hname
        nonempty := hne
        items := fun item hitem =>
          Item.Content.wellFormed_iff.2 ⟨hitems item hitem, fun x hx => hsigns x (hx ▸ hitem)⟩
        sources := hsources }
    rw [hs]
    exact hwf.exists_scan_line hd

/-- The comment behind a source without a blank is none, and its words are sources. -/
theorem number_sign_in_item_glued : ∃ st ∈ scan "set(SOURCES a.cpp# first)".toList,
    st.content = ⟨.set, "SOURCES".toList, [.literal "a.cpp#".toList, .literal "first".toList]⟩ := by
  have hname : IsName "SOURCES".toList := ⟨by decide, isNameRun_of_isNameChar (by decide)⟩
  have hsource : (Token.literal "a.cpp#".toList).IsItem :=
    isItem_of_bare (by decide) (by decide) (by decide) (by decide)
  have hword : (Token.literal "first".toList).IsItem :=
    isItem_of_bare (by decide) (by decide) (by decide) (by decide)
  have hiff := (number_sign_in_item "set(SOURCES a.cpp# first)".toList).2
    ⟨.set, "SOURCES".toList, [.literal "a.cpp#".toList, .literal "first".toList]⟩
    [.literal "a.cpp#".toList, .literal "first".toList] ⟨by decide, by decide⟩ hname (by decide)
    (List.forall_mem_cons.2 ⟨hsource, List.forall_mem_singleton.2 hword⟩) (by decide)
      (Or.inl rfl) (by decide)
  exact hiff.2 (by simp)

end SourceLists
