import SourceLists.Proofs.Location
import SourceLists.Proofs.Reading.Growth
import SourceLists.Proofs.Reading.Name
import SourceLists.Proofs.Scanning.Division

/-! Blanks and comments inserted next to an item. The statement says what it said, and what stands
behind is moved. -/

namespace SourceLists
open Grammar Grammar.Argument

/-- Blanks and closed comments, with a blank at the beginning. -/
structure IsLayout (u : Text) : Prop where
  gap : IsGap u
  blank : ∃ c ∈ u.head?, isBlank c

/-- An item of a text with `n` more bytes at `p`. -/
def Item.spread (p n : Nat) (item : Item) : Item :=
  if item.span.start < p then item else item.shifted n

/-- A statement with `n` more bytes inside of it, at `p`. -/
def Statement.spread (p n : Nat) (st : Statement) : Statement :=
  { st with items := st.items.map (Item.spread p n), span := ⟨st.span.start, st.span.stop + n⟩ }

variable {s u : Text} {p n start : Nat} {item : Item} {st : Statement}

theorem Item.content_spread : (item.spread p n).content = item.content := by
  rw [spread]
  split
  · rfl
  · cases item <;> rfl

theorem Statement.content_spread : (st.spread p n).content = st.content := by
  have hitems : (st.items.map (Item.spread p n)).map Item.content = st.items.map Item.content := by
    rw [List.map_map]
    exact List.map_congr_left fun _ _ => Item.content_spread
  rw [content, content, ← hitems]
  rfl

theorem IsLayout.delimited (h : IsLayout u) : Delimited (u ++ s) := by
  obtain ⟨c, hc, hblank⟩ := h.blank
  obtain ⟨v, rfl⟩ := List.head?_eq_some_iff.1 hc
  exact delimited_cons.2 (Or.inl hblank)

namespace Grammar

variable {g g' : Text} {i : Invocation} {front tail args : List Argument} {a : Argument}

theorem lt_of_mem_itemsAt (hsound : ∀ tok ∈ args.map Argument.token, tok.Sound)
    (h : item ∈ itemsAt start args) :
    item.span.start < start + Text.size (texts args) := by
  obtain ⟨front, a, tail, rfl, hitem⟩ := exists_of_mem_itemsAt h
  have hpos := mt Text.size_eq_zero.1 (hsound a.token (by simp)).ne_nil
  rw [Token.span_of_item? hitem, texts_append, texts_cons, Text.size_append, Text.size_append]
  simp only
  omega

theorem itemsAt_spread_before (hsound : ∀ tok ∈ args.map Argument.token, tok.Sound)
    (h : start + Text.size (texts args) ≤ p) :
    (itemsAt start args).map (Item.spread p n) = itemsAt start args := by
  have hbefore : ∀ item ∈ itemsAt start args, item.spread p n = id item := by
    intro item hitem
    exact if_pos (Nat.lt_of_lt_of_le (lt_of_mem_itemsAt hsound hitem) h)
  rw [List.map_congr_left hbefore, List.map_id]

theorem itemsAt_spread_behind (h : p ≤ start) :
    (itemsAt start args).map (Item.spread p n) = itemsAt (n + start) args := by
  rw [itemsAt_add]
  apply List.map_congr_left
  intro item hitem
  exact if_neg (Nat.not_lt_of_le (Nat.le_trans h (le_start_of_mem_itemsAt hitem)))

/-- In a wider gap no item is cut. -/
theorem itemsAt_widened {tok : Token} (hsound : ∀ t ∈ front.map Argument.token ++ [tok], t.Sound) :
    itemsAt start (front ++ ⟨tok, g ++ (u ++ g')⟩ :: tail) =
      (itemsAt start (front ++ ⟨tok, g ++ g'⟩ :: tail)).map
        (Item.spread (start + Text.size (texts front ++ (tok.text ++ g))) (Text.size u)) := by
  have hsplit :
      ∀ gap, itemsAt start (front ++ ⟨tok, gap⟩ :: tail) = itemsAt start (front ++ [⟨tok, []⟩]) ++
      itemsAt (start + (Text.size (texts front) + (Text.size tok.text + Text.size gap))) tail := by
    intro gap
    simp [itemsAt_append, itemsAt, Argument.text, Nat.add_assoc]
  rw [hsplit, hsplit, List.map_append, itemsAt_spread_before, itemsAt_spread_behind]
  · congr 2
    simp only [Text.size_append]
    omega
  · simp only [Text.size_append]
    omega
  · rwa [List.map_append]
  · simp only [texts_append, texts_cons, texts_nil, Text.size_append, Text.size_nil]
    omega

/-- A statement with a text more behind `z`, where none of its items is cut. -/
structure Invocation.Widened (i : Invocation) (z u : Text) (j : Invocation) : Prop where
  wellFormed : j.WellFormed
  kind : j.kind = i.kind
  name : j.name = i.name
  text : ∃ w, i.text = z ++ w ∧ j.text = z ++ (u ++ w)
  items : ∀ start, itemsAt (start + Text.size j.head) j.arguments =
    (itemsAt (start + Text.size i.head) i.arguments).map
      (Item.spread (start + Text.size z) (Text.size u))

/-- A gap can be wider, in which the old one is before or behind what is new. -/
theorem Invocation.WellFormed.widened_gap (h : i.WellFormed)
    (hargs : i.arguments = front ++ a :: tail) (hgap : a.gap = g ++ g') (hg : IsGap g)
    (hg' : IsGap g') (hu : IsLayout u) :
    i.Widened (i.head ++ (texts front ++ (a.token.text ++ g))) u
      { i with arguments := front ++ ⟨a.token, g ++ (u ++ g')⟩ :: tail } := by
  have hsound := sound_of_accepts h.accepts
  have hlaid := h.laid
  have haccepts := h.accepts
  rw [hargs] at hsound hlaid haccepts
  obtain ⟨-, hdelimited, hsettled, htail⟩ := hlaid.of_append
  -- The wide gap begins as the old one did, or with the blank of what is new.
  have hwide : Delimited ((g ++ (u ++ g')) ++ (texts tail ++ [')'])) := by
    cases g with
    | nil =>
      rw [List.nil_append, List.append_assoc]
      exact hu.delimited
    | cons c g =>
      rw [hgap] at hdelimited
      exact (delimited_congr (by rfl)).1 hdelimited
  refine ⟨?_, rfl, rfl, ⟨g' ++ (texts tail ++ [')']), ?_, ?_⟩, fun start => ?_⟩
  · exact h.replace hargs (hsound a.token (by simp)).ne_nil
      (hg.append (hu.gap.append hg')) hwide hsettled htail
      (by simpa using haccepts)
  · simp [Invocation.text, Invocation.body, hargs, Argument.text, hgap, texts]
  · simp [Invocation.text, Invocation.body, Invocation.head, Argument.text, texts]
  · obtain ⟨tok, gap⟩ := a
    obtain rfl : gap = g ++ g' := hgap
    have hfront : ∀ t ∈ front.map Argument.token ++ [tok], t.Sound := by
      intro t ht
      apply hsound
      rw [List.map_append, List.map_cons, ← List.singleton_append, ← List.append_assoc]
      exact List.mem_append_left _ ht
    rw [hargs, Text.size_append (s := i.head), ← Nat.add_assoc]
    exact itemsAt_widened hfront

/-- The name ends where it did if the gap behind it is wider. -/
theorem Invocation.WellFormed.name_widened (h : i.WellFormed) (hkind : i.kind ≠ none)
    (hu : IsLayout u) :
    (nameRule i.kind).read (i.name ++ ((i.afterName ++ u) ++ (texts i.arguments ++ [')']))) =
      some (i.name, (i.afterName ++ u) ++ (texts i.arguments ++ [')'])) := by
  have hname := h.name
  rcases List.eq_nil_or_concat' i.afterName with hnil | ⟨y, c, hy⟩
  · -- An item may have ended it before, such as one in quotes.
    obtain ⟨kind, hk⟩ := Option.ne_none_iff_exists'.1 hkind
    rw [hk] at hname ⊢
    rw [hnil, List.nil_append]
    exact declaredName_read_append (isName_of_declaredName hname) hu.delimited.endsName
  · have hc : isBlank c :=
      isBlank_of_mem_getLast? h.afterName (by rw [hy, List.getLast?_concat]; rfl)
    rw [hy, List.append_assoc] at hname
    rw [hy]
    simp only [List.append_assoc]
    exact nameRule_congr hname (delimited_cons.2 (Or.inl hc)) (delimited_cons.2 (Or.inl hc))

/-- Behind the name, the gap can be wider. -/
theorem Invocation.WellFormed.widened_name (h : i.WellFormed) (hkind : i.kind ≠ none)
    (hu : IsLayout u) :
    i.Widened i.head u { i with afterName := i.afterName ++ u } := by
  have hname := h.name_widened hkind hu
  refine ⟨⟨h.word, h.beforeParen, h.beforeName, hname, h.afterName.append hu.gap, h.settled, h.laid,
    h.accepts⟩, rfl, rfl, ⟨texts i.arguments ++ [')'], ?_, ?_⟩, fun start => ?_⟩
  · simp [Invocation.text, Invocation.body, texts]
  · simp [Invocation.text, Invocation.body, Invocation.head, texts]
  · rw [itemsAt_spread_behind (Nat.le_refl _)]
    congr 1
    simp only [Invocation.head, Text.size_append]
    omega

/-- Next to an item there is room for more layout. -/
theorem Invocation.WellFormed.exists_widened (h : i.WellFormed) (hkind : i.kind ≠ none)
    (hu : IsLayout u) (hitem : item ∈ itemsAt (start + Text.size i.head) i.arguments)
    (hp : p = item.span.start ∨ p = item.span.stop) :
    ∃ z j, start + Text.size z = p ∧ i.Widened z u j := by
  obtain ⟨front, a, tail, hargs, ha⟩ := exists_of_mem_itemsAt hitem
  have hspan := Token.span_of_item? ha
  have hlaid := h.laid
  rw [hargs] at hlaid
  rw [hspan] at hp
  rcases hp with rfl | rfl
  · rcases List.eq_nil_or_concat' front with rfl | ⟨front, b, rfl⟩
    · exact ⟨_, _, rfl, h.widened_name hkind hu⟩
    · rw [List.append_assoc] at hargs hlaid
      refine ⟨_, _, ?_, h.widened_gap hargs (List.append_nil _).symm hlaid.of_append.1 rfl hu⟩
      simp [Nat.add_assoc]
  · refine ⟨_, _, ?_, h.widened_gap hargs (List.nil_append _).symm rfl hlaid.of_append.1 hu⟩
    simp [Nat.add_assoc]

end Grammar

/-- Layout inside of a list does not matter. Next to an item, before or behind it, any blanks and
comments can be inserted that begin with a blank: the statement is read as it was, and what stands
behind is moved. -/
theorem parse_insert_layout (h : parse s = .ok [st]) (hname : st.name ≠ "ENV".toList)
    (hitem : item ∈ st.items) (hu : IsLayout u) (hp : p = item.span.start ∨ p = item.span.stop) :
    ∃ before after, s = before ++ after ∧ Text.size before = p ∧
      parse (before ++ (u ++ after)) = .ok [st.spread p (Text.size u)] ∧
      (st.spread p (Text.size u)).content = st.content := by
  obtain ⟨g, i, rest, rfl, hg, hread, hst⟩ := parse_eq_singleton.1 h
  obtain ⟨-, hwf⟩ := wellFormed_of_statement hread
  obtain ⟨kind, hk, rfl⟩ := Option.map_eq_some_iff.1 hst
  have hkind : i.kind ≠ none := by simp [hk]
  obtain ⟨z, j, rfl, hj⟩ := hwf.exists_widened hkind hu hitem hp
  obtain ⟨w, hi, hw⟩ := hj.text
  refine ⟨g ++ z, w ++ rest, by simp [hi], Text.size_append, ?_, Statement.content_spread⟩
  have hread' : statement.read (j.text ++ rest) = some (j, rest) := by
    refine hj.wellFormed.read_text fun _ => ?_
    exact hj.wellFormed.alternative_none (hj.kind ▸ hkind) (hj.name ▸ hname)
  refine parse_eq_singleton.2 ⟨g, j, rest, by simp [hw], hg, hread', ?_⟩
  have hsize : Text.size j.text = Text.size i.text + Text.size u := by
    rw [hi, hw, Text.size_append, Text.size_append, Text.size_append]
    omega
  rw [Invocation.statement?, hj.kind, hk, Option.map_some, hj.name, hj.items, hsize,
    ← Nat.add_assoc]
  rfl

/-- A comment with a parenthesis, a quote and a keyword, between a name and an item that follows it
closely. -/
theorem parse_insert_layout_commented :
    ∃ before after, "set(A\"b.h\" c.h PARENT_SCOPE)".toList = before ++ after ∧
      Text.size before = 5 ∧
      parse (before ++ ("\n# PARENT_SCOPE ) \"\n".toList ++ after)) =
        .ok [⟨.set, "A".toList, [.literal "\"b.h\"".toList 25, .literal "c.h".toList 31],
          ⟨0, 48⟩⟩] := by
  have hparse : parse "set(A\"b.h\" c.h PARENT_SCOPE)".toList =
      .ok [⟨.set, "A".toList, [.literal "\"b.h\"".toList 5, .literal "c.h".toList 11],
        ⟨0, 28⟩⟩] := by
    decide +kernel
  have hlayout : IsLayout "\n# PARENT_SCOPE ) \"\n".toList := ⟨rfl, '\n', rfl, rfl⟩
  obtain ⟨before, after, hs, hsize, hafter, -⟩ :=
    parse_insert_layout hparse (by decide) List.mem_cons_self hlayout (Or.inl rfl)
  exact ⟨before, after, hs, hsize, hafter⟩

end SourceLists
