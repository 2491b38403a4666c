import SourceLists.Proofs.Reading.Decoration
import SourceLists.Proofs.Reading.Payload
import SourceLists.Proofs.Reading.Run
import SourceLists.Proofs.Reading.Script
import SourceLists.Script.Render

/-! What a statement must say to be read again from its own text. -/

namespace SourceLists
open Grammar

/-- The token by which an item is written. -/
def Item.Content.token : Item.Content → Token
  | literal x => .literal x
  | reference v => .reference false v

/-- The item can be written, and opens no comment. -/
def Item.Content.WellFormed : Item.Content → Prop
  | literal x => IsLiteral x ∧ x.head? ≠ some '#'
  | reference v => IsIdentifier v

namespace Statement.Content

/-- No item is one of the flags that can stand in its place. -/
structure Unflagged (c : Content) : Prop where
  first : ∀ w ∈ c.kind.flags, c.items.head? ≠ some (.literal w.toList)
  last : c.kind = .set → c.items.getLast? ≠ some (.literal "PARENT_SCOPE".toList)

/-- The statement can be written so that it is the same when it is read. -/
structure WellFormed (c : Content) : Prop extends Unflagged c where
  name : IsName c.name
  nonempty : c.items ≠ []
  items : ∀ item ∈ c.items, item.WellFormed
  sources : c.kind.declaresTarget → ∀ w ∈ ["IMPORTED", "ALIAS"],
    c.items.head? ≠ some (.literal w.toList)

end Statement.Content

namespace Grammar
open Argument

variable {tok : Token} {toks items : List Token} {args : List Argument} {words : List String}
  {kind : Kind} {start : Nat} {x rest : Text} {i : Invocation} {st : Statement}

/-- What an item says; keywords say nothing. -/
def Token.content? : Token → Option Item.Content
  | keyword _ => none
  | literal x => some (.literal x)
  | reference _ v => some (.reference v)

/-- What the items among some tokens say. -/
def contents (toks : List Token) : List Item.Content := toks.filterMap Token.content?

theorem contents_append (more : List Token) :
    contents (toks ++ more) = contents toks ++ contents more :=
  List.filterMap_append

theorem Token.map_content_item? : (tok.item? start).map Item.content = tok.content? := by
  cases tok <;> rfl

theorem map_content_itemsAt :
    (itemsAt start args).map Item.content = contents (args.map Argument.token) := by
  induction args generalizing start with
  | nil => rfl
  | cons a args ih =>
    rw [itemsAt, List.map_append, ih, ← Option.toList_map, Token.map_content_item?,
      contents, contents, List.map_cons, List.filterMap_cons]
    cases a.token.content? <;> rfl

theorem content_of_statement? (h : i.statement? start = some st) :
    i.kind = some st.kind ∧
      st.content = ⟨st.kind, i.name, contents (i.arguments.map Argument.token)⟩ := by
  obtain ⟨kind, hkind, rfl⟩ := Option.map_eq_some_iff.1 h
  exact ⟨hkind, by rw [Statement.content, map_content_itemsAt]⟩

theorem Flags.contents_eq_nil {groups : List (List String)} {flags : List Token}
    (h : Flags groups flags) : contents flags = [] := by
  rw [contents, List.filterMap_eq_nil_iff]
  intro tok htok
  obtain ⟨w, -, rfl⟩ := h.exists_keyword tok htok
  rfl

theorem Grouped.contents_eq (h : Grouped items toks) : contents toks = contents items := by
  induction h with
  | last => rfl
  | cons _ _ _ ih =>
    rw [contents_append, ← ih, ← contents_append]
    rfl

/-- The keywords around the items of a statement say nothing. -/
theorem Decorated.contents_eq (h : Decorated kind items toks) : contents toks = contents items := by
  cases kind with
  | set =>
    rcases h with rfl | rfl
    · rfl
    · rw [contents_append]
      exact List.append_nil _
  | addLibrary =>
    obtain ⟨flags, hf | hf, rfl⟩ := h
    all_goals rw [contents_append, hf.contents_eq_nil, List.nil_append]
  | addExecutable =>
    obtain ⟨flags, hf, rfl⟩ := h
    rw [contents_append, hf.contents_eq_nil, List.nil_append]
  | targetSources => exact h.contents_eq

theorem contents_map_token (cs : List Item.Content) :
    contents (cs.map Item.Content.token) = cs := by
  have hsome : Token.content? ∘ Item.Content.token = some := by
    funext c
    cases c <;> rfl
  rw [contents, List.filterMap_map, hsome, List.filterMap_some]

theorem eq_bind_of_map_eq {o : Option Token} {o' : Option Item.Content}
    (h : o.map Token.content? = o'.map some) : o' = o.bind Token.content? := by
  cases o <;> cases o' <;> simp_all

section items
variable (hi : ∀ tok ∈ items, tok.IsItem)
include hi

theorem map_content?_eq : items.map Token.content? = (contents items).map some := by
  induction items with
  | nil => rfl
  | cons tok items ih =>
    obtain ⟨ht, hi⟩ := List.forall_mem_cons.1 hi
    rw [contents, List.map_cons, List.filterMap_cons, ih hi]
    rcases ht.literal_or_reference with ⟨x, rfl⟩ | ⟨quoted, v, rfl⟩ <;> rfl

theorem head?_contents : (contents items).head? = items.head?.bind Token.content? := by
  apply eq_bind_of_map_eq
  rw [← List.head?_map, ← List.head?_map, map_content?_eq hi]

theorem getLast?_contents : (contents items).getLast? = items.getLast?.bind Token.content? := by
  apply eq_bind_of_map_eq
  rw [← List.getLast?_map, ← List.getLast?_map, map_content?_eq hi]

end items

theorem Token.content?_eq_literal : tok.content? = some (.literal x) ↔ tok = .literal x := by
  cases tok <;> simp [content?]

/-- Whether the first item is a word can be told from what it says. -/
theorem first_not_mem_iff (hw : PlainWords words) (hi : ∀ tok ∈ items, tok.IsItem) :
    (∀ tok ∈ items.head?, tok.text ∉ words.map String.toList) ↔
      ∀ w ∈ words, (contents items).head? ≠ some (.literal w.toList) := by
  cases items with
  | nil => simp [contents]
  | cons tok items =>
    have hsay : ∀ w ∈ words, tok.text = w.toList ↔
        (contents (tok :: items)).head? = some (.literal w.toList) := by
      intro w hmem
      rw [(hi tok List.mem_cons_self).text_eq_iff (hw _ (List.mem_map_of_mem hmem)).2,
        head?_contents hi, List.head?_cons, Option.bind_some, Token.content?_eq_literal]
    constructor
    · intro h w hmem heq
      exact h tok rfl (List.mem_map.2 ⟨w, hmem, ((hsay w hmem).2 heq).symm⟩)
    · rintro h _ ⟨⟩ hmem
      obtain ⟨w, hw', heq⟩ := List.mem_map.1 hmem
      exact h w hw' ((hsay w hw').1 heq.symm)

theorem last_ne_iff (hi : ∀ tok ∈ items, tok.IsItem) :
    items.getLast? ≠ some (.literal x) ↔ (contents items).getLast? ≠ some (.literal x) := by
  rw [getLast?_contents hi, Ne, Ne, Option.bind_eq_some_iff]
  simp only [Token.content?_eq_literal, exists_eq_right]

theorem plainWords_flags (kind : Kind) : PlainWords kind.flags := by cases kind <;> decide

theorem unflagged_iff (hi : ∀ tok ∈ items, tok.IsItem) :
    Unflagged kind items ↔ Statement.Content.Unflagged ⟨kind, x, contents items⟩ := by
  constructor
  · rintro ⟨hfirst, hlast⟩
    exact ⟨(first_not_mem_iff (plainWords_flags kind) hi).1 hfirst,
      fun h => (last_ne_iff hi).1 (hlast h)⟩
  · rintro ⟨hfirst, hlast⟩
    exact ⟨(first_not_mem_iff (plainWords_flags kind) hi).2 hfirst,
      fun h => (last_ne_iff hi).2 (hlast h)⟩

theorem Token.IsItem.settled_iff (h : tok.IsItem) :
    Settled tok.text ↔ tok.text.head? ≠ some '#' := by
  obtain ⟨⟨c, y, hy, hc⟩, -⟩ := listItem_edges h
  simp [hy, settled_cons, hc.not_isBlank]

variable {c : Item.Content}

/-- What an item says that was read can be written. -/
theorem Token.IsItem.wellFormed (h : tok.IsItem) (hs : Settled tok.text)
    (hc : tok.content? = some c) :
    c.WellFormed := by
  cases tok with
  | keyword w => contradiction
  | literal x =>
    cases hc
    exact ⟨isItem_literal_iff.1 h, h.settled_iff.1 hs⟩
  | reference quoted v =>
    cases hc
    exact isItem_reference_iff.1 h

end Grammar

namespace Item.Content.WellFormed
variable {item : Item.Content}

theorem isItem (h : item.WellFormed) : item.token.IsItem := by
  cases item with
  | literal x => exact isItem_literal_iff.2 h.1
  | reference v => exact isItem_reference_iff.2 h

theorem settled (h : item.WellFormed) : Settled item.token.text := by
  rw [h.isItem.settled_iff]
  cases item with
  | literal x => exact h.2
  | reference v => simp [Item.Content.token, Token.text, Token.referenceText]

end Item.Content.WellFormed

namespace Statement.Content
variable {c : Statement.Content} {toks : List Token} {i : Invocation} {st : Statement} {start : Nat}

theorem WellFormed.isItem (h : c.WellFormed) :
    ∀ tok ∈ c.items.map Item.Content.token, tok.IsItem := by
  intro tok htok
  obtain ⟨item, hitem, rfl⟩ := List.mem_map.1 htok
  exact (h.items item hitem).isItem

/-- Any keywords that the kind allows may be put around the items. -/
theorem WellFormed.accepts (h : c.WellFormed)
    (hd : Decorated c.kind (c.items.map Item.Content.token) toks) : Accepts (some c.kind) toks := by
  have hi : Items (c.items.map Item.Content.token) := ⟨by simpa using h.nonempty, h.isItem⟩
  refine accepts_of_decorated hi ?_ ?_ hd
  · rw [unflagged_iff (x := c.name) h.isItem, contents_map_token]
    exact h.toUnflagged
  · intro htarget
    refine ⟨hi, (first_not_mem_iff plainWords_importedOrAlias h.isItem).2 ?_⟩
    rw [contents_map_token]
    exact h.sources htarget

/-- A target that was read does not begin its list with a word behind which there are no sources. -/
theorem first_of_statement? (hwf : i.WellFormed) (hst : i.statement? start = some st)
    (hk : st.kind.declaresTarget) :
    ∀ w ∈ ["IMPORTED", "ALIAS"], st.content.items.head? ≠ some (.literal w.toList) := by
  obtain ⟨hkind, hcontent⟩ := content_of_statement? hst
  have haccepts := hwf.accepts
  rw [hkind] at haccepts
  obtain ⟨items, hi, hd, htarget⟩ := exists_decorated haccepts
  rw [hcontent, hd.contents_eq]
  exact (first_not_mem_iff plainWords_importedOrAlias hi.2).1 (htarget hk).2

/-- A statement that was read can be written again, if no item is one of the flags. -/
theorem wellFormed_of_statement? (hwf : i.WellFormed) (hst : i.statement? start = some st)
    (hu : st.content.Unflagged) : st.content.WellFormed := by
  have hsources := first_of_statement? hwf hst
  obtain ⟨hkind, hcontent⟩ := content_of_statement? hst
  have hname := hwf.name
  have haccepts := hwf.accepts
  rw [hkind] at hname haccepts
  obtain ⟨items, hi, hd, -⟩ := exists_decorated haccepts
  rw [hd.contents_eq] at hcontent
  rw [hcontent] at hu hsources ⊢
  refine ⟨hu, isName_of_declaredName hname, ?_, ?_, hsources⟩
  · intro hnil
    have hmap := map_content?_eq hi.2
    rw [show contents items = [] from hnil, List.map_nil, List.map_eq_nil_iff] at hmap
    exact hi.1 hmap
  · intro item hitem
    change item ∈ contents items at hitem
    rw [← hd.contents_eq] at hitem
    obtain ⟨tok, htok, hsay⟩ := List.mem_filterMap.1 hitem
    have hsound := sound_of_accepts haccepts tok htok
    have hitem : tok.IsItem := by
      apply hsound.isItem
      rintro ⟨w, rfl⟩
      contradiction
    obtain ⟨a, ha, rfl⟩ := List.mem_map.1 htok
    exact hitem.wellFormed (hwf.laid.settled_text hwf.settled a ha hsound.ne_nil) hsay

end Statement.Content

/-- A text without blanks, quotes and parentheses is written as it is. -/
theorem Item.Content.wellFormed_bare {x : Text} (hne : x ≠ []) (hx : ∀ c ∈ x, isBare c)
    (hbrace : '\x7d' ∉ x.getLast?)
    (hscope : x ∉ ["PRIVATE", "PUBLIC", "INTERFACE"].map String.toList)
    (hhash : x.head? ≠ some '#') : (literal x).WellFormed :=
  ⟨isItem_literal_iff.1 (isItem_of_bare hne hx hbrace hscope), hhash⟩

/-- A library of one file. -/
theorem wellFormed_library :
    Statement.Content.WellFormed ⟨.addLibrary, "core".toList, [.literal "a.cpp".toList]⟩ where
  first := by decide
  last := by decide
  name := ⟨by decide, isNameRun_of_isNameChar (by decide)⟩
  nonempty := by decide
  items := List.forall_mem_singleton.2
    (Item.Content.wellFormed_bare (by decide) (by decide) (by decide) (by decide) (by decide))
  sources := by decide

end SourceLists
