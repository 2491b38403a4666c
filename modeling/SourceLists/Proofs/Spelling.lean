import SourceLists.Proofs.Insertion.Moved
import SourceLists.Proofs.Location
import SourceLists.Proofs.Rendering.WellFormed
import SourceLists.Proofs.Scanning.Previous

/-! Every character of a statement that is found is accounted for. -/

namespace SourceLists
open Grammar Grammar.Argument

/-- Arguments of which the first begins at `start` are the items in their order, each where it
stands in the source, and keywords. -/
inductive Lists (source : Text) : Nat → List Argument → List Item → Prop
  | nil (start : Nat) : Lists source start [] []
  | keyword {start : Nat} {w : Text} {a : Argument} {args : List Argument} {items : List Item}
      (hw : a.token = .keyword w) (h : Lists source (start + Text.size a.text) args items) :
      Lists source start (a :: args) items
  | item {start : Nat} {a : Argument} {args : List Argument} {item : Item} {items : List Item}
      (hsay : a.token.content? = some item.content)
      (hspan : item.span = ⟨start, start + Text.size a.token.text⟩)
      (hslice : Text.slice? source item.span.start item.span.stop = some a.token.text)
      (h : Lists source (start + Text.size a.text) args items) :
      Lists source start (a :: args) (item :: items)

/-- A source has a statement between `before` and `after`, which is written like this invocation. -/
structure Statement.Spelled (source : Text) (st : Statement) (before : Text) (i : Invocation)
    (after : Text) : Prop where
  source_eq : source = before ++ (i.text ++ after)
  span : st.span = ⟨Text.size before, Text.size before + Text.size i.text⟩
  apart : ∀ c ∈ before.getLast?, ¬ isIdentifierChar c
  word : i.word.map Char.toLower = st.kind.command.toList
  beforeParen : IsGap i.beforeParen
  beforeName : IsGap i.beforeName
  name : i.name = st.name
  afterName : IsGap i.afterName
  gaps : ∀ a ∈ i.arguments, IsGap a.gap
  items : Lists source (Text.size (before ++ i.head)) i.arguments st.items
  decorated : ∃ items, items ≠ [] ∧ (∀ tok ∈ items, tok.IsItem) ∧
    Decorated st.kind items (i.arguments.map Argument.token)

variable {source before after : Text} {args : List Argument} {i : Invocation} {st : Statement}
  {s : Text}

theorem lists_itemsAt (hs : source = before ++ (texts args ++ after)) :
    Lists source (Text.size before) args (itemsAt (Text.size before) args) := by
  induction args generalizing before with
  | nil => exact .nil _
  | cons a args ih =>
    rw [texts_cons, List.append_assoc, List.append_assoc] at hs
    have hrest : Lists source (Text.size before + Text.size a.text) args
        (itemsAt (Text.size before + Text.size a.text) args) := by
      rw [← Text.size_append]
      apply ih
      rw [hs, Argument.text, List.append_assoc, List.append_assoc]
    rw [itemsAt]
    cases hitem : a.token.item? (Text.size before) with
    | none =>
      cases htok : a.token with
      | keyword w => exact .keyword htok hrest
      | literal x | reference quoted v =>
        rw [htok] at hitem
        contradiction
    | some item =>
      have hspan := Token.span_of_item? hitem
      refine .item ?_ hspan ?_ hrest
      · have hsay := congrArg (Option.map Item.content) hitem
        rwa [Token.map_content_item?] at hsay
      · rw [hspan, hs]
        exact Text.slice?_append

/-- A well-formed invocation spells the statement that it stands for. -/
theorem Grammar.Invocation.WellFormed.spelled (h : i.WellFormed)
    (hs : source = before ++ (i.text ++ after)) (hst : i.statement? (Text.size before) = some st)
    (hapart : ∀ c ∈ before.getLast?, ¬ isIdentifierChar c) : st.Spelled source before i after := by
  obtain ⟨kind, hkind, rfl⟩ := Option.map_eq_some_iff.1 hst
  have hword := h.word
  have haccepts := h.accepts
  rw [hkind] at hword haccepts
  obtain ⟨items, hi, hd, -⟩ := exists_decorated haccepts
  refine ⟨hs, rfl, hapart, hword, h.beforeParen, h.beforeName, rfl, h.afterName, h.laid.isGap, ?_,
    items, hi.1, hi.2, hd⟩
  have hs' : source = (before ++ i.head) ++ (texts i.arguments ++ ')' :: after) := by
    rw [hs]
    simp [Invocation.text, Invocation.body, texts]
  rw [← Text.size_append]
  exact lists_itemsAt hs'

theorem Scan.Found.spelled {k : Nat} {pre post : List Scan.Segment} {front tail : List Argument}
    {a : Argument} (h : Scan.Found s k st pre i post front a tail) :
    st.Spelled s (pre.flatMap Scan.Segment.text) i (post.flatMap Scan.Segment.text) := by
  apply h.wellFormed.spelled h.text_eq h.statement
  have hapart := Scan.not_isIdentifierChar_before h.segments_eq
  rwa [Option.or_none] at hapart

/-- What a scan finds is written in the script in full: nothing of it is lost, doubled or made
up. -/
theorem exists_spelled (h : st ∈ scan s) : ∃ before i after, st.Spelled s before i after := by
  obtain ⟨k, hk⟩ := List.mem_iff_getElem?.1 h
  obtain ⟨pre, i, post, front, a, tail, hfound⟩ := Scan.exists_found hk
  exact ⟨_, i, _, hfound.spelled⟩

theorem exists_spelled_library :
    ∃ before i after,
      Statement.Spelled "# set(x y)\nAdd_Library(core# set\n\tSTATIC a.cpp ${B})".toList
      ⟨.addLibrary, "core".toList,
        [.literal "a.cpp".toList 41, .reference "B".toList ⟨47, 51⟩], ⟨11, 52⟩⟩
      before i after :=
  exists_spelled (by decide +kernel)

end SourceLists
