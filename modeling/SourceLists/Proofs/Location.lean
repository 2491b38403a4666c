import SourceLists.Proofs.Reading.Accepted
import SourceLists.Proofs.Reading.Script

/-! Where statements and items are said to stand, they stand. -/

namespace SourceLists
open Grammar Grammar.Argument

namespace Text
variable {s t u before after : Text} {n m : Nat}

/-- The offset is not inside a character, nor beyond the end. -/
def IsBoundary (s : Text) (n : Nat) : Prop := ∃ before after, s = before ++ after ∧ size before = n

theorem slice?_append :
    slice? (before ++ (t ++ after)) (size before) (size before + size t) = some t := by
  have hle : size before ≤ size before + size t := Nat.le_add_right _ _
  simp [slice?, guard, hle, splitAt?_size_append]

theorem isBoundary_append : IsBoundary (before ++ after) (size before) := ⟨before, after, rfl, rfl⟩

end Text

/-- The source has the text of the item where the item says. -/
def Item.WrittenIn (source : Text) : Item → Prop
  | .literal text start =>
    Text.slice? source start (start + Text.size text) = some text
  | .reference name span =>
    Text.slice? source span.start span.stop = some (Token.referenceText name) ∨
      Text.slice? source span.start span.stop = some (['"'] ++ Token.referenceText name ++ ['"'])

/-- The range lies in the source and is cut between characters. -/
structure Span.Inside (source : Text) (span : Span) : Prop where
  nonempty : span.start < span.stop
  start : Text.IsBoundary source span.start
  stop : Text.IsBoundary source span.stop

structure Statement.LocatedIn (source : Text) (st : Statement) : Prop where
  span : st.span.Inside source
  nonempty : st.items ≠ []
  items : ∀ item ∈ st.items, item.span.Inside source ∧ item.WrittenIn source ∧
    st.span.start ≤ item.span.start ∧ item.span.stop ≤ st.span.stop
  apart : st.items.Pairwise fun a b => a.span.stop < b.span.start

structure Script.LocatedIn (source : Text) (script : Script) : Prop where
  statements : ∀ st ∈ script, st.LocatedIn source
  ordered : script.Pairwise fun a b => a.span.stop ≤ b.span.start

namespace Grammar
variable {source before after : Text} {tok : Token} {a : Argument} {args : List Argument}
  {item : Item} {i : Invocation} {st : Statement}

theorem writtenIn_of_item? (hs : source = before ++ (tok.text ++ after))
    (h : tok.item? (Text.size before) = some item) : item.WrittenIn source := by
  subst hs
  cases tok with
  | keyword w => contradiction
  | literal x =>
    cases h
    exact Text.slice?_append
  | reference quoted name =>
    cases h
    cases quoted with
    | false => exact Or.inl Text.slice?_append
    | true => exact Or.inr Text.slice?_append

theorem inside_of_append {x : Text} (hs : source = before ++ (x ++ after)) (hx : x ≠ []) :
    Span.Inside source ⟨Text.size before, Text.size before + Text.size x⟩ := by
  subst hs
  refine ⟨?_, Text.isBoundary_append, ?_⟩
  · have hpos := mt Text.size_eq_zero.1 hx
    simp only
    omega
  · rw [← Text.size_append, ← List.append_assoc]
    exact Text.isBoundary_append

theorem itemsAt_written (hs : source = before ++ (texts args ++ after))
    (hsound : ∀ tok ∈ args.map Argument.token, tok.Sound) :
    ∀ item ∈ itemsAt (Text.size before) args, item.span.Inside source ∧ item.WrittenIn source ∧
      Text.size before ≤ item.span.start ∧
      item.span.stop ≤ Text.size before + Text.size (texts args) := by
  induction args generalizing before with
  | nil => intro item hitem; contradiction
  | cons a args ih =>
    intro item hitem
    rw [itemsAt, List.mem_append, Option.mem_toList] at hitem
    rcases hitem with hitem | hitem
    · rw [texts_cons, List.append_assoc] at hs
      rw [Token.span_of_item? hitem]
      refine ⟨inside_of_append hs (hsound _ List.mem_cons_self).ne_nil,
        writtenIn_of_item? hs hitem, Nat.le_refl _, ?_⟩
      simp only [texts_cons, Text.size_append]
      omega
    · have hs' : source = (before ++ a.text) ++ (texts args ++ after) := by
        rw [hs]
        simp [Argument.text]
      rw [← Text.size_append] at hitem
      obtain ⟨hinside, hwritten, hstart, hstop⟩ :=
        ih hs' (fun tok htok => hsound tok (List.mem_cons_of_mem _ htok)) item hitem
      refine ⟨hinside, hwritten, ?_, ?_⟩
      · rw [Text.size_append] at hstart
        omega
      · simp only [Argument.text, Text.size_append] at hstop
        simp only [texts_cons, Text.size_append]
        omega

theorem le_start_of_mem_itemsAt {n : Nat} (h : item ∈ itemsAt n args) : n ≤ item.span.start := by
  obtain ⟨front, a, tail, -, hitem⟩ := exists_of_mem_itemsAt h
  rw [Token.span_of_item? hitem]
  exact Nat.le_add_right n _

theorem itemsAt_apart {n : Nat} (hlaid : Laid after args)
    (hsound : ∀ tok ∈ args.map Argument.token, tok.Sound) :
    (itemsAt n args).Pairwise fun a b => a.span.stop < b.span.start := by
  induction args generalizing n with
  | nil => exact .nil
  | cons a args ih =>
    have htail := ih (n := n + Text.size a.text) hlaid.2.2.2
      fun tok htok => hsound tok (List.mem_cons_of_mem _ htok)
    rw [itemsAt]
    cases hitem : a.token.item? n with
    | none => exact htail
    | some item =>
      refine .cons ?_ htail
      intro next hnext
      rw [Token.span_of_item? hitem]
      cases args with
      | nil => contradiction
      | cons b args =>
        have hgap := mt Text.size_eq_zero.1 (gap_ne_nil hlaid (hsound b.token (by simp)))
        have hle := le_start_of_mem_itemsAt hnext
        simp only [Argument.text, Text.size_append] at hle
        simp only
        omega

theorem exists_item_of_accepts {kind : Kind} {n : Nat}
    (h : Accepts (some kind) (args.map Argument.token)) : itemsAt n args ≠ [] := by
  obtain ⟨front, tok, tail, heq, ht, -⟩ := exists_last_of_accepts h
  obtain ⟨xs, ys, rfl, rfl, hys⟩ := List.map_eq_append_iff.1 heq
  obtain ⟨a, ys, rfl, rfl, rfl⟩ := List.map_eq_cons_iff.1 hys
  obtain ⟨item, hitem⟩ := ht.exists_item? (n + Text.size (texts xs))
  simp [itemsAt_append, itemsAt, hitem]

/-- A statement stands where its invocation does. -/
theorem Invocation.WellFormed.located (hwf : i.WellFormed)
    (hs : source = before ++ (i.text ++ after)) (h : i.statement? (Text.size before) = some st) :
    st.LocatedIn source := by
  obtain ⟨kind, hkind, rfl⟩ := Option.map_eq_some_iff.1 h
  have hsound := sound_of_accepts hwf.accepts
  have hs' : source = (before ++ i.head) ++ (texts i.arguments ++ ')' :: after) := by
    rw [hs]
    simp [Invocation.text, Invocation.body, texts]
  have hsize := i.size_text
  refine ⟨inside_of_append hs (by simp [Invocation.text]),
    exists_item_of_accepts (hkind ▸ hwf.accepts), ?_, itemsAt_apart hwf.laid hsound⟩
  intro item hitem
  simp only [← Text.size_append] at hitem
  obtain ⟨hinside, hwritten, hstart, hstop⟩ := itemsAt_written hs' hsound item hitem
  rw [Text.size_append] at hstart hstop
  refine ⟨hinside, hwritten, ?_, ?_⟩
  · simp only
    omega
  · simp only
    omega

end Grammar

namespace Scan
variable {source before after : Text} {segs : List Segment}

theorem le_start_of_mem_statementsAt {st : Statement} {n : Nat} (h : st ∈ statementsAt n segs) :
    n ≤ st.span.start := by
  induction segs generalizing n with
  | nil => contradiction
  | cons seg segs ih =>
    rw [statementsAt, List.mem_append, Option.mem_toList] at h
    rcases h with h | h
    · cases seg with
      | statement i =>
        obtain ⟨kind, -, rfl⟩ := Option.map_eq_some_iff.1 h
        exact Nat.le_refl n
      | comment | quoted | other => contradiction
    · have := ih h
      omega

/-- One segment after the other: what stands before it is passed, and its statement is located. -/
theorem statementsAt_located (hs : source = before ++ (segs.flatMap Segment.text ++ after))
    (hwf : ∀ i, .statement i ∈ segs → i.WellFormed) :
    Script.LocatedIn source (statementsAt (Text.size before) segs) := by
  induction segs generalizing before with
  | nil => exact ⟨fun st hst => by contradiction, .nil⟩
  | cons seg segs ih =>
    have hs' : source = (before ++ seg.text) ++ (segs.flatMap Segment.text ++ after) := by
      rw [hs]
      simp
    obtain ⟨hstatements, hordered⟩ := ih hs' fun i hi => hwf i (List.mem_cons_of_mem _ hi)
    rw [Text.size_append] at hstatements hordered
    rw [statementsAt]
    cases hst : seg.statement? (Text.size before) with
    | none => exact ⟨hstatements, hordered⟩
    | some st =>
      cases seg with
      | comment | quoted | other => contradiction
      | statement i =>
        have hlocated : st.LocatedIn source :=
          (hwf i List.mem_cons_self).located
            (by rw [hs, List.flatMap_cons, List.append_assoc]; rfl) hst
        have hstop : st.span.stop = Text.size before + Text.size i.text := by
          obtain ⟨kind, -, rfl⟩ := Option.map_eq_some_iff.1 hst
          rfl
        constructor
        · intro st' hst'
          rcases List.mem_cons.1 hst' with rfl | hst'
          · exact hlocated
          · exact hstatements st' hst'
        · refine .cons ?_ hordered
          intro st' hst'
          rw [hstop]
          exact le_start_of_mem_statementsAt hst'

end Scan

/-- Every statement of a script is located in it, and so is the one at its beginning. -/
theorem located_scan_and_parse (s : Text) :
    (scan s).LocatedIn s ∧ ∀ script, parse s = .ok script → script.LocatedIn s := by
  constructor
  · have hs : s = [] ++ ((Scan.segments none s).flatMap Scan.Segment.text ++ []) := by
      rw [Scan.flatMap_segments, List.append_nil, List.nil_append]
    exact Scan.statementsAt_located hs fun i => Scan.wellFormed_of_mem_segments
  · intro script h
    obtain ⟨g, t, i, rest, hg, hi, rfl⟩ := parse_eq_ok.1 h
    obtain ⟨rfl, hwf⟩ := wellFormed_of_statement hi
    have hs : g ++ (i.text ++ rest) = s := gap_lossless hg
    refine ⟨?_, ?_⟩
    · intro st hst
      exact hwf.located hs.symm (Option.mem_toList.1 hst)
    · cases i.statement? (Text.size g) with
      | none => exact .nil
      | some st => exact List.pairwise_singleton _ _

end SourceLists
