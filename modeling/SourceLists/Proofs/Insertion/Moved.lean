import SourceLists.Insertion.Basic
import SourceLists.Proofs.Scanning.Insert

/-! Where statements and items stand after an insertion. -/

namespace SourceLists

/-- Where a position of the source is in the result: behind the insertion all is moved by its
size. -/
def Insertion.moved (ins : Insertion) (p : Nat) : Nat :=
  if p ≤ ins.position then p else p + Text.size ins.content

def Span.moved (ins : Insertion) (span : Span) : Span := ⟨ins.moved span.start, ins.moved span.stop⟩

def Item.moved (ins : Insertion) : Item → Item
  | .literal text start => .literal text (ins.moved start)
  | .reference name span => .reference name (span.moved ins)

namespace Statement

def moved (ins : Insertion) (st : Statement) : Statement :=
  { st with items := st.items.map (Item.moved ins), span := st.span.moved ins }

/-- The statement with one more item at the end of its list. -/
def push (item : Item) (st : Statement) : Statement := { st with items := st.items ++ [item] }

end Statement

/-- A script with the payload as one more item at the end of the list of its `k`-th statement. -/
def Insertion.added (ins : Insertion) (k : Nat) (script : Script) : Script :=
  (script.map (Statement.moved ins)).modify k
    (Statement.push (.literal ins.payload (ins.position + Text.size ins.separator)))

variable {ins : Insertion} {p start : Nat} {item : Item} {items : List Item}

theorem Insertion.moved_of_le (h : p ≤ ins.position) : ins.moved p = p := if_pos h

theorem Insertion.moved_of_lt (h : ins.position < p) : ins.moved p = p + Text.size ins.content :=
  if_neg (Nat.not_le_of_lt h)

theorem Item.stop_moved (h : item.span.stop ≤ ins.position) :
    (item.moved ins).span.stop = item.span.stop := by
  cases item with
  | literal text start =>
    simp only [Item.span] at h
    simp [Item.moved, Item.span, Insertion.moved_of_le (show start ≤ ins.position by omega)]
  | reference name span => exact Insertion.moved_of_le h

theorem Item.content_moved : (item.moved ins).content = item.content := by
  cases item with
  | literal text start => rfl
  | reference name span => rfl

theorem Item.map_content_moved :
    (items.map (Item.moved ins)).map Item.content = items.map Item.content := by
  rw [List.map_map]
  exact List.map_congr_left fun _ _ => content_moved

namespace Grammar
open Argument
variable {tok : Token} {args front tail : List Argument} {a : Argument} {i : Invocation}
  {mid : List Argument} {g x : Text} {st : Statement}

theorem Token.item?_before (h : start + Text.size tok.text ≤ ins.position) :
    (tok.item? start).map (Item.moved ins) = tok.item? start := by
  have hstart : ins.moved start = start := Insertion.moved_of_le (by omega)
  cases tok with
  | keyword w => rfl
  | literal x => simp [Token.item?, Item.moved, hstart]
  | reference quoted name =>
    simp [Token.item?, Item.moved, Span.moved, hstart, Insertion.moved_of_le h]

theorem Token.item?_behind (h : ins.position < start) :
    (tok.item? start).map (Item.moved ins) = tok.item? (start + Text.size ins.content) := by
  have hstart := Insertion.moved_of_lt h
  cases tok with
  | keyword w => rfl
  | literal x => simp [Token.item?, Item.moved, hstart]
  | reference quoted name =>
    have hstop := Insertion.moved_of_lt (p := start + Text.size (Token.reference quoted name).text)
      (Nat.lt_add_right _ h)
    simp [Token.item?, Item.moved, Span.moved, hstart, hstop]
    omega

theorem itemsAt_before (h : start + Text.size (texts args) ≤ ins.position) :
    (itemsAt start args).map (Item.moved ins) = itemsAt start args := by
  induction args generalizing start with
  | nil => rfl
  | cons a args ih =>
    simp only [texts_cons, Text.size_append] at h
    have htok : start + Text.size a.token.text ≤ ins.position := by omega
    have hrest : start + Text.size a.text + Text.size (texts args) ≤ ins.position := by
      simp only [Argument.text, Text.size_append]
      omega
    rw [itemsAt, List.map_append, ih hrest, ← Option.toList_map, Token.item?_before htok]

theorem itemsAt_behind (h : ins.position < start) :
    (itemsAt start args).map (Item.moved ins) = itemsAt (start + Text.size ins.content) args := by
  induction args generalizing start with
  | nil => rfl
  | cons a args ih =>
    rw [itemsAt, itemsAt, List.map_append, ih (Nat.lt_add_right _ h), ← Option.toList_map,
      Token.item?_behind h, Nat.add_right_comm]

theorem Invocation.statement?_before (h : start + Text.size i.text ≤ ins.position) :
    (i.statement? start).map (Statement.moved ins) = i.statement? start := by
  have hsize := i.size_text
  have hstart : ins.moved start = start := Insertion.moved_of_le (by omega)
  have hitems : (itemsAt (start + Text.size i.head) i.arguments).map (Item.moved ins) =
      itemsAt (start + Text.size i.head) i.arguments := itemsAt_before (by omega)
  cases hk : i.kind with
  | none => simp [Invocation.statement?, hk]
  | some kind =>
    simp [Invocation.statement?, hk, Statement.moved, Span.moved, hstart, Insertion.moved_of_le h,
      hitems]

theorem Invocation.statement?_behind (h : ins.position < start) :
    (i.statement? start).map (Statement.moved ins) =
      i.statement? (start + Text.size ins.content) := by
  have hstart := Insertion.moved_of_lt h
  have hstop := Insertion.moved_of_lt (Nat.lt_add_right (Text.size i.text) h)
  have hitems : (itemsAt (start + Text.size i.head) i.arguments).map (Item.moved ins) =
      itemsAt (start + Text.size i.head + Text.size ins.content) i.arguments :=
    itemsAt_behind (Nat.lt_add_right _ h)
  cases hk : i.kind with
  | none => simp [Invocation.statement?, hk]
  | some kind =>
    simp [Invocation.statement?, hk, Statement.moved, Span.moved, hstart, hstop, hitems,
      Nat.add_right_comm]

theorem LastItem.itemsAt_tail (hl : LastItem i front a tail) : itemsAt start tail = [] := by
  have htail := hl.tail
  rcases htail with h | ⟨-, h⟩
  · rw [List.map_eq_nil_iff.1 h]
    rfl
  · obtain ⟨p, rfl, hp⟩ := List.map_eq_singleton_iff.1 h
    simp [itemsAt, hp, Token.item?]

/-- Up to the end of its last item a statement has all its items. -/
theorem LastItem.itemsAt_arguments (hl : LastItem i front a tail) :
    itemsAt start i.arguments = itemsAt start (front ++ [⟨a.token, []⟩]) := by
  simp [hl.arguments, itemsAt_append, itemsAt, hl.itemsAt_tail]

theorem LastItem.listEnd?_eq (hl : LastItem i front a tail) (h : i.statement? start = some st) :
    st.listEnd? = some (start + Text.size (i.upTo front a)) := by
  obtain ⟨kind, -, rfl⟩ := Option.map_eq_some_iff.1 h
  obtain ⟨item, hitem⟩ := hl.item.exists_item? (start + Text.size i.head + Text.size (texts front))
  have hlast : (itemsAt (start + Text.size i.head) i.arguments).getLast? = some item := by
    simp [hl.itemsAt_arguments, itemsAt_append, itemsAt, hitem]
  simp only [Statement.listEnd?, hlast, Option.map_some, Token.span_of_item? hitem, Invocation.upTo,
    Text.size_append, Nat.add_assoc]

theorem LastItem.text_eq (hl : LastItem i front a tail) :
    i.text = i.upTo front a ++ (a.gap ++ (texts tail ++ [')'])) := by
  have htext : i.text ++ [] = _ := hl.text_append
  rwa [List.append_nil] at htext

theorem LastItem.size_upTo_lt (hl : LastItem i front a tail) :
    Text.size (i.upTo front a) < Text.size i.text := by
  have hclose : 0 < Text.size (')' :: []) := Text.size_cons_pos
  rw [hl.text_eq, Text.size_append, Text.size_append, Text.size_append]
  omega

theorem LastItem.size_grown (hl : LastItem i front a tail) :
    Text.size (i.grown front a tail g mid x).text =
      Text.size i.text + Text.size (g ++ (texts mid ++ x)) := by
  have hgrown : (i.grown front a tail g mid x).text ++ [] = _ := Invocation.grown_text_append
  rw [List.append_nil] at hgrown
  rw [hl.text_eq, hgrown]
  simp only [Text.size_append]
  omega

/-- The statement of an invocation with a new item is that without it, moved, and the item. -/
theorem LastItem.statement?_grown (hl : LastItem i front a tail) (hmid : ∀ n, itemsAt n mid = [])
    (h : i.statement? start = some st)
    (hins : ins = ⟨start + Text.size (i.upTo front a), g ++ texts mid, x⟩) :
    (i.grown front a tail g mid x).statement? start =
      some ((st.moved ins).push (.literal x (ins.position + Text.size ins.separator))) := by
  obtain ⟨kind, hk, rfl⟩ := Option.map_eq_some_iff.1 h
  have hupTo : Text.size (i.upTo front a) =
      Text.size i.head + (Text.size (texts front) + Text.size a.token.text) := by
    simp [Invocation.upTo]
  have hbefore : (itemsAt (start + Text.size i.head) i.arguments).map (Item.moved ins) =
      itemsAt (start + Text.size i.head) i.arguments := by
    rw [hl.itemsAt_arguments]
    apply itemsAt_before
    simp [hins]
    omega
  have hitems : itemsAt (start + Text.size i.head) (i.grown front a tail g mid x).arguments =
      itemsAt (start + Text.size i.head) i.arguments ++
        [.literal x (ins.position + Text.size ins.separator)] := by
    simp [hl.itemsAt_arguments, Invocation.grown, itemsAt_append, itemsAt, Token.item?,
      hl.itemsAt_tail, hmid, Argument.text, hins]
    omega
  have hstart : ins.moved start = start := by
    apply Insertion.moved_of_le
    simp [hins]
  have hstop : ins.moved (start + Text.size i.text) =
      start + Text.size (i.grown front a tail g mid x).text := by
    rw [Insertion.moved_of_lt (by simpa [hins] using hl.size_upTo_lt), hl.size_grown]
    simp [hins, Insertion.content, Nat.add_assoc]
  simp only [Invocation.statement?, show (i.grown front a tail g mid x).kind = some kind from hk,
    Option.map_some, Option.some.injEq, Statement.moved, Statement.push, Span.moved,
    hbefore, hstart, hstop, ← hitems]
  rfl

end Grammar

namespace Scan
open Grammar Grammar.Argument
variable {segs pre post : List Segment} {seg : Segment} {st : Statement} {k : Nat} {s s' x : Text}

theorem statementsAt_append :
    statementsAt start (pre ++ post) =
      statementsAt start pre ++
        statementsAt (start + Text.size (pre.flatMap Segment.text)) post := by
  induction pre generalizing start with
  | nil => rfl
  | cons seg pre ih =>
    simp [statementsAt, ih, Nat.add_assoc]

theorem Segment.statement?_before (h : start + Text.size seg.text ≤ ins.position) :
    (seg.statement? start).map (Statement.moved ins) = seg.statement? start := by
  cases seg with
  | statement i => exact Invocation.statement?_before h
  | comment | quoted | other => rfl

theorem Segment.statement?_behind (h : ins.position < start) :
    (seg.statement? start).map (Statement.moved ins) =
      seg.statement? (start + Text.size ins.content) := by
  cases seg with
  | statement i => exact Invocation.statement?_behind h
  | comment | quoted | other => rfl

theorem statementsAt_before (h : start + Text.size (segs.flatMap Segment.text) ≤ ins.position) :
    (statementsAt start segs).map (Statement.moved ins) = statementsAt start segs := by
  induction segs generalizing start with
  | nil => rfl
  | cons seg segs ih =>
    simp only [List.flatMap_cons, Text.size_append] at h
    have hseg : start + Text.size seg.text ≤ ins.position := by omega
    have hrest :
        start + Text.size seg.text + Text.size (segs.flatMap Segment.text) ≤ ins.position := by
      omega
    rw [statementsAt, List.map_append, ih hrest, ← Option.toList_map,
      Segment.statement?_before hseg]

theorem statementsAt_behind (h : ins.position < start) :
    (statementsAt start segs).map (Statement.moved ins) =
      statementsAt (start + Text.size ins.content) segs := by
  induction segs generalizing start with
  | nil => rfl
  | cons seg segs ih =>
    rw [statementsAt, statementsAt, List.map_append, ih (Nat.lt_add_right _ h), ← Option.toList_map,
      Segment.statement?_behind h, Nat.add_right_comm]

/-- Each statement that is found comes from a segment. -/
theorem exists_segment_of_statementsAt (h : (statementsAt start segs)[k]? = some st) :
    ∃ pre i post, segs = pre ++ .statement i :: post ∧ (statementsAt start pre).length = k ∧
      i.statement? (start + Text.size (pre.flatMap Segment.text)) = some st := by
  induction segs generalizing start k with
  | nil => contradiction
  | cons seg segs ih =>
    rw [statementsAt] at h
    have hlater : ∀ n, (seg.statement? start).toList.length = n →
        (statementsAt (start + Text.size seg.text) segs)[k - n]? = some st → n ≤ k →
        ∃ pre i post, seg :: segs = pre ++ .statement i :: post ∧
          (statementsAt start pre).length = k ∧
          i.statement? (start + Text.size (pre.flatMap Segment.text)) = some st := by
      intro n hn h hle
      obtain ⟨pre, i, post, hsegs, hlength, hi⟩ := ih h
      refine ⟨seg :: pre, i, post, by rw [hsegs, List.cons_append], ?_, ?_⟩
      · rw [statementsAt, List.length_append, hlength, hn]
        omega
      · rwa [List.flatMap_cons, Text.size_append, ← Nat.add_assoc]
    cases hst : seg.statement? start with
    | none =>
      rw [hst] at h
      exact hlater 0 (by rw [hst]; rfl) h (Nat.zero_le k)
    | some first =>
      rw [hst] at h
      cases k with
      | succ k => exact hlater 1 (by rw [hst]; rfl) h (Nat.le_add_left 1 k)
      | zero =>
        obtain rfl : first = st := Option.some.inj h
        cases seg with
        | statement i => exact ⟨[], i, segs, rfl, rfl, hst⟩
        | comment | quoted | other => contradiction

/-- A statement that is found in a script comes from a segment and has a last item. -/
structure Found (s : Text) (k : Nat) (st : Statement) (pre : List Segment) (i : Invocation)
    (post : List Segment) (front : List Argument) (a : Argument) (tail : List Argument) : Prop where
  segments_eq : segments none s = pre ++ .statement i :: post
  index : (statementsAt 0 pre).length = k
  statement : i.statement? (Text.size (pre.flatMap Segment.text)) = some st
  wellFormed : i.WellFormed
  kind : i.kind ≠ none
  last : LastItem i front a tail

theorem exists_found (h : (scan s)[k]? = some st) :
    ∃ pre i post front a tail, Found s k st pre i post front a tail := by
  obtain ⟨pre, i, post, hsegs, hlength, hst⟩ := exists_segment_of_statementsAt h
  rw [Nat.zero_add] at hst
  have hmem : .statement i ∈ segments none s := by simp [hsegs]
  have hwf := wellFormed_of_mem_segments hmem
  obtain ⟨kind, hkind, -⟩ := Option.map_eq_some_iff.1 hst
  obtain ⟨front, a, tail, hl⟩ := hwf.exists_lastItem hkind
  exact ⟨pre, i, post, front, a, tail, hsegs, hlength, hst, hwf, by simp [hkind], hl⟩

namespace Found
variable {i : Invocation} {front tail : List Argument} {a : Argument}

theorem text_eq (h : Found s k st pre i post front a tail) :
    s = pre.flatMap Segment.text ++ (i.text ++ post.flatMap Segment.text) :=
  text_of_segments h.segments_eq

theorem text_append (h : Found s k st pre i post front a tail) :
    s = (pre.flatMap Segment.text ++ i.upTo front a) ++
      (a.gap ++ (texts tail ++ ')' :: post.flatMap Segment.text)) :=
  h.text_eq.trans (by rw [h.last.text_append, List.append_assoc])

theorem listEnd?_eq (h : Found s k st pre i post front a tail) :
    st.listEnd? = some (Text.size (pre.flatMap Segment.text ++ i.upTo front a)) := by
  rw [h.last.listEnd?_eq h.statement, Text.size_append]

/-- Behind the list the script is cut, and a payload goes there as an item. -/
theorem apply_eq (h : Found s k st pre i post front a tail)
    (hins : ins = ⟨Text.size (pre.flatMap Segment.text ++ i.upTo front a), [' '], x⟩) :
    ins.apply s = .ok (pre.flatMap Segment.text ++
      ((i.pushed front a tail x).text ++ post.flatMap Segment.text)) := by
  have hsplit : Text.splitAt? s (Text.size (pre.flatMap Segment.text ++ i.upTo front a)) =
      some (pre.flatMap Segment.text ++ i.upTo front a,
        a.gap ++ (texts tail ++ ')' :: post.flatMap Segment.text)) := by
    rw [h.text_append]
    exact Text.splitAt?_size_append
  rw [hins, Insertion.apply, hsplit]
  simp [Insertion.content, Invocation.pushed_text_append]

/-- A script in which a statement has a new item has the statements of the old one. -/
theorem scan_eq_added (h : Found s k st pre i post front a tail)
    (hins : ins = ⟨Text.size (pre.flatMap Segment.text ++ i.upTo front a), [' '], x⟩)
    (hs' : segments none s' = pre ++ .statement (i.pushed front a tail x) :: post) :
    scan s' = ins.added k (scan s) := by
  have hins' :
      ins = ⟨Text.size (pre.flatMap Segment.text) + Text.size (i.upTo front a), [' '], x⟩ := by
    rw [hins, Text.size_append]
  have hbefore : (statementsAt 0 pre).map (Statement.moved ins) = statementsAt 0 pre := by
    apply statementsAt_before
    simp [hins]
  have hpushed : (i.pushed front a tail x).statement? _ = _ :=
    h.last.statement?_grown (fun _ => rfl) h.statement hins'
  have hpassed : ins.position < Text.size (pre.flatMap Segment.text) + Text.size i.text := by
    simpa [hins] using h.last.size_upTo_lt
  have hstart : Text.size (pre.flatMap Segment.text) + Text.size i.text + Text.size ins.content =
      Text.size (pre.flatMap Segment.text) + Text.size (i.pushed front a tail x).text := by
    rw [Invocation.pushed, h.last.size_grown]
    simp [hins, Insertion.content, Nat.add_assoc]
  have hbehind : (statementsAt _ post).map _ = _ := statementsAt_behind hpassed
  rw [hstart] at hbehind
  have hpayload : ins.payload = x ∧ ins.separator = [' '] := by simp [hins]
  rw [scan, scan, h.segments_eq, hs', statementsAt_append, statementsAt_append, Nat.zero_add]
  simp [statementsAt, Segment.statement?, h.statement, hpushed, Segment.text,
    Insertion.added, hbefore, hbehind, hpayload, Char.utf8Size, List.modify_eq_take_drop, ← h.index]

end Found
end Scan
end SourceLists
