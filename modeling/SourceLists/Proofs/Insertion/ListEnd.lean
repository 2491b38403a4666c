import SourceLists.Proofs.Insertion.Interleaving
import SourceLists.Proofs.Insertion.Success

/-! Where the lists of a script end once an item is added to one of them: each where the next item
for it would have gone. -/

namespace SourceLists
open Grammar Scan

variable {s : Text} {ins : Insertion} {item : Item} {st st' old new : Statement} {k m p q : Nat}

theorem Item.stop_moved_behind (h : ins.position < item.span.start)
    (hle : item.span.start ≤ item.span.stop) :
    (item.moved ins).span.stop = item.span.stop + Text.size ins.content := by
  cases item with
  | literal text start =>
    simp only [Item.span] at h
    simp only [Item.moved, Item.span, Insertion.moved_of_lt h, Nat.add_right_comm]
  | reference name span => exact Insertion.moved_of_lt (Nat.lt_of_lt_of_le h hle)

namespace Statement

theorem listEnd?_moved :
    (st.moved ins).listEnd? = st.items.getLast?.map fun item => (item.moved ins).span.stop := by
  rw [listEnd?, moved, List.getLast?_map, Option.map_map]
  rfl

theorem listEnd?_moved_before (h : st.listEnd? = some p) (hp : p ≤ ins.position) :
    (st.moved ins).listEnd? = some p := by
  obtain ⟨item, hitem, rfl⟩ := Option.map_eq_some_iff.1 h
  rw [listEnd?_moved, hitem, Option.map_some, Item.stop_moved hp]

theorem listEnd?_moved_behind (hst : st.LocatedIn s) (h : st.listEnd? = some p)
    (hp : ins.position < st.span.start) :
    (st.moved ins).listEnd? = some (p + Text.size ins.content) := by
  obtain ⟨item, hitem, rfl⟩ := Option.map_eq_some_iff.1 h
  obtain ⟨hinside, -, hstart, -⟩ := hst.items item (List.mem_of_getLast? hitem)
  rw [listEnd?_moved, hitem, Option.map_some,
    Item.stop_moved_behind (Nat.lt_of_lt_of_le hp hstart) (Nat.le_of_lt hinside.nonempty)]

theorem listEnd?_push_literal {x : Text} {n : Nat} :
    (st.push (.literal x n)).listEnd? = some (n + Text.size x) := by
  rw [listEnd?, push, List.getLast?_concat]
  rfl

end Statement

/-- A list ends before its statement does. -/
theorem listEnd_inside (hst : st ∈ scan s) (h : st.listEnd? = some p) :
    st.span.start ≤ p ∧ p < st.span.stop := by
  obtain ⟨k, hk⟩ := List.mem_iff_getElem?.1 hst
  obtain ⟨pre, i, post, front, a, tail, hfound⟩ := exists_found hk
  have hlast := hfound.last.size_upTo_lt
  have hend := hfound.listEnd?_eq
  rw [h, Option.some.injEq, Text.size_append] at hend
  obtain ⟨kind, -, rfl⟩ := Option.map_eq_some_iff.1 hfound.statement
  simp only
  omega

/-- A statement that comes later begins behind the earlier ones. -/
theorem stop_le_start (hm : (scan s)[m]? = some st) (hk : (scan s)[k]? = some st') (h : m < k) :
    st.span.stop ≤ st'.span.start := by
  obtain ⟨hml, rfl⟩ := List.getElem?_eq_some_iff.1 hm
  obtain ⟨hkl, rfl⟩ := List.getElem?_eq_some_iff.1 hk
  exact List.pairwise_iff_getElem.1 (scan_located s).ordered m k hml hkl h

/-- Two lists do not end at one place. -/
theorem index_eq_of_listEnd (hm : (scan s)[m]? = some st) (hk : (scan s)[k]? = some st')
    (h : st.listEnd? = some p) (h' : st'.listEnd? = some p) : m = k := by
  obtain ⟨hstart, hstop⟩ := listEnd_inside (List.mem_of_getElem? hm) h
  obtain ⟨hstart', hstop'⟩ := listEnd_inside (List.mem_of_getElem? hk) h'
  rcases Nat.lt_trichotomy m k with hlt | heq | hgt
  · have := stop_le_start hm hk hlt
    omega
  · exact heq
  · have := stop_le_start hk hm hgt
    omega

/-- A plain item goes in behind the list that ends at its place, and the rest of the script is as
before. -/
theorem exists_added (hplain : Plain ins.payload) (hk : (scan s)[k]? = some st)
    (hend : st.listEnd? = some ins.position)
    (hseparator : ins.separator = Insertion.defaultSeparator) :
    ∃ s', ins.apply s = .ok s' ∧ scan s' = ins.added k (scan s) := by
  obtain ⟨pre, i, post, front, a, tail, h⟩ := exists_found hk
  have hposition := h.listEnd?_eq
  rw [hend, Option.some.injEq] at hposition
  have hins :
      ins = ⟨Text.size (pre.flatMap Segment.text ++ i.upTo front a), [' '], ins.payload⟩ := by
    rw [← hposition, ← Insertion.defaultSeparator, ← hseparator]
  have hbrace : '\x7d' ∈ ins.payload → '\x7d' ∈ Argument.texts front ++ a.token.text :=
    fun hmem => absurd (hplain.ordinary _ hmem) (by simp)
  have hsegs := segments_insert h.last h.wellFormed h.kind hplain.payload hbrace h.segments_eq
  exact ⟨_, h.apply_eq hins, h.scan_eq_added hins hsegs⟩

/-- A statement after an insertion: its items are moved, the payload may be a new one behind them,
and the next item goes where it would have gone next. -/
structure Statement.Follows (ins : Insertion) (old new : Statement) : Prop where
  kind : new.kind = old.kind
  items : new.items = old.items.map (Item.moved ins) ∨
    ∃ n, new.items = old.items.map (Item.moved ins) ++ [.literal ins.payload n]
  listEnd : new.listEnd? = old.listEnd?.map ins.next

/-- An item behind one list leaves each statement in its place of the script, with the end of its
list. -/
theorem follows_added (hk : (scan s)[k]? = some st) (hend : st.listEnd? = some ins.position)
    (hm : (scan s)[m]? = some old) :
    ∃ new, (ins.added k (scan s))[m]? = some new ∧ old.Follows ins new := by
  obtain ⟨p, hp, -⟩ := ((scan_located s).statements old (List.mem_of_getElem? hm)).exists_listEnd
  obtain ⟨hstart, hstop⟩ := listEnd_inside (List.mem_of_getElem? hk) hend
  obtain ⟨hstart', hstop'⟩ := listEnd_inside (List.mem_of_getElem? hm) hp
  have hmoved : ((scan s).map (Statement.moved ins))[m]? = some (old.moved ins) := by
    rw [List.getElem?_map, hm, Option.map_some]
  rcases Nat.lt_trichotomy m k with hlt | rfl | hgt
  · have hbefore := stop_le_start hm hk hlt
    have hlt' : p < ins.position := by omega
    refine ⟨old.moved ins, ?_, rfl, Or.inl rfl, ?_⟩
    · rw [Insertion.added, List.getElem?_modify_ne _ _ (Nat.ne_of_gt hlt), hmoved]
    · rw [Statement.listEnd?_moved_before hp (Nat.le_of_lt hlt'), hp, Option.map_some,
        Insertion.next_of_lt hlt']
  · obtain rfl : st = old := Option.some.inj (hk.symm.trans hm)
    have hnew : (ins.added m (scan s))[m]? = some ((st.moved ins).push
        (.literal ins.payload (ins.position + Text.size ins.separator))) := by
      rw [Insertion.added, List.getElem?_modify_eq, hmoved]
      rfl
    refine ⟨_, hnew, rfl, Or.inr ⟨_, rfl⟩, ?_⟩
    rw [Statement.listEnd?_push_literal, hend, Option.map_some,
      Insertion.next_of_le (Nat.le_refl _), Insertion.content, Text.size_append, Nat.add_assoc]
  · have hbehind := stop_le_start hk hm hgt
    refine ⟨old.moved ins, ?_, rfl, Or.inl rfl, ?_⟩
    · rw [Insertion.added, List.getElem?_modify_ne _ _ (Nat.ne_of_lt hgt), hmoved]
    · have hlocated := (scan_located s).statements old (List.mem_of_getElem? hm)
      rw [Statement.listEnd?_moved_behind hlocated hp (by omega), hp, Option.map_some,
        Insertion.next_of_le (by omega)]

end SourceLists
