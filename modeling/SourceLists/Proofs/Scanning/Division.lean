import SourceLists.Proofs.Insertion.Moved
import SourceLists.Proofs.Reading.Behind
import SourceLists.Proofs.Scanning.Prefix

/-! A script divided at a statement. Each part is scanned by itself, with its places counted from
its own beginning. -/

namespace SourceLists
open Grammar Grammar.Argument

/-- The same bytes of a text with `n` more bytes before it. -/
def Span.shifted (n : Nat) (span : Span) : Span := ⟨n + span.start, n + span.stop⟩

def Item.shifted (n : Nat) : Item → Item
  | literal text start => .literal text (n + start)
  | reference name span => .reference name (span.shifted n)

def Statement.shifted (n : Nat) (st : Statement) : Statement :=
  { st with items := st.items.map (Item.shifted n), span := st.span.shifted n }

namespace Grammar
variable {n start : Nat} {tok : Token} {args : List Argument} {i : Invocation}

theorem Token.item?_add : tok.item? (n + start) = (tok.item? start).map (Item.shifted n) := by
  cases tok with
  | keyword w => rfl
  | literal x => rfl
  | reference quoted name =>
    simp only [Token.item?, Option.map_some, Item.shifted, Span.shifted, Nat.add_assoc]

theorem itemsAt_add : itemsAt (n + start) args = (itemsAt start args).map (Item.shifted n) := by
  induction args generalizing start with
  | nil => rfl
  | cons a args ih =>
    rw [itemsAt, itemsAt, List.map_append, Nat.add_assoc, ih, Token.item?_add, Option.toList_map]

theorem Invocation.statement?_add :
    i.statement? (n + start) = (i.statement? start).map (Statement.shifted n) := by
  cases hk : i.kind with
  | none => simp [Invocation.statement?, hk]
  | some kind =>
    simp [Invocation.statement?, hk, Statement.shifted, Span.shifted, Nat.add_assoc, itemsAt_add]

end Grammar

namespace Scan
variable {s w x : Text} {c : Char} {i : Invocation} {n start : Nat} {p p' q : Option Char}
  {seg : Segment} {segs pre post : List Segment}

theorem Segment.statement?_add :
    seg.statement? (n + start) = (seg.statement? start).map (Statement.shifted n) := by
  cases seg with
  | statement i => exact Invocation.statement?_add
  | comment | quoted | other => rfl

theorem statementsAt_add :
    statementsAt (n + start) segs = (statementsAt start segs).map (Statement.shifted n) := by
  induction segs generalizing start with
  | nil => rfl
  | cons seg segs ih =>
    rw [statementsAt, statementsAt, List.map_append, Nat.add_assoc, ih, Segment.statement?_add,
      Option.toList_map]

/-- Of the character before a text it matters only whether a word can go on. -/
theorem Step.congr (h : Step p s seg q w) (hp : p.any isIdentifierChar = p'.any isIdentifierChar) :
    Step p' s seg q w := by
  have hbegin : ∀ c, mayBegin p c = mayBegin p' c := by
    intro c
    rw [mayBegin, mayBegin, hp]
  cases h with
  | comment s => exact .comment s
  | quoted s => exact .quoted s
  | statement hc hp hread => exact .statement hc (by rwa [← hbegin]) hread
  | other hc hread => exact .other hc (by rwa [← hbegin])

theorem segments_congr (hp : p.any isIdentifierChar = p'.any isIdentifierChar) :
    segments p s = segments p' s := by
  by_cases hs : s = []
  · rw [hs, segments_nil, segments_nil]
  · obtain ⟨seg, q, w, hstep⟩ : ∃ seg q w, Step p s seg q w := exists_step hs
    rw [hstep.segments_eq, (hstep.congr hp).segments_eq]

/-- A step is taken with the end of the text cut off, if only what stands behind it is cut. -/
theorem Step.cut (h : Step p s seg q (x ++ w)) (hne : x ++ w ≠ []) :
    Step p (seg.text ++ x) seg q x := by
  apply h.replace hne
  · intro j _ hnone
    rw [← List.append_assoc] at hnone
    exact alternative_read_eq_none_of_append hnone
  · intro c _ _ kind hnone
    rw [← List.cons_append] at hnone
    exact alternative_read_eq_none_of_append hnone

/-- Up to a statement a script is cut into the same segments if it ends there. -/
theorem segments_before (h : segments p s = pre ++ .statement i :: post) :
    segments p (pre.flatMap Segment.text) = pre := by
  induction pre generalizing p s with
  | nil => exact segments_nil
  | cons seg pre ih =>
    rw [List.cons_append] at h
    obtain ⟨q, w, hstep, hrest⟩ := segments_eq_cons.1 h
    rw [text_of_segments hrest] at hstep
    have hcut := hstep.cut (by simp [Invocation.text])
    exact segments_eq_cons.2 ⟨q, _, hcut, ih hrest⟩

/-- The statement is read where it stands. -/
theorem statement_read_of_segments (h : segments p s = pre ++ .statement i :: post) :
    statement.read (i.text ++ post.flatMap Segment.text) = some (i, post.flatMap Segment.text) := by
  induction pre generalizing p s with
  | nil =>
    obtain ⟨q, w, hstep, hrest⟩ := segments_eq_cons.1 h
    rw [← hrest, flatMap_segments]
    cases hstep with
    | statement _ _ hread => rwa [← (wellFormed_of_statement hread).1]
  | cons seg pre ih =>
    obtain ⟨q, w, hstep, hrest⟩ := segments_eq_cons.1 h
    exact ih hrest

theorem scan_behind (h : segments p s = pre ++ .statement i :: post) :
    scan (post.flatMap Segment.text) = statementsAt 0 post := by
  have hword : (none : Option Char).any isIdentifierChar = (some ')').any isIdentifierChar := by
    decide
  rw [scan, segments_congr hword, segments_behind h]

/-- By itself the statement is read with its places counted from its own beginning. -/
theorem parse_text (h : segments p s = pre ++ .statement i :: post) {st : Statement}
    (hst : i.statement? n = some st) : ∃ st', parse i.text = .ok [st'] ∧ st'.shifted n = st := by
  have halone : statement.read (i.text ++ []) = some (i, []) :=
    statement_read_of_append (w := post.flatMap Segment.text) (statement_read_of_segments h)
  rw [← Nat.add_zero n, Invocation.statement?_add] at hst
  obtain ⟨st', hst', hshifted⟩ := Option.map_eq_some_iff.1 hst
  exact ⟨st', parse_eq_singleton.2 ⟨[], i, [], by simp, isGap_nil, halone, hst'⟩, hshifted⟩

end Scan

variable {s : Text} {st : Statement}

/-- At each of its statements a script comes apart into three texts: what is scanned before, the
statement, which is read alike by itself, and what is scanned behind. -/
theorem scan_divided (h : st ∈ scan s) :
    ∃ before text after, s = before ++ (text ++ after) ∧
      st.span = ⟨Text.size before, Text.size before + Text.size text⟩ ∧
      scan s = scan before ++ st :: (scan after).map (Statement.shifted st.span.stop) ∧
      ∃ st', parse text = .ok [st'] ∧ st'.shifted st.span.start = st := by
  obtain ⟨k, hk⟩ := List.mem_iff_getElem?.1 h
  obtain ⟨pre, i, post, front, a, tail, hfound⟩ := Scan.exists_found hk
  have hsegs := hfound.segments_eq
  have hspan : st.span = ⟨Text.size (pre.flatMap Scan.Segment.text),
      Text.size (pre.flatMap Scan.Segment.text) + Text.size i.text⟩ := by
    obtain ⟨kind, -, rfl⟩ := Option.map_eq_some_iff.1 hfound.statement
    rfl
  refine ⟨pre.flatMap Scan.Segment.text, i.text, post.flatMap Scan.Segment.text, ?_, hspan, ?_, ?_⟩
  · exact hfound.text_eq
  · rw [Scan.scan_behind hsegs, ← Scan.statementsAt_add, scan, scan,
      Scan.segments_before hsegs, hsegs, Scan.statementsAt_append, Scan.statementsAt,
      Scan.Segment.statement?, Nat.zero_add, hfound.statement, hspan]
    rfl
  · rw [hspan]
    exact Scan.parse_text hsegs hfound.statement

/-- Neither the call before the library nor the quotation mark in a comment behind it is in the
way. -/
theorem scan_divided_library :
    ∃ before text after, "set(A (\nadd_library(b c)# \"\nset(D e)".toList =
      before ++ (text ++ after) ∧
      (⟨8, 24⟩ : Span) = ⟨Text.size before, Text.size before + Text.size text⟩ ∧
      scan "set(A (\nadd_library(b c)# \"\nset(D e)".toList =
        scan before ++ ⟨.addLibrary, "b".toList, [.literal "c".toList 22], ⟨8, 24⟩⟩ ::
          (scan after).map (Statement.shifted 24) ∧
      ∃ st', parse text = .ok [st'] ∧
        st'.shifted 8 = ⟨.addLibrary, "b".toList, [.literal "c".toList 22], ⟨8, 24⟩⟩ :=
  have hst : ⟨.addLibrary, "b".toList, [.literal "c".toList 22], ⟨8, 24⟩⟩ ∈
      scan "set(A (\nadd_library(b c)# \"\nset(D e)".toList := by decide +kernel
  scan_divided hst

end SourceLists
