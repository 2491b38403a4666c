import SourceLists.Proofs.Insertion.Directory
import SourceLists.Proofs.Insertion.Plain
import SourceLists.Proofs.Scanning.Prefix

/-! When a new item next to a reference is one item, and nothing else changes. -/

namespace SourceLists
open Grammar Grammar.Argument

variable {s s' r t x : Text} {script : Script} {anchor : Anchor} {st st' : Statement}
  {k n start : Nat}

namespace Anchor

theorem mem_of_findIn {stage : Stage} (h : anchor ∈ findIn script r stage) :
    anchor.statement ∈ script ∧ ∃ text start, anchor.matched = some (.literal text start) ∧
      .literal text start ∈ anchor.statement.items := by
  obtain ⟨st, hst, hfound⟩ := List.mem_filterMap.1 h
  obtain ⟨item, hitem, rfl⟩ := Option.map_eq_some_iff.1 hfound
  have haccepted := List.find?_some hitem
  cases item with
  | reference name span => contradiction
  | literal text start =>
    exact ⟨(List.mem_filter.1 hst).1, text, start, rfl, List.mem_of_find?_eq_some hitem⟩

/-- The statement next to whose item something goes is in the script, and the item is a literal. -/
theorem mem_of_searchStages {stages : List Stage} (h : searchStages script r stages = .ok anchor) :
    anchor.statement ∈ script ∧ ∃ text start, anchor.matched = some (.literal text start) ∧
      .literal text start ∈ anchor.statement.items := by
  induction stages with
  | nil => contradiction
  | cons stage later ih =>
    rw [searchStages] at h
    split at h
    · exact ih h
    · next found hfound =>
      cases h
      exact mem_of_findIn (hfound ▸ List.mem_singleton_self anchor)
    · contradiction

end Anchor

namespace Grammar
variable {args : List Argument} {i : Invocation} {rest : Text}

theorem exists_argument_of_item (h : .literal x n ∈ itemsAt start args) :
    ∃ b ∈ args, b.token = .literal x := by
  obtain ⟨front, b, tail, rfl, hitem⟩ := exists_of_mem_itemsAt h
  refine ⟨b, List.mem_append_right front List.mem_cons_self, ?_⟩
  cases htoken : b.token with
  | keyword | reference =>
    rw [htoken] at hitem
    cases hitem
  | literal y =>
    rw [htoken] at hitem
    cases hitem
    rfl

/-- An item of a statement that is found is an item by itself, and no comment. -/
theorem settled_item_of_mem_items (hwf : i.WellFormed) (h : i.statement? start = some st)
    (hx : .literal x n ∈ st.items) : (Token.literal x).IsItem ∧ Settled x := by
  obtain ⟨kind, -, rfl⟩ := Option.map_eq_some_iff.1 h
  obtain ⟨b, hb, htoken⟩ := exists_argument_of_item hx
  have hsound := sound_of_accepts hwf.accepts b.token (List.mem_map_of_mem hb)
  have hsettled := hwf.laid.settled_text hwf.settled b hb hsound.ne_nil
  rw [htoken] at hsettled
  refine ⟨?_, hsettled⟩
  rcases hsound with hi | ⟨w, hw, -⟩
  · exact htoken ▸ hi
  · rw [htoken] at hw
    contradiction

theorem mem_texts {b : Argument} {c : Char} (hb : b ∈ args) (hc : c ∈ b.token.text) :
    c ∈ texts args := by
  rw [texts, List.mem_flatMap]
  exact ⟨b, hb, List.mem_append_left _ hc⟩

end Grammar

namespace Scan.Found
variable {pre post : List Segment} {i : Invocation} {front tail : List Argument} {a : Argument}
  {ins : Insertion}

theorem start_eq (h : Found s k st pre i post front a tail) :
    st.span.start = Text.size (pre.flatMap Segment.text) := by
  obtain ⟨kind, -, rfl⟩ := Option.map_eq_some_iff.1 h.statement
  rfl

theorem kind_eq (h : Found s k st pre i post front a tail) : i.kind = some st.kind := by
  obtain ⟨kind, hkind, rfl⟩ := Option.map_eq_some_iff.1 h.statement
  exact hkind

theorem name_eq (h : Found s k st pre i post front a tail) : i.name = st.name := by
  obtain ⟨kind, -, rfl⟩ := Option.map_eq_some_iff.1 h.statement
  rfl

theorem getElem? (h : Found s k st pre i post front a tail) : (scan s)[k]? = some st := by
  rw [scan, h.segments_eq, statementsAt_append, ← h.index, Nat.zero_add]
  simp [statementsAt, Segment.statement?, h.statement]

/-- An item of the list is written before the end of the list. -/
theorem mem_of_mem_items (h : Found s k st pre i post front a tail) {c : Char}
    (hx : .literal x n ∈ st.items) (hc : c ∈ x) : c ∈ texts front ++ a.token.text := by
  obtain ⟨kind, -, rfl⟩ := Option.map_eq_some_iff.1 h.statement
  rw [h.last.itemsAt_arguments] at hx
  obtain ⟨b, hb, htoken⟩ := exists_argument_of_item hx
  have hmem : c ∈ texts (front ++ [⟨a.token, []⟩]) := by
    apply mem_texts hb
    rw [htoken]
    exact hc
  simpa using hmem

/-- Where the statement is found again, it is found with the new item. -/
theorem segments_eq_pushed (h : Found s k st pre i post front a tail) (hx : Entry x)
    (hs' : s' = pre.flatMap Segment.text ++
      ((i.pushed front a tail x).text ++ post.flatMap Segment.text))
    (hst' : st' ∈ scan s') (hstart : st'.span.start = st.span.start) (hkind : st'.kind = st.kind) :
    segments none s' = pre ++ .statement (i.pushed front a tail x) :: post := by
  obtain ⟨k', hk'⟩ := List.mem_iff_getElem?.1 hst'
  obtain ⟨pre', i', post', front', a', tail', h'⟩ := exists_found hk'
  have hs'' : s' = pre'.flatMap Segment.text ++ (i'.text ++ post'.flatMap Segment.text) :=
    h'.text_eq
  have hsize : Text.size (pre'.flatMap Segment.text) = Text.size (pre.flatMap Segment.text) := by
    rw [← h'.start_eq, hstart, h.start_eq]
  obtain ⟨hpre, hrest⟩ := Text.append_inj_of_size (hs'.symm.trans hs'') hsize.symm
  obtain rfl := segments_unique h.segments_eq h'.segments_eq hpre
  -- Two statements of one kind are read at one place.
  have hpushed := h.last.wellFormed_pushed h.wellFormed h.kind hx
  have hread :
      (alternative i.kind).read ((i.pushed front a tail x).text ++ post.flatMap Segment.text) =
      some (i.pushed front a tail x, post.flatMap Segment.text) :=
    alternative_read_eq_some.2 ⟨rfl, rfl, hpushed⟩
  have hread' : (alternative i.kind).read (i'.text ++ post'.flatMap Segment.text) =
      some (i', post'.flatMap Segment.text) := by
    refine alternative_read_eq_some.2 ⟨?_, rfl, h'.wellFormed⟩
    rw [h.kind_eq, h'.kind_eq, hkind]
  rw [← hrest, hread] at hread'
  obtain ⟨rfl, hpost⟩ := Prod.mk.inj (Option.some.inj hread')
  have hpost' : post = post' := by
    rw [← segments_behind h.segments_eq, hpost, segments_behind h'.segments_eq]
  rw [h'.segments_eq, hpost']

/-- An insertion that adds an item has put in an entry, and the statement is where it was. -/
theorem entry_of_added (h : Found s k st pre i post front a tail)
    (hend : st.listEnd? = some ins.position) (hadded : scan s' = ins.added k (scan s))
    (hne : ins.payload ≠ "PARENT_SCOPE".toList) :
    Entry ins.payload ∧ ∃ st' ∈ scan s', st'.span.start = st.span.start ∧ st'.kind = st.kind := by
  have hst' : (scan s')[k]? = some ((st.moved ins).push
      (.literal ins.payload (ins.position + Text.size ins.separator))) := by
    rw [hadded, Insertion.added, List.getElem?_modify_eq, List.getElem?_map, h.getElem?]
    rfl
  obtain ⟨pre', i', post', front', a', tail', h'⟩ := exists_found hst'
  have hmem : .literal ins.payload (ins.position + Text.size ins.separator) ∈ ((st.moved ins).push
      (.literal ins.payload (ins.position + Text.size ins.separator))).items := by
    simp [Statement.push]
  obtain ⟨hitem, hsettled⟩ := settled_item_of_mem_items h'.wellFormed h'.statement hmem
  refine ⟨⟨hitem, hsettled, hne⟩, _, List.mem_of_getElem? hst', ?_, rfl⟩
  have hle : st.span.start ≤ ins.position := by
    rw [h.listEnd?_eq] at hend
    rw [h.start_eq, ← Option.some.inj hend, Text.size_append]
    exact Nat.le_add_right _ _
  exact Insertion.moved_of_le hle

/-- An entry is added to the list if the statement is found again. Without quotes it is. -/
theorem scan_of_entry (h : Found s k st pre i post front a tail) (hx : Entry x)
    (hbrace : '\x7d' ∈ x → ∃ text n, .literal text n ∈ st.items ∧ '\x7d' ∈ text)
    (hs' : s' = pre.flatMap Segment.text ++
      ((i.pushed front a tail x).text ++ post.flatMap Segment.text))
    (hfound : '"' ∈ x → ∃ st' ∈ scan s', st'.span.start = st.span.start ∧ st'.kind = st.kind)
    (hins : ins = ⟨Text.size (pre.flatMap Segment.text ++ i.upTo front a), [' '], x⟩) :
    scan s' = ins.added k (scan s) := by
  apply h.scan_eq_added hins
  by_cases hquote : '"' ∈ x
  · obtain ⟨st', hst', hstart, hkind⟩ := hfound hquote
    exact h.segments_eq_pushed hx hs' hst' hstart hkind
  · have hpayload : Payload x := ⟨hx, isBare_of_isItem hx.item hquote⟩
    rw [hs']
    refine segments_insert h.last h.wellFormed h.kind hpayload ?_ h.segments_eq
    intro hmem
    obtain ⟨text, n, htext, hc⟩ := hbrace hmem
    exact h.mem_of_mem_items htext hc

end Scan.Found

namespace Plain
variable {p text : Text}

theorem unreserved_payload (ht : Plain t) : Anchor.inDirectoryOf p t ∉ reserved := by
  intro hmem
  rcases Anchor.inDirectoryOf_cases (p := p) (t := t) with ⟨-, h⟩ | h
  · exact ht.unreserved (h ▸ hmem)
  · have hslash : ∀ w ∈ reserved, Path.separator ∉ w := by decide
    apply hslash _ hmem
    rw [h]
    exact List.mem_append_right _ List.mem_cons_self

/-- The path of a new item is an entry if the reference is one without quotes. -/
theorem entry_payload (ht : Plain t) (hitem : (Token.literal text).IsItem) (hsettled : Settled text)
    (hquote : '"' ∉ text) : Entry (Anchor.inDirectoryOf text t) := by
  have hbare : ∀ c ∈ Anchor.inDirectoryOf text t, Grammar.isBare c := by
    intro c hc
    rcases Anchor.mem_of_mem_inDirectoryOf hc with hc | rfl | hc
    · exact isBare_of_isItem hitem hquote c hc
    · decide
    · exact ht.isBare c hc
  have hlast := Anchor.getLast?_inDirectoryOf (p := text) ht.nonempty
  have hne : Anchor.inDirectoryOf text t ≠ [] := by
    intro hnil
    rw [hnil] at hlast
    exact ht.nonempty (List.getLast?_eq_none_iff.1 hlast.symm)
  have hbrace : '\x7d' ∉ (Anchor.inDirectoryOf text t).getLast? := by
    rw [hlast]
    exact fun hmem => ht.ordinary _ (List.mem_of_mem_getLast? hmem) (by simp)
  refine ⟨isItem_of_bare hne hbare hbrace (scope_of_unreserved ht.unreserved_payload), ?_,
    ne_of_unreserved ht.unreserved_payload⟩
  intro c hc
  rcases Anchor.head?_inDirectoryOf c hc with h | rfl | h
  · exact hsettled c h
  · decide
  · exact ht.payload.settled c h

end Plain

/-- The name of a file without a directory. -/
structure FileName (t : Text) : Prop where
  nonempty : t ≠ []
  ordinary : ∀ c ∈ t, c.isAlphanum ∨ c ∈ ['_', '-', '.']
  unreserved : t ∉ reserved

/-- The `k`-th list has one more item, a file in the directory of a path, and nothing else is
new. -/
structure AddsFile (s s' : Text) (k : Nat) (ins : Insertion) (path name : Text) : Prop where
  scan : scan s' = ins.added k (scan s)
  fileName : Path.fileName (Text.trim '"' ins.payload) = name
  directory : Path.withoutTrailingSeparators (Path.parent (Text.trim '"' ins.payload)) =
    Path.withoutTrailingSeparators (Path.parent path)

namespace FileName
variable {p : Text}

theorem not_mem (ht : FileName t) {c : Char} (hc : ¬ c.isAlphanum) (hc' : c ∉ ['_', '-', '.']) :
    c ∉ t := by
  intro hmem
  rcases ht.ordinary c hmem with h | h
  · exact hc h
  · exact hc' h

theorem fileName_payload (ht : FileName t) (hp : ∀ a ∈ p.head?, a ≠ '"') :
    Path.fileName (Text.trim '"' (Anchor.inDirectoryOf p t)) = t ∧
      Path.withoutTrailingSeparators (Path.parent (Text.trim '"' (Anchor.inDirectoryOf p t))) =
        Path.withoutTrailingSeparators (Path.parent p) := by
  have hseparator : Path.separator ∉ t := ht.not_mem (by decide) (by decide)
  have hquote : ∀ a ∈ t, a ≠ '"' := by
    rintro a ha rfl
    exact ht.not_mem (by decide) (by decide) ha
  rw [Anchor.trim_inDirectoryOf hp (fun a ha => hquote a (List.mem_of_mem_head? ha))
    fun a ha => hquote a (List.mem_of_mem_getLast? ha)]
  exact ⟨Anchor.fileName_inDirectoryOf.trans (Path.fileName_of_not_mem hseparator),
    Anchor.parent_inDirectoryOf hseparator⟩

theorem plain (ht : FileName t) : Plain t := by
  have hchar : ∀ c ∈ t, c ∉ [' ', '\t', '\r', '\n', '"', '(', ')', '\x7d', '#'] := by
    intro c hc hmem
    have hodd : ∀ d ∈ [' ', '\t', '\r', '\n', '"', '(', ')', '\x7d', '#'],
        ¬ (d.isAlphanum ∨ d ∈ ['_', '-', '.']) := by decide
    exact hodd c hmem (ht.ordinary c hc)
  refine ⟨ht.nonempty, fun c hc hmem => hchar c hc ?_, fun hhash => ?_, ht.unreserved⟩
  · exact List.mem_append_left ['#'] hmem
  · exact hchar '#' (List.mem_of_mem_head? hhash) (by simp)

theorem unreserved_payload (ht : FileName t) : Anchor.inDirectoryOf p t ∉ reserved :=
  ht.plain.unreserved_payload

end FileName

/-- What is put in next to a reference: the new file in its directory, behind the list. -/
theorem Anchor.insert_of_matched {text : Text} {position : Nat}
    (hend : anchor.statement.listEnd? = some position)
    (hmatched : anchor.matched = some (.literal text start)) :
    anchor.insert t .single = .ok ⟨position, [' '], inDirectoryOf (Text.trim '"' text) t⟩ := by
  rw [insert, hend, payload, hmatched]
  rfl

theorem Anchor.found_of_nextTo (h : nextTo (scan s) r = .ok anchor) :
    ∃ text start k pre i post front a tail, anchor.matched = some (.literal text start) ∧
      .literal text start ∈ anchor.statement.items ∧
      Scan.Found s k anchor.statement pre i post front a tail := by
  obtain ⟨hmem, text, start, hmatched, hitem⟩ := mem_of_searchStages h
  obtain ⟨k, hk⟩ := List.mem_iff_getElem?.1 hmem
  obtain ⟨pre, i, post, front, a, tail, hfound⟩ := Scan.exists_found hk
  exact ⟨text, start, k, pre, i, post, front, a, tail, hmatched, hitem, hfound⟩

/-- A brace in the path of a new file is one of the reference. -/
theorem FileName.brace_of_payload {text : Text} (ht : FileName t)
    (h : '\x7d' ∈ Anchor.inDirectoryOf (Text.trim '"' text) t) : '\x7d' ∈ text := by
  rcases Anchor.mem_of_mem_inDirectoryOf h with hc | hc | hc
  · exact Text.mem_of_mem_trim hc
  · contradiction
  · exact absurd hc (ht.not_mem (by decide) (by decide))

/-- A new file next to a reference is one more item in the directory of the reference exactly if its
path can be read as one item and, should it have quotes inside, these leave the statement where it
was. -/
theorem addsFile_iff (h : Anchor.nextTo (scan s) r = .ok anchor) (ht : FileName t) :
    ∃ k text start ins s', (scan s)[k]? = some anchor.statement ∧
      anchor.matched = some (.literal text start) ∧ anchor.insert t .single = .ok ins ∧
      ins.apply s = .ok s' ∧
      (AddsFile s s' k ins (Text.trim '"' text) t ↔
        Entry ins.payload ∧ ('"' ∈ ins.payload → ∃ st ∈ scan s',
          st.span.start = anchor.statement.span.start ∧ st.kind = anchor.statement.kind)) := by
  obtain ⟨text, start, k, pre, i, post, front, a, tail, hmatched, hitem, hfound⟩ :=
    Anchor.found_of_nextTo h
  refine ⟨k, text, start, _, _, hfound.getElem?, hmatched,
    Anchor.insert_of_matched hfound.listEnd?_eq hmatched, hfound.apply_eq rfl, ?_⟩
  constructor
  · intro hadds
    obtain ⟨hentry, hagain⟩ := hfound.entry_of_added hfound.listEnd?_eq hadds.scan
      (ne_of_unreserved ht.unreserved_payload)
    exact ⟨hentry, fun _ => hagain⟩
  · rintro ⟨hentry, hagain⟩
    obtain ⟨hname, hparent⟩ := ht.fileName_payload Text.head?_trim
    refine ⟨hfound.scan_of_entry hentry ?_ rfl hagain rfl, hname, hparent⟩
    exact fun hbrace => ⟨text, start, hitem, ht.brace_of_payload hbrace⟩

/-- Without its quotes a path with a blank is two items. -/
theorem not_addsFile_blank :
    ∃ k text start ins s',
      (Anchor.mk ⟨.addLibrary, "core".toList, [.literal "\"my dir/a.cpp\"".toList 17], ⟨0, 32⟩⟩
        (some (.literal text start))).insert "b.cpp".toList .single = .ok ins ∧
      ins.apply "add_library(core \"my dir/a.cpp\")".toList = .ok s' ∧
      ¬ AddsFile "add_library(core \"my dir/a.cpp\")".toList s' k ins (Text.trim '"' text)
        "b.cpp".toList := by
  have h : Anchor.nextTo (scan "add_library(core \"my dir/a.cpp\")".toList) "my dir/a.cpp".toList =
      .ok ⟨⟨.addLibrary, "core".toList, [.literal "\"my dir/a.cpp\"".toList 17], ⟨0, 32⟩⟩,
        some (.literal "\"my dir/a.cpp\"".toList 17)⟩ := by decide +kernel
  have ht : FileName "b.cpp".toList := ⟨by decide, by decide, by decide⟩
  obtain ⟨k, text, start, ins, s', -, hmatched, hinsert, happly, hiff⟩ := addsFile_iff h ht
  obtain ⟨rfl, rfl⟩ : "\"my dir/a.cpp\"".toList = text ∧ 17 = start := by simpa using hmatched
  have hpayload : "my dir/b.cpp".toList = ins.payload :=
    congrArg Insertion.payload (Except.ok.inj hinsert)
  have hentry : ¬ Entry "my dir/b.cpp".toList := by
    intro hentry
    have hitem : listItem.read "my dir/b.cpp".toList = some (.literal "my dir/b.cpp".toList, []) :=
      hentry.item
    revert hitem
    decide +kernel
  refine ⟨k, _, _, ins, s', hinsert, happly, ?_⟩
  rw [hiff, ← hpayload]
  exact fun hboth => hentry hboth.1

example : (scan "add_library(core \"my dir/a.cpp\" my dir/b.cpp)".toList).map Statement.content =
    [⟨.addLibrary, "core".toList, [.literal "\"my dir/a.cpp\"".toList, .literal "my".toList,
      .literal "dir/b.cpp".toList]⟩] := by decide +kernel

/-- Next to a reference without quotes a new file is always one more item. -/
theorem addsFile_of_unquoted {text : Text} (h : Anchor.nextTo (scan s) r = .ok anchor)
    (ht : FileName t) (hmatched : anchor.matched = some (.literal text start))
    (hquote : '"' ∉ text) :
    ∃ k ins s', (scan s)[k]? = some anchor.statement ∧ anchor.insert t .single = .ok ins ∧
      ins.apply s = .ok s' ∧ AddsFile s s' k ins text t := by
  obtain ⟨text', start', k, pre, i, post, front, a, tail, hmatched', hitem, hfound⟩ :=
    Anchor.found_of_nextTo h
  obtain ⟨rfl, rfl⟩ : text = text' ∧ start = start' := by
    rw [hmatched'] at hmatched
    simpa using hmatched.symm
  have htrim : Text.trim '"' text = text := Text.trim_of_not_mem hquote
  obtain ⟨hi, hsettled⟩ := settled_item_of_mem_items hfound.wellFormed hfound.statement hitem
  have hentry := ht.plain.entry_payload hi hsettled hquote
  have hquote' : '"' ∉ Anchor.inDirectoryOf text t := by
    intro hmem
    rcases Anchor.mem_of_mem_inDirectoryOf hmem with hc | hc | hc
    · exact hquote hc
    · contradiction
    · exact ht.not_mem (by decide) (by decide) hc
  obtain ⟨hname, hparent⟩ := ht.fileName_payload (p := text) (htrim ▸ Text.head?_trim)
  have hinsert := Anchor.insert_of_matched (t := t) hfound.listEnd?_eq hmatched
  rw [htrim] at hinsert
  refine ⟨k, _, _, hfound.getElem?, hinsert, hfound.apply_eq rfl, ?_, hname, hparent⟩
  refine hfound.scan_of_entry hentry ?_ rfl (fun hmem => absurd hmem hquote') rfl
  intro hbrace
  rw [← htrim] at hbrace
  exact ⟨text, start, hitem, ht.brace_of_payload hbrace⟩

end SourceLists
