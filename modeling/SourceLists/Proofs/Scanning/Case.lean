import SourceLists.Proofs.Insertion.Moved
import SourceLists.Proofs.Reading.Blind
import SourceLists.Proofs.Scanning.Parts

/-! The letters of a command word do not matter to a scan. -/

namespace SourceLists
variable {word s w : Text} {start : Nat}

theorem Text.size_map_toLower (s : Text) : Text.size (s.map Char.toLower) = Text.size s := by
  have hsize : Grammar.Caseless Char.utf8Size := Grammar.caseless_of_capitals (by decide)
  induction s with
  | nil => rfl
  | cons c s ih => rw [List.map_cons, size_cons, size_cons, hsize c, ih]

namespace Grammar.Invocation
variable {i : Invocation}

/-- The same statement under another word. -/
def recased (i : Invocation) (word : Text) : Invocation := { i with word := word }

namespace WellFormed
variable (h : i.WellFormed) (hword : word.map Char.toLower = command i.kind)
include h hword

theorem recased : (i.recased word).WellFormed := { h with word := hword }

theorem recased_text (u rest : Text) :
    Recased (u ++ (i.text ++ rest)) (u ++ ((i.recased word).text ++ rest)) := by
  rw [text_append, text_append]
  exact .command_word h.word hword
    (endsWord_gap_append h.beforeParen (endsWord_cons.2 (by decide))) u

theorem size_word : Text.size word = Text.size i.word := by
  rw [← Text.size_map_toLower, hword, ← h.word, Text.size_map_toLower]

theorem size_recased : Text.size (i.recased word).text = Text.size i.text := by
  simp [text, body, head, Invocation.recased, h.size_word hword]

theorem statement?_recased : (i.recased word).statement? start = i.statement? start := by
  have hhead : Text.size (i.recased word).head = Text.size i.head := by
    simp [head, Invocation.recased, h.size_word hword]
  rw [statement?, statement?, hhead, h.size_recased hword]
  rfl

end WellFormed
end Grammar.Invocation

namespace Scan
open Grammar
variable {i : Invocation} {previous previous' : Option Char} {seg : Segment}
  {pre post : List Segment}

section recased
variable (hwf : i.WellFormed) (hword : word.map Char.toLower = command i.kind)
include hwf hword

theorem Step.recased (h : Step previous s (.statement i) previous' w) :
    Step previous ((i.recased word).text ++ w) (.statement (i.recased word)) previous' w := by
  cases h with
  | statement hc hbegin hread =>
    obtain ⟨hs, -⟩ := wellFormed_of_statement hread
    obtain ⟨-, henv⟩ := statement_read_eq_some.1 hread
    rw [hs] at henv
    have hread' :
        Grammar.statement.read ((i.recased word).text ++ w) = some (i.recased word, w) := by
      refine (hwf.recased hword).read_text fun hset => ?_
      exact blind_alternative.read_eq_none (hwf.recased_text hword [] w) (henv hset)
    refine step_of_read hread' ?_
    simp only [mayBegin, Bool.and_eq_true, Bool.not_eq_true'] at hbegin
    simp [hbegin]

/-- What is found before the statement is found again, though it was tried across the word. -/
theorem Step.before_recased (h : Step previous s seg previous' w)
    (hrest : segments previous' w = pre ++ .statement i :: post) :
    Step previous (seg.text ++ (pre.flatMap Segment.text ++
        ((i.recased word).text ++ post.flatMap Segment.text))) seg previous'
      (pre.flatMap Segment.text ++ ((i.recased word).text ++ post.flatMap Segment.text)) := by
  have hw : pre.flatMap Segment.text ++ (i.text ++ post.flatMap Segment.text) = w :=
    (text_of_segments hrest).symm
  have hagain : ∀ u kind, (alternative kind).read (u ++ w) = none → (alternative kind).read (u ++
      (pre.flatMap Segment.text ++ ((i.recased word).text ++ post.flatMap Segment.text))) =
        none := by
    intro u kind hnone
    rw [← hw, ← List.append_assoc] at hnone
    rw [← List.append_assoc]
    exact blind_alternative.read_eq_none (hwf.recased_text hword _ _) hnone
  refine h.replace ?_ _ ?_ ?_
  · rw [← hw]
    simp [Invocation.text]
  · intro j _ hnone
    exact hagain j.text none hnone
  · intro c _ _ kind hnone
    exact hagain [c] kind hnone

theorem segments_recased (h : segments previous s = pre ++ .statement i :: post) :
    segments previous
      (pre.flatMap Segment.text ++ ((i.recased word).text ++ post.flatMap Segment.text)) =
      pre ++ .statement (i.recased word) :: post :=
  segments_replace h (fun hstep => hstep.recased hwf hword) fun hstep =>
    hstep.before_recased hwf hword

end recased
end Scan

open Grammar Scan

/-- A command word can be written in any mixture of upper and lower case. -/
theorem scan_recased {st : Statement} (h : st ∈ scan s) :
    ∃ before word after, s = before ++ (word ++ after) ∧ Text.size before = st.span.start ∧
      word.map Char.toLower = st.kind.command.toList ∧
      ∀ word', word'.map Char.toLower = st.kind.command.toList →
        scan (before ++ (word' ++ after)) = scan s := by
  obtain ⟨k, hk⟩ := List.mem_iff_getElem?.1 h
  obtain ⟨pre, i, post, front, a, tail, hfound⟩ := exists_found hk
  have hwf := hfound.wellFormed
  obtain ⟨kind, hkind, hst⟩ := Option.map_eq_some_iff.1 hfound.statement
  have hcommand : command i.kind = st.kind.command.toList := by
    rw [hkind, ← hst]
    rfl
  have hcut : ∀ word, (i.recased word).text ++ post.flatMap Segment.text =
      word ++ (i.beforeParen ++ '(' :: (i.beforeName ++ (i.name ++ (i.afterName ++
        (Argument.texts i.arguments ++ ')' :: post.flatMap Segment.text))))) :=
    fun word => Invocation.text_append
  refine ⟨pre.flatMap Segment.text, i.word, _, hfound.text_eq.trans (by rw [← hcut]; rfl), ?_,
    hwf.word.trans hcommand, ?_⟩
  · rw [← hst]
  · intro word' hword'
    rw [← hcommand] at hword'
    rw [← hcut, scan, scan, segments_recased hwf hword' hfound.segments_eq, hfound.segments_eq,
      statementsAt_append, statementsAt_append]
    simp only [statementsAt, Segment.statement?, Segment.text, hwf.statement?_recased hword',
      hwf.size_recased hword']

/-- The word is read as an item of the list before it, which has no end. -/
theorem scan_recased_in_list :
    scan "set(X a\nAdd_LIBRARY(core a.cpp)".toList =
      [⟨.addLibrary, "core".toList, [.literal "a.cpp".toList 25], ⟨8, 31⟩⟩] := by
  have hlower : scan "set(X a\nadd_library(core a.cpp)".toList =
      [⟨.addLibrary, "core".toList, [.literal "a.cpp".toList 25], ⟨8, 31⟩⟩] := by decide +kernel
  have hmem := List.mem_singleton_self (⟨.addLibrary, "core".toList, [.literal "a.cpp".toList 25],
    ⟨8, 31⟩⟩ : Statement)
  rw [← hlower] at hmem
  obtain ⟨before, word, after, hs, hsize, hword, hscan⟩ := scan_recased hmem
  have hcut :
      "set(X a\n".toList ++ "add_library(core a.cpp)".toList = before ++ (word ++ after) := by
    rw [← hs]
    decide
  obtain ⟨rfl, hrest⟩ := Text.append_inj_of_size hcut (by rw [hsize]; decide)
  have hparts : "add_library".toList ++ "(core a.cpp)".toList = word ++ after := hrest
  have hlength := congrArg List.length hword
  rw [List.length_map] at hlength
  obtain ⟨rfl, rfl⟩ := List.append_inj hparts hlength.symm
  rw [← hlower, ← hscan "Add_LIBRARY".toList (by decide)]
  rfl

end SourceLists
