import SourceLists.Proofs.Rendering.RoundTrip
import SourceLists.Proofs.Scanning.Passing
import SourceLists.Text.Lines

/-! Scripts that are put together from statements, comments and other commands. -/

namespace SourceLists.Scan
open Grammar

variable {x word rest : Text} {p : Option Char} {start : Nat} {args : List Text}

/-- What can stand on its own in a script. -/
inductive Part
  /-- A statement as it is written out. -/
  | statement (st : Statement)
  | comment (text : Text)
  /-- A call of a command that lists no sources. -/
  | command (word : Text) (arguments : List Text)

namespace Part

def text : Part → Text
  | statement st => st.render
  | comment text => '#' :: text
  | command word arguments => word ++ ['('] ++ List.intercalate [' '] arguments ++ [')']

def WellFormed : Part → Prop
  | statement st => st.content.WellFormed
  | comment text => '\n' ∉ text
  | command word arguments =>
    (∀ c ∈ word, isIdentifierChar c) ∧
      (∀ kind : Kind, word.map Char.toLower ≠ kind.command.toList) ∧
      ∀ x ∈ arguments, IsArgument x

def content? : Part → Option Statement.Content
  | statement st => some st.content
  | comment _ | command _ _ => none

end Part

/-- What the statements among some parts say, and the ranges that they take if each part has a line
feed behind it and the first one begins at `start`. -/
def placed (start : Nat) : List Part → List (Statement.Content × Span)
  | [] => []
  | part :: parts =>
    (part.content?.map fun c => (c, ⟨start, start + Text.size part.text⟩)).toList ++
      placed (start + Text.size part.text + 1) parts

/-- The same of statements that are found. -/
def places (script : Script) : List (Statement.Content × Span) :=
  script.map fun st => (st.content, st.span)

/-- A word that is no command of a statement is not read as one. -/
theorem statement_read_word (hx : ∀ c ∈ word, isIdentifierChar c) (hend : EndsWord rest)
    (hne : ∀ kind : Kind, word.map Char.toLower ≠ kind.command.toList) :
    statement.read (word ++ rest) = none := by
  rw [Option.eq_none_iff_forall_ne_some]
  rintro ⟨i, rest'⟩ hread
  obtain ⟨hs, hwf⟩ := wellFormed_of_statement hread
  have hword : word = i.word := by
    rw [← hwf.takeWhile_text rest', ← hs, List.takeWhile_append_of_pos hx,
      takeWhile_of_endsWord hend, List.append_nil]
  exact hne _ (hword ▸ hwf.word)

theorem passed_command (h : (Part.command word args).WellFormed) :
    Passed p (Part.command word args).text (some ')') rest := by
  obtain ⟨hword, hne, hargs⟩ := h
  have hnone :
      statement.read (word ++ '(' :: (List.intercalate [' '] args ++ ')' :: rest)) = none :=
    statement_read_word hword (endsWord_cons.2 (by decide)) hne
  obtain ⟨m, hm⟩ := passed_word (p := p) hword hnone
  obtain ⟨n, hn⟩ : ∃ n, Passed (some '(') (List.intercalate [' '] args) n (')' :: rest) :=
    passed_arguments (fun x hx => (hargs x hx).isPlainRun) (endsWord_cons.2 (by decide))
      (uncalled_cons (by decide) (by decide))
  have hopen : Passed m ['('] (some '(') (List.intercalate [' '] args ++ ')' :: rest) :=
    passed_of_not_mayBegin (by decide) (by simp [mayBegin])
  have hclose : Passed n [')'] (some ')') rest :=
    passed_of_not_mayBegin (by decide) (by simp [mayBegin])
  refine Passed.append (m := n) ?_ hclose
  refine Passed.append (m := some '(') ?_ hn
  exact Passed.append (m := m) (by simpa using hm) (by simpa using hopen)

theorem takeComment_skip (hx : '\n' ∉ x) (s : Text) :
    takeComment (x ++ s) = (x ++ (takeComment s).1, (takeComment s).2) := by
  induction x with
  | nil => rfl
  | cons c x ih =>
    obtain ⟨hc, hx⟩ := not_or.1 (mt List.mem_cons.2 hx)
    rw [List.cons_append, takeComment, if_neg (Ne.symm hc), ih hx]
    rfl

theorem takeComment_line (hx : '\n' ∉ x) (hrest : ∀ c ∈ rest.head?, c = '\n') :
    takeComment (x ++ rest) = (x ++ rest.take 1, rest.drop 1) := by
  rw [takeComment_skip hx]
  cases rest with
  | nil => rfl
  | cons c rest =>
    obtain rfl := hrest c rfl
    simp [takeComment]

/-- A comment takes the line feed behind it. -/
theorem passed_comment (hx : '\n' ∉ x) (hrest : ∀ c ∈ rest.head?, c = '\n') :
    Passed p ('#' :: (x ++ rest.take 1)) (some '\n') (rest.drop 1) := by
  have hstep : Step p ('#' :: (x ++ rest)) _ _ _ := .comment (x ++ rest)
  rw [takeComment_line hx hrest] at hstep
  exact hstep.passed fun _ => rfl

theorem statementsAt_lineFeed (hrest : ∀ c ∈ rest.head?, c = '\n') :
    statementsAt start (segments p rest) =
      statementsAt (start + Text.size (rest.take 1)) (segments (some '\n') (rest.drop 1)) := by
  cases rest with
  | nil => simp [segments_nil, statementsAt]
  | cons c rest =>
    obtain rfl := hrest c rfl
    have hfeed : Passed p ['\n'] (some '\n') rest :=
      passed_of_not_mayBegin (by decide) (by simp [mayBegin])
    exact hfeed start

/-- A statement begins with a letter that may begin one. -/
theorem mayBegin_word {i : Invocation} (h : i.WellFormed) (hp : ¬ p.any isIdentifierChar) :
    ∀ c ∈ i.word.head?, mayBegin p c := by
  have hfirst : ∀ kind, ∀ c ∈ (command kind).head?, c = 's' ∨ c = 'a' ∨ c = 't' := by
    rintro (- | (- | - | - | -)) <;> simp [command, Kind.command]
  intro c hc
  have hlower : c.toLower ∈ (command i.kind).head? := by
    rw [← h.word, List.head?_map, hc]
    rfl
  rcases hfirst i.kind _ hlower with hc | hc | hc
  · simp [mayBegin, hc, hp]
  · simp [mayBegin, hc, hp]
  · simp [mayBegin, hc, hp]

/-- Where a statement is read, it is found, if it does not begin inside of a word. -/
theorem step_of_read {s : Text} {i : Invocation} (h : statement.read s = some (i, rest))
    (hp : ¬ p.any isIdentifierChar) : Step p s (.statement i) (some ')') rest := by
  obtain ⟨rfl, hwf⟩ := wellFormed_of_statement h
  obtain ⟨c, word, hword⟩ := List.exists_cons_of_ne_nil hwf.word_ne_nil
  obtain ⟨hquote, -, -, hhash⟩ :=
    isQuiet_of_isIdentifierChar
      (hwf.isIdentifierChar_word c (by rw [hword]; exact List.mem_cons_self))
  have hbegin : mayBegin p c := mayBegin_word hwf hp c (by rw [hword]; rfl)
  rw [Invocation.text_append, hword, List.cons_append] at h ⊢
  exact .statement ⟨hhash, hquote⟩ hbegin h

/-- A statement on one line is found. -/
theorem places_line {c : Statement.Content} {toks : List Token} (h : c.WellFormed)
    (hd : Decorated c.kind (c.items.map Item.Content.token) toks) (hp : ¬ p.any isIdentifierChar) :
    places (statementsAt start (segments p (line c.kind c.name toks ++ rest))) =
      (c, ⟨start, start + Text.size (line c.kind c.name toks)⟩) ::
        places (statementsAt (start + Text.size (line c.kind c.name toks))
          (segments (some ')') rest)) := by
  obtain ⟨st, hst, hsay, hspan⟩ := Statement.Content.exists_statement_line hd start
  have hread := statement_read_line (h.wellFormed_line hd) rest
  rw [(step_of_read hread hp).segments_eq, statementsAt, Segment.statement?, hst,
    Segment.text, Invocation.text_line, places, places, Option.toList_some, List.map_append,
    List.map_singleton, hsay, hspan]
  rfl

variable {part : Part} {parts : List Part}

/-- The scanner finds what a part states, and goes on behind the line feed. -/
theorem places_part (h : part.WellFormed) (hp : ¬ p.any isIdentifierChar)
    (hrest : ∀ c ∈ rest.head?, c = '\n') (start : Nat) :
    places (statementsAt start (segments p (part.text ++ rest))) =
      (part.content?.map fun c => (c, ⟨start, start + Text.size part.text⟩)).toList ++
        places (statementsAt (start + Text.size part.text + Text.size (rest.take 1))
          (segments (some '\n') (rest.drop 1))) := by
  cases part with
  | statement st =>
    have hwf : st.content.WellFormed := h
    have hne : st.items ≠ [] := by simpa [Statement.content] using hwf.nonempty
    have hline : st.render = line st.content.kind st.content.name st.content.tokens :=
      Statement.render_eq hne
    rw [Part.text, hline, places_line hwf (Statement.Content.decorated_tokens hwf.nonempty) hp,
      statementsAt_lineFeed hrest]
    rfl
  | comment x =>
    have hcut : (Part.comment x).text ++ rest = '#' :: (x ++ rest.take 1) ++ rest.drop 1 := by
      rw [Part.text, List.cons_append, List.cons_append, List.append_assoc, List.take_append_drop]
    rw [hcut, passed_comment h hrest start, ← List.cons_append, Text.size_append, Nat.add_assoc]
    rfl
  | command word args =>
    rw [passed_command h start, statementsAt_lineFeed hrest]
    rfl

theorem places_parts (h : ∀ part ∈ parts, part.WellFormed) (hp : ¬ p.any isIdentifierChar)
    (start : Nat) :
    places (statementsAt start (segments p (Text.unlines (parts.map Part.text)))) =
      placed start parts := by
  induction parts generalizing start p with
  | nil => simp [Text.unlines, segments_nil, statementsAt, places, placed]
  | cons part parts ih =>
    obtain ⟨hpart, hparts⟩ := List.forall_mem_cons.1 h
    rw [placed]
    cases parts with
    | nil =>
      have hend : ∀ c ∈ ([] : Text).head?, c = '\n' := by simp
      have hfound := places_part hpart hp hend start
      rw [List.append_nil] at hfound
      rw [Text.unlines, List.map_singleton, List.intercalate_singleton, hfound]
      simp [segments_nil, statementsAt, places, placed]
    | cons next parts =>
      have hfeed :
          ∀ c ∈ ('\n' :: Text.unlines ((next :: parts).map Part.text)).head?, c = '\n' := by simp
      have hfound := places_part hpart hp hfeed start
      rw [Text.unlines, List.map_cons, List.map_cons, List.intercalate_cons_cons, List.append_assoc,
        List.singleton_append]
      have hnext := ih (p := some '\n') hparts (by decide) (start + Text.size part.text + 1)
      exact hfound.trans (congrArg _ hnext)

end SourceLists.Scan

namespace SourceLists
open Grammar Scan

/-- Between other commands and comments a scan finds the statements, all of them and no others. -/
theorem scan_unlines {parts : List Part} (h : ∀ part ∈ parts, part.WellFormed) :
    (scan (Text.unlines (parts.map Part.text))).map (fun st => (st.content, st.span)) =
      placed 0 parts :=
  places_parts h (by simp) 0

theorem scan_unlines_mixed :
    (scan "# set(a b)\nproject(set \"add_library(x y)\")\nadd_library(core a.cpp)".toList).map
      (fun st => (st.content, st.span)) =
        [(⟨.addLibrary, "core".toList, [.literal "a.cpp".toList]⟩, ⟨43, 66⟩)] := by
  have hcomment : (Part.comment " set(a b)".toList).WellFormed := by
    unfold Part.WellFormed
    decide
  have hquoted : IsArgument "\"add_library(x y)\"".toList :=
    Or.inr ⟨"add_library(x y)\"".toList,
      closes_of_ordinary (x := "add_library(x y)".toList) (by decide), rfl⟩
  have hcommand : (Part.command "project".toList
      ["set".toList, "\"add_library(x y)\"".toList]).WellFormed := by
    refine ⟨by decide, by rintro (- | - | - | -) <;> decide, List.forall_mem_cons.2 ⟨?_, ?_⟩⟩
    · exact Or.inl ⟨by decide, by decide⟩
    · exact List.forall_mem_singleton.2 hquoted
  have hstatement : (Part.statement ⟨.addLibrary, "core".toList, [.literal "a.cpp".toList 0],
      ⟨0, 0⟩⟩).WellFormed := wellFormed_library
  have hparts := List.forall_mem_cons.2 ⟨hcomment, List.forall_mem_cons.2
    ⟨hcommand, List.forall_mem_singleton.2 hstatement⟩⟩
  convert scan_unlines hparts using 3
  · decide
  · decide

end SourceLists
