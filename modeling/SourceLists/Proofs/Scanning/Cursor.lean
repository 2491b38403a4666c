import SourceLists.Proofs.Location
import SourceLists.Proofs.Scanning.Parts
import SourceLists.Proofs.Scanning.Previous
import SourceLists.Proofs.Scanning.Quoted

/-! The scanner as a loop over byte offsets. It finds what `scan` finds, and its cursor goes forward
from character to character. -/

namespace SourceLists

namespace Text
variable {s before rest : Text} {n : Nat}

/-- What stands behind a byte offset, unless that is inside of a character or beyond the end. -/
def behind? (s : Text) (n : Nat) : Option Text := (splitAt? s n).map Prod.snd

/-- The character in front of a byte offset. -/
def charBefore? (s : Text) (n : Nat) : Option Char := (splitAt? s n).bind fun cut => cut.1.getLast?

theorem behind?_append : behind? (before ++ rest) (size before) = some rest := by
  rw [behind?, splitAt?_size_append]
  rfl

theorem charBefore?_append : charBefore? (before ++ rest) (size before) = before.getLast? := by
  rw [charBefore?, splitAt?_size_append]
  rfl

end Text

namespace Scan
open Grammar

/-- Where the loop stands, and the character that it takes to stand before. -/
structure Cursor where
  position : Nat
  previous : Option Char
  deriving DecidableEq

def Cursor.start : Cursor := ⟨0, none⟩

/-- The end of the comment that begins at `position`. -/
def commentEnd? (s : Text) (position : Nat) : Option Nat :=
  (Text.behind? s position).map fun rest => position + Text.size (takeComment rest).1

/-- The end of the quoted string that begins at `position`. -/
def quotedEnd? (s : Text) (position : Nat) : Option Nat :=
  (Text.behind? s position).map fun rest =>
    position + Text.size (rest.take 1) + Text.size (takeString false (rest.drop 1)).1

/-- The statement that begins at `position`, if it lists sources, and its end. -/
def statementAt? (s : Text) (position : Nat) : Option (Option Statement × Nat) :=
  (Text.behind? s position).bind fun rest => (statement.read rest).map fun (i, _) =>
    (i.statement? position, position + Text.size i.text)

/-- One turn of the loop: a statement if one is found, and the next cursor. A statement is tried
where the test `tries` says so. -/
def turn? (tries : Cursor → Char → Bool) (s : Text) (k : Cursor) :
    Option (Option Statement × Cursor) :=
  ((Text.behind? s k.position).bind List.head?).bind fun c =>
    if c = '#' then (commentEnd? s k.position).map fun stop => (none, ⟨stop, some '\n'⟩)
    else if c = '"' then (quotedEnd? s k.position).map fun stop => (none, ⟨stop, some '"'⟩)
    else match if tries k c then statementAt? s k.position else none with
      | some (found, stop) => some (found, ⟨stop, some ')'⟩)
      | none => some (none, ⟨k.position + c.utf8Size, some c⟩)

/-- Turns up to the end of the text, which find the statements of the script. -/
inductive Runs (tries : Cursor → Char → Bool) (s : Text) : Cursor → Script → Prop
  | stop {k : Cursor} (h : k.position = Text.size s) : Runs tries s k []
  | turn {k next : Cursor} {found : Option Statement} {script : Script}
      (h : turn? tries s k = some (found, next)) (hrest : Runs tries s next script) :
      Runs tries s k (found.toList ++ script)

/-- The cursors that the loop has from the start of the text on. -/
inductive Reaches (tries : Cursor → Char → Bool) (s : Text) : Cursor → Prop
  | start : Reaches tries s .start
  | turn {k next : Cursor} {found : Option Statement} (h : Reaches tries s k)
      (hturn : turn? tries s k = some (found, next)) : Reaches tries s next

/-- The test of the scanner: a first letter of a command, and not inside a word as far as the cursor
tells. -/
def tracked (k : Cursor) (c : Char) : Bool := mayBegin k.previous c

/-- The cursor divides the text, and what it takes to stand before is there. At the end of a text,
where nothing is tried any more, it can be mistaken. -/
structure Cursor.Divides (k : Cursor) (before rest : Text) : Prop where
  position_eq : k.position = Text.size before
  previous_eq : rest ≠ [] → k.previous = before.getLast?

/-- The test agrees with the one of the scanner wherever a statement can be read. -/
def Agrees (tries : Cursor → Char → Bool) (s : Text) : Prop :=
  ∀ k before c rest, s = before ++ c :: rest → k.Divides before (c :: rest) →
    (statement.read (c :: rest)).isSome → tries k c = mayBegin k.previous c

variable {tries : Cursor → Char → Bool} {s before rest w : Text} {k next : Cursor} {q : Option Char}
  {seg : Segment} {found : Option Statement} {script script' : Script}

theorem agrees_tracked : Agrees tracked s := fun _ _ _ _ _ _ _ => rfl

theorem turn?_eq_none (h : k.position = Text.size s) : turn? tries s k = none := by
  have hend : Text.behind? (s ++ []) (Text.size s) = some [] := Text.behind?_append
  rw [List.append_nil] at hend
  rw [turn?, h, hend]
  rfl

/-- The loop is a function of where it stands. -/
theorem Runs.unique (h : Runs tries s k script) (h' : Runs tries s k script') :
    script = script' := by
  induction h generalizing script' with
  | stop hend =>
    cases h' with
    | stop => rfl
    | turn hturn =>
      rw [turn?_eq_none hend] at hturn
      contradiction
  | turn hturn _ ih =>
    cases h' with
    | stop hend =>
      rw [turn?_eq_none hend] at hturn
      contradiction
    | turn hturn' hrest' =>
      rw [hturn] at hturn'
      cases hturn'
      rw [ih hrest']

namespace Cursor.Divides

theorem start : Cursor.start.Divides [] s := ⟨rfl, fun _ => rfl⟩

theorem behind?_eq (h : k.Divides before rest) :
    Text.behind? (before ++ rest) k.position = some rest := by
  rw [h.position_eq, Text.behind?_append]

theorem isBoundary (h : k.Divides before rest) : (before ++ rest).IsBoundary k.position :=
  ⟨before, rest, rfl, h.position_eq.symm⟩

theorem tried_eq {c : Char} {t : Text} (h : k.Divides before (c :: t))
    (htries : Agrees tries (before ++ c :: t)) :
    (if tries k c then statementAt? (before ++ c :: t) k.position else none) =
      if mayBegin k.previous c then (statement.read (c :: t)).map fun (i, _) =>
        (i.statement? k.position, k.position + Text.size i.text) else none := by
  rw [statementAt?, h.behind?_eq, Option.bind_some]
  cases hread : statement.read (c :: t) with
  | none => simp
  | some b => rw [htries k before c t rfl h (by rw [hread]; rfl)]

/-- A turn of the loop is a step of the scanner. -/
theorem turn?_eq (h : k.Divides before rest) (htries : Agrees tries (before ++ rest))
    (hstep : Step k.previous rest seg q w) : turn? tries (before ++ rest) k =
      some (seg.statement? k.position, ⟨k.position + Text.size seg.text, q⟩) := by
  have hrest := h.behind?_eq
  generalize hk : k.previous = previous at hstep
  cases hstep with
  | comment t =>
    simp only [turn?, commentEnd?, hrest]
    simp [takeComment, Segment.text, Segment.statement?]
  | quoted t =>
    simp only [turn?, quotedEnd?, hrest]
    simp [Segment.text, Segment.statement?, Nat.add_assoc]
  | statement hc hbegin hread =>
    have htried := h.tried_eq htries
    rw [hk, if_pos hbegin, hread] at htried
    simp only [turn?, hrest, Option.bind_some, List.head?_cons, if_neg hc.1, if_neg hc.2, htried]
    rfl
  | @other c _ hc hread =>
    have htried := h.tried_eq htries
    -- The test may be passed all the same, but then nothing is read.
    have hnone :
        (if tries k c then statementAt? (before ++ c :: w) k.position else none) = none := by
      by_cases hbegin : mayBegin k.previous c
      · rw [htried, if_pos hbegin, hread (hk ▸ hbegin)]
        rfl
      · rw [htried, if_neg hbegin]
    simp only [turn?, hrest, Option.bind_some, List.head?_cons, if_neg hc.1, if_neg hc.2, hnone]
    rfl

/-- Behind a segment the loop divides the text, too. -/
theorem step (h : k.Divides before rest) (hstep : Step k.previous rest seg q w) :
    (⟨k.position + Text.size seg.text, q⟩ : Cursor).Divides (before ++ seg.text) w := by
  refine ⟨by rw [h.position_eq, Text.size_append], fun hw => ?_⟩
  rw [List.getLast?_append, hstep.getLast?_eq hw, hstep.previous_eq]
  rfl

theorem rest_ne_nil (h : k.Divides before rest) (hlt : k.position < Text.size (before ++ rest)) :
    rest ≠ [] := by
  rintro rfl
  rw [h.position_eq, List.append_nil] at hlt
  omega

/-- Where something is left, there is a turn. -/
theorem exists_turn (h : k.Divides before rest) (htries : Agrees tries (before ++ rest))
    (hrest : rest ≠ []) : ∃ seg q w, Step k.previous rest seg q w ∧
      turn? tries (before ++ rest) k =
        some (seg.statement? k.position, ⟨k.position + Text.size seg.text, q⟩) := by
  obtain ⟨seg, q, w, hstep⟩ : ∃ seg q w, Step k.previous rest seg q w := exists_step hrest
  exact ⟨seg, q, w, hstep, h.turn?_eq htries hstep⟩

/-- The loop goes on to the end, and finds the statements of the segments that are left. -/
theorem runs (h : k.Divides before rest) (htries : Agrees tries (before ++ rest)) :
    Runs tries (before ++ rest) k (statementsAt k.position (segments k.previous rest)) := by
  -- A step leaves less of the text, and the cursor that it leaves divides it.
  induction hn : rest.length using Nat.strongRecOn generalizing before rest k with
  | ind n ih =>
    by_cases hrest : rest = []
    · rw [hrest, segments_nil]
      exact .stop (by rw [h.position_eq, List.append_nil])
    · obtain ⟨seg, q, w, hstep, hturn⟩ := h.exists_turn htries hrest
      have htext : before ++ rest = (before ++ seg.text) ++ w := by
        rw [List.append_assoc, ← hstep.text_append]
      have hlt : w.length < n := by
        have hpos := List.length_pos_iff.2 hstep.text_ne_nil
        have hlength := congrArg List.length hstep.text_append
        rw [List.length_append] at hlength
        omega
      rw [htext] at htries
      have hruns := ih w.length hlt (h.step hstep) htries rfl
      rw [← htext] at hruns
      rw [hstep.segments_eq]
      exact .turn hturn hruns

end Cursor.Divides

theorem runs_iff (htries : Agrees tries s) : Runs tries s .start script ↔ script = scan s := by
  have hruns : Runs tries s .start (scan s) := Cursor.Divides.runs .start htries
  constructor
  · intro h
    exact h.unique hruns
  · rintro rfl
    exact hruns

/-- Every cursor that the loop comes to divides the text behind some of its segments, and what the
scanner makes of the rest are the others. -/
theorem Reaches.divides (htries : Agrees tries s) (h : Reaches tries s k) :
    ∃ front rest, s = front.flatMap Segment.text ++ rest ∧
      k.Divides (front.flatMap Segment.text) rest ∧
      segments none s = front ++ segments k.previous rest := by
  induction h with
  | start => exact ⟨[], s, rfl, .start, rfl⟩
  | @turn k next found _ hturn ih =>
    obtain ⟨front, rest, hs, hk, hfront⟩ := ih
    by_cases hrest : rest = []
    · rw [turn?_eq_none (by rw [hk.position_eq, hs, hrest, List.append_nil])] at hturn
      contradiction
    · obtain ⟨seg, q, w, hstep, hturn'⟩ := hk.exists_turn (hs ▸ htries) hrest
      have htext :
          (front ++ [seg]).flatMap Segment.text = front.flatMap Segment.text ++ seg.text := by
        simp
      rw [hs, hturn'] at hturn
      cases hturn
      refine ⟨front ++ [seg], w, ?_, htext ▸ hk.step hstep, ?_⟩
      · rw [htext, List.append_assoc, ← hstep.text_append, hs]
      · rw [hfront, hstep.segments_eq, List.append_assoc, List.singleton_append]

/-- The scanner takes the quoted string that is read, or else all that is left. -/
theorem quotedEnd?_append : quotedEnd? (before ++ '"' :: rest) (Text.size before) =
    some ((quotedString.read ('"' :: rest)).elim (Text.size (before ++ '"' :: rest))
      fun read => Text.size before + Text.size read.1) := by
  have hread : quotedString.read ('"' :: rest) =
      (takeQuoted rest).map fun read => ('"' :: read.1, read.2) := rfl
  rw [quotedEnd?, Text.behind?_append, hread]
  cases hq : takeQuoted rest with
  | none => simp [takeString_eq, hq, Nat.add_assoc]
  | some b => simp [takeString_eq, hq, Nat.add_assoc]

/-- The loop comes to the end of the text with what the scanner finds. Until then each turn goes
forward, from one place between characters to another; and a quoted string ends for it where it ends
for the grammar. -/
theorem cursor_advances (s : Text) :
    (∀ script, Runs tracked s .start script ↔ script = scan s) ∧
    (∀ k, Reaches tracked s k →
      (∃ front rest, segments none s = front ++ segments k.previous rest ∧
        Text.behind? s k.position = some rest) ∧
      s.IsBoundary k.position ∧ k.position ≤ Text.size s ∧
      (k.position < Text.size s → ∃ found next,
        turn? tracked s k = some (found, next) ∧ k.position < next.position)) ∧
    ∀ before rest, s = before ++ '"' :: rest →
      quotedString.read ('"' :: rest) = (Rule.exactly ['"'] ++ quotedRest).read ('"' :: rest) ∧
      quotedEnd? s (Text.size before) =
        some ((quotedString.read ('"' :: rest)).elim (Text.size s)
          fun read => Text.size before + Text.size read.1) := by
  refine ⟨fun script => runs_iff agrees_tracked, ?_, ?_⟩
  · intro k hreach
    obtain ⟨front, rest, hs, hk, hfront⟩ := hreach.divides agrees_tracked
    rw [hs] at hfront ⊢
    refine ⟨⟨front, rest, hfront, hk.behind?_eq⟩, hk.isBoundary, ?_, ?_⟩
    · rw [hk.position_eq, Text.size_append]
      omega
    · intro hlt
      obtain ⟨seg, q, w, hstep, hturn⟩ := hk.exists_turn agrees_tracked (hk.rest_ne_nil hlt)
      have hpos := mt Text.size_eq_zero.1 hstep.text_ne_nil
      refine ⟨_, _, hturn, ?_⟩
      dsimp only
      omega
  · rintro before rest rfl
    exact ⟨quotedString_read, quotedEnd?_append⟩

/-- Behind two bytes of one character there is a string with an escaped quote, and then one that a
backslash leaves open. -/
theorem cursor_advances_escaped :
    Text.IsBoundary "é\"\\\"\" \"\\".toList 2 ∧ quotedEnd? "é\"\\\"\" \"\\".toList 2 = some 6 ∧
      quotedEnd? "é\"\\\"\" \"\\".toList 7 = some 9 := by
  have hreach : Reaches tracked "é\"\\\"\" \"\\".toList ⟨2, some 'é'⟩ :=
    .turn .start (show turn? tracked _ .start = some (none, _) by decide +kernel)
  obtain ⟨-, hcursor, hquoted⟩ := cursor_advances "é\"\\\"\" \"\\".toList
  have hclosed := (hquoted ['é'] _ rfl).2
  have hopen := (hquoted "é\"\\\"\" ".toList ['\\'] rfl).2
  exact ⟨(hcursor _ hreach).2.1, hclosed, hopen⟩

/-- Whether the character before the cursor, whatever the cursor takes for it, belongs to no
word. -/
def outsideWords (s : Text) (k : Cursor) (_ : Char) : Bool :=
  !(Text.charBefore? s k.position).any isIdentifierChar

/-- Where a statement can be read, the scanner's test asks no more than not to be inside a word. -/
theorem mayBegin_of_read {c : Char} (h : (statement.read (c :: rest)).isSome)
    (hq : ¬ q.any isIdentifierChar) : mayBegin q c := by
  obtain ⟨⟨i, w⟩, hread⟩ := Option.isSome_iff_exists.1 h
  cases step_of_read hread hq with
  | statement _ hbegin _ => exact hbegin

theorem agrees_outsideWords : Agrees (outsideWords s) s := by
  intro k before c rest hs hk hread
  have hprevious : Text.charBefore? s k.position = k.previous := by
    rw [hs, hk.position_eq, Text.charBefore?_append, hk.previous_eq (List.cons_ne_nil c rest)]
  rw [outsideWords, hprevious]
  by_cases hword : k.previous.any isIdentifierChar
  · simp [mayBegin, hword]
  · rw [mayBegin_of_read hread hword, Bool.eq_false_iff.2 hword]
    rfl

/-- The test of the scanner loses no statement: as much is found if a statement is tried wherever
the character before is none of a word, since a statement begins with one of three letters, and
since the character that the cursor keeps is the one before it wherever something is left to try. -/
theorem runs_outsideWords (s : Text) :
    (∀ script, Runs tracked s .start script ↔ script = scan s) ∧
    (∀ script, Runs (outsideWords s) s .start script ↔ script = scan s) ∧
    (∀ before c rest, s = before ++ c :: rest → (statementAt? s (Text.size before)).isSome →
      c.toLower = 's' ∨ c.toLower = 'a' ∨ c.toLower = 't') ∧
    ∀ k, Reaches tracked s k → k.position < Text.size s →
      k.previous = Text.charBefore? s k.position := by
  refine ⟨fun script => runs_iff agrees_tracked, fun script => runs_iff agrees_outsideWords, ?_, ?_⟩
  · rintro before c rest rfl h
    rw [statementAt?, Text.behind?_append, Option.bind_some, Option.isSome_map] at h
    have hbegin : mayBegin none c := mayBegin_of_read h (by simp)
    simpa [mayBegin, or_assoc] using hbegin
  · intro k hreach hlt
    obtain ⟨front, rest, hs, hk, -⟩ := hreach.divides agrees_tracked
    rw [hs] at hlt ⊢
    rw [hk.previous_eq (hk.rest_ne_nil hlt), hk.position_eq, Text.charBefore?_append]

/-- A comment, a quoted string and a statement stand right before what is tried. -/
theorem runs_outsideWords_behind_each :
    Runs (outsideWords "#s\n\"t\"set(A b)add_library(x y)".toList)
        "#s\n\"t\"set(A b)add_library(x y)".toList .start
        [⟨.set, ['A'], [.literal ['b'] 12], ⟨6, 14⟩⟩,
          ⟨.addLibrary, ['x'], [.literal ['y'] 28], ⟨14, 30⟩⟩] ∧
      some '"' = Text.charBefore? "#s\n\"t\"set(A b)add_library(x y)".toList 6 ∧
      some ')' = Text.charBefore? "#s\n\"t\"set(A b)add_library(x y)".toList 14 := by
  have hline : Reaches tracked "#s\n\"t\"set(A b)add_library(x y)".toList ⟨3, some '\n'⟩ :=
    .turn .start (show turn? tracked _ .start = some (none, _) by decide +kernel)
  have hquoted : Reaches tracked "#s\n\"t\"set(A b)add_library(x y)".toList ⟨6, some '"'⟩ :=
    .turn hline (show turn? tracked _ _ = some (none, _) by decide +kernel)
  have hset : Reaches tracked "#s\n\"t\"set(A b)add_library(x y)".toList ⟨14, some ')'⟩ :=
    .turn hquoted (show turn? tracked _ _ =
      some (some ⟨.set, ['A'], [.literal ['b'] 12], ⟨6, 14⟩⟩, _) by decide +kernel)
  obtain ⟨-, hruns, -, hprevious⟩ := runs_outsideWords "#s\n\"t\"set(A b)add_library(x y)".toList
  exact ⟨(hruns _).2 (by decide +kernel), hprevious _ hquoted (by decide),
    hprevious _ hset (by decide)⟩

end Scan
end SourceLists
