import SourceLists.Grammar.Lossless
import SourceLists.Script.Located

/-! Finding every statement of a script. Comments and quoted strings between statements are passed
over, and so is whatever is not understood. -/

namespace SourceLists.Scan
open Grammar

/-- The line of a comment, with its line feed. -/
def takeComment : Text → Text × Text
  | [] => ([], [])
  | c :: s =>
    if c = '\n' then ([c], s)
    else
      let (comment, rest) := takeComment s
      (c :: comment, rest)

/-- The rest of a quoted string. Without a closing quote it reaches to the end of the script. -/
def takeString (escaped : Bool) : Text → Text × Text
  | [] => ([], [])
  | c :: s =>
    if c = '"' && !escaped then ([c], s)
    else
      let (quoted, rest) := takeString (c == '\\' && !escaped) s
      (c :: quoted, rest)

inductive Segment
  | comment (text : Text)
  | quoted (text : Text)
  | statement (invocation : Invocation)
  | other (c : Char)

namespace Segment

def text : Segment → Text
  | comment text => text
  | quoted text => text
  | statement invocation => invocation.text
  | other c => [c]

def statement? (start : Nat) : Segment → Option Statement
  | statement invocation => invocation.statement? start
  | comment _ | quoted _ | other _ => none

end Segment

/-- Whether a statement may begin with `c`: the first letter of a command, and not inside a word. -/
def mayBegin (previous : Option Char) (c : Char) : Bool :=
  (c.toLower == 's' || c.toLower == 'a' || c.toLower == 't') && !previous.any isIdentifierChar

theorem takeComment_append (s : Text) : (takeComment s).1 ++ (takeComment s).2 = s := by
  induction s with
  | nil => rfl
  | cons c s ih =>
    simp only [takeComment]
    split
    · rfl
    · simp [ih]

theorem takeString_append (b : Bool) (s : Text) : (takeString b s).1 ++ (takeString b s).2 = s := by
  induction s generalizing b with
  | nil => rfl
  | cons c s ih =>
    simp only [takeString]
    split
    · rfl
    · simp [ih]

theorem length_le_of_append {s t u : Text} (h : s ++ t = u) : t.length ≤ u.length := by
  simp [← h]

/-- Cuts a script into segments. The character before it decides whether a statement can begin. -/
def segments (previous : Option Char) (s : Text) : List Segment :=
  match s with
  | [] => []
  | c :: rest =>
    if c = '#' then
      .comment (c :: (takeComment rest).1) :: segments (some '\n') (takeComment rest).2
    else if c = '"' then
      .quoted (c :: (takeString false rest).1) :: segments (some '"') (takeString false rest).2
    else if mayBegin previous c then
      match _ : statement.read (c :: rest) with
      | some (invocation, behind) => .statement invocation :: segments (some ')') behind
      | none => .other c :: segments (some c) rest
    else .other c :: segments (some c) rest
termination_by s.length
decreasing_by
  all_goals simp only [List.length_cons]
  · exact Nat.lt_succ_of_le (length_le_of_append (takeComment_append rest))
  · exact Nat.lt_succ_of_le (length_le_of_append (takeString_append false rest))
  · exact length_lt_of_statement (by assumption)
  · omega
  · omega

/-- No character is lost or added. -/
theorem flatMap_segments (previous : Option Char) (s : Text) :
    (segments previous s).flatMap Segment.text = s := by
  fun_induction segments previous s with
  | case1 => rfl
  | case2 _ rest ih => simp [Segment.text, ih, takeComment_append]
  | case3 _ rest _ ih => simp [Segment.text, ih, takeString_append]
  | case4 _ c rest _ _ _ i behind h ih => simp [Segment.text, ih, statement_lossless h]
  | case5 _ c rest _ _ _ _ ih => simp [Segment.text, ih]
  | case6 _ c rest _ _ _ ih => simp [Segment.text, ih]

/-- The statements of segments of which the first begins at `start`. -/
def statementsAt (start : Nat) : List Segment → Script
  | [] => []
  | segment :: rest =>
    (segment.statement? start).toList ++ statementsAt (start + Text.size segment.text) rest

end Scan

/-- Every statement of a script that lists sources. -/
def scan (s : Text) : Script := Scan.statementsAt 0 (Scan.segments none s)

end SourceLists
