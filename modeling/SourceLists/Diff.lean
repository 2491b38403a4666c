import SourceLists.Text.Lines

/-! The lines in which two texts differ. -/

namespace SourceLists.Diff

/-- One row of the table of lengths, below the row `upper`: how many lines the first lines of one
text, up to `line`, have in common with those of the other, up to each of `others`. -/
def row (line : Text) (diagonal left : Nat) : List Text → List Nat → List Nat
  | other :: others, up :: upper =>
    let cell := if line = other then diagonal + 1 else max left up
    cell :: row line up cell others upper
  | _, _ => []

def rows (others : List Text) (upper : List Nat) : List Text → List (List Nat)
  | [] => []
  | line :: lines =>
    let next := row line 0 0 others upper
    next :: rows others next lines

/-- All rows, one behind the other. -/
def table (old new : List Text) : Array Nat :=
  (rows new (List.replicate new.length 0) old).flatten.toArray

/-- Goes back from the ends of both texts and takes the lines on which they agree. Before the first
cell of a row stands the last one of the row above. -/
def walk (lengths : Array Nat) (old new : List Text) (i j : Nat) (taken : List Text) :
    List Text :=
  match i, j with
  | i + 1, j + 1 =>
    match old[i]?, new[j]? with
    | some line, some other =>
      if line = other then walk lengths old new i j (line :: taken)
      else if i = 0 && j = 0 then taken
      else if i = 0 || lengths.getD (i * new.length + j - 1) 0 >
          lengths.getD ((i - 1) * new.length + j) 0 then
        walk lengths old new (i + 1) j taken
      else walk lengths old new i (j + 1) taken
    | _, _ => taken
  | _, _ => taken
termination_by i + j

/-- The lines that both texts keep, in their order. -/
def common (old new : List Text) : List Text :=
  walk (table old new) old new old.length new.length []

inductive Mark
  | same | removed | added
  deriving DecidableEq

/-- Lines that follow one another and have one mark. -/
structure Chunk where
  mark : Mark
  lines : List Text
  deriving DecidableEq

/-- How many lines all three begin with. -/
def agreement : List Text → List Text → List Text → Nat
  | k :: kept, l :: old, m :: new =>
    if l = k ∧ m = k then agreement kept old new + 1 else 0
  | _, _, _ => 0

/-- The lines before the next one that is kept. -/
def beforeNext (kept lines : List Text) : List Text :=
  lines.takeWhile fun line => kept.head? != some line

def chunk (mark : Mark) (lines : List Text) : List Chunk :=
  if lines.isEmpty then [] else [⟨mark, lines⟩]

theorem agreement_le_left (kept old new : List Text) :
    agreement kept old new ≤ old.length := by
  fun_induction agreement kept old new with
  | case1 => simpa
  | case2 => simp
  | case3 => simp

theorem agreement_le_right (kept old new : List Text) :
    agreement kept old new ≤ new.length := by
  fun_induction agreement kept old new with
  | case1 => simpa
  | case2 => simp
  | case3 => simp

theorem length_drop_beforeNext_le (kept lines : List Text) (n : Nat) :
    (beforeNext kept (lines.drop n)).length ≤ lines.length - n :=
  List.length_drop ▸ (List.takeWhile_sublist _).length_le

theorem merge_decreases {n r a x y : Nat} (hx : n ≤ x) (hy : n ≤ y) (hr : r ≤ x - n)
    (ha : a ≤ y - n) (h : ¬(n = 0 ∧ r = 0 ∧ a = 0)) : x - (n + r) + (y - (n + a)) < x + y := by
  omega

/-- Divides both texts into chunks around the lines that are kept: what they share, then what only
the old text has, then what only the new one has. -/
def merge (kept old new : List Text) : List Chunk :=
  let n := agreement kept old new
  let removed := beforeNext (kept.drop n) (old.drop n)
  let added := beforeNext (kept.drop n) (new.drop n)
  let chunks := chunk .same (old.take n) ++ chunk .removed removed ++ chunk .added added
  if n = 0 ∧ removed = [] ∧ added = [] then []
  else chunks ++ merge (kept.drop n) (old.drop (n + removed.length))
    (new.drop (n + added.length))
termination_by old.length + new.length
decreasing_by
  rename_i h
  rw [List.length_drop, List.length_drop]
  refine merge_decreases (agreement_le_left kept old new)
    (agreement_le_right kept old new) (length_drop_beforeNext_le _ _ n)
    (length_drop_beforeNext_le _ _ n) fun ⟨hn, hr, ha⟩ => h ⟨hn, ?_, ?_⟩
  · exact List.length_eq_zero_iff.1 hr
  · exact List.length_eq_zero_iff.1 ha

/-- The lines of a text; an empty text has none. -/
def linesOf (s : Text) : List Text := if s.isEmpty then [] else Text.lines s

def chunks (old new : Text) : List Chunk :=
  let kept := Text.unlines (common (Text.lines old) (Text.lines new))
  merge (linesOf kept) (linesOf old) (linesOf new)

namespace Mark

def symbol : Mark → Char
  | same => ' '
  | removed => '-'
  | added => '+'

def escape (code : String) : Text := '\x1b' :: '[' :: code.toList

/-- The escape sequences before a chunk on a terminal with colours. -/
def colour : Mark → Text
  | same => escape "0m"
  | removed => escape "0m" ++ escape "31m"
  | added => escape "0m" ++ escape "32m"

end Mark

def Chunk.print (inColour : Bool) (c : Chunk) : Text :=
  (if inColour then c.mark.colour else [])
    ++ c.lines.flatMap fun line => c.mark.symbol :: line ++ ['\n']

/-- All lines of both texts, each with its mark. -/
def print (inColour : Bool) (old new : Text) : Text :=
  (chunks old new).flatMap (Chunk.print inColour)
    ++ if inColour then Mark.escape "0m" else []

end SourceLists.Diff
