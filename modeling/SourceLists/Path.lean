import SourceLists.Text.Basic

/-! File references read as paths. Only `/` divides them; a backslash is an ordinary character. -/

namespace SourceLists.Path
variable {s : Text}

def separator : Char := '/'

/-- What follows the last separator. -/
def fileName (s : Text) : Text := (s.reverse.takeWhile (· != separator)).reverse

/-- What ends in the last separator; empty if there is none. -/
def parent (s : Text) : Text := (s.reverse.dropWhile (· != separator)).reverse

theorem parent_append_fileName : parent s ++ fileName s = s := by
  rw [parent, fileName, ← List.reverse_append, List.takeWhile_append_dropWhile,
    List.reverse_reverse]

/-- A separator stands between other characters: `dir/a.h`, but neither `/a.h` nor `dir/`. -/
def isNested (s : Text) : Bool := (Text.trim separator s).contains separator

def withoutTrailingSeparators (s : Text) : Text := Text.trimEnd separator s

def sameFile (s t : Text) : Bool := fileName s == fileName t

end SourceLists.Path
