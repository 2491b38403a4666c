import SourceLists.Insertion.Error

/-! Texts to be inserted into a script. -/

namespace SourceLists

/-- A payload to be written at a byte position, behind a separator. -/
structure Insertion where
  position : Nat
  separator : Text
  payload : Text
  deriving DecidableEq

namespace Insertion

def defaultSeparator : Text := [' ']

def content (i : Insertion) : Text := i.separator ++ i.payload

def apply (i : Insertion) (source : Text) : Except InsertError Text :=
  match Text.splitAt? source i.position with
  | some (before, after) => .ok (before ++ i.content ++ after)
  | none => .error (.positionOutOfBounds i.position (Text.size source))

/-- Puts an insertion behind all that have no smaller position. -/
def place (i : Insertion) : List Insertion → List Insertion
  | [] => [i]
  | j :: rest => if i.position ≤ j.position then j :: place i rest else i :: j :: rest

/-- Insertions from the last position to the first, so that none moves the place of another. Of
several at one position the last comes first, which leaves them in the given order. -/
def ordered : List Insertion → List Insertion
  | [] => []
  | i :: rest => place i (ordered rest)

def applyAll (insertions : List Insertion) (source : Text) : Except InsertError Text :=
  (ordered insertions).foldlM (fun text i => i.apply text) source

end Insertion
end SourceLists
