import SourceLists.Insertion.Anchor

/-! The two files of a class, added next to those of another class. -/

namespace SourceLists

/-- The extensions of each file, in the order in which they are tried. -/
structure Extensions where
  header : List Text
  implementation : List Text
  deriving DecidableEq

namespace Extensions

def default : Extensions where
  header := [".hpp", ".h", ".hh", ".h++", ".hxx"].map String.toList
  implementation := [".c", ".C", ".c++", ".cc", ".cpp", ".cxx"].map String.toList

def ofRole (extensions : Extensions) : FileRole → List Text
  | .header => extensions.header
  | .implementation => extensions.implementation

end Extensions

/-- The two insertions, each made for the script as it is. -/
structure ClassInsertions where
  header : Insertion
  implementation : Insertion
  deriving DecidableEq

namespace ClassInsertions

/-- The order in which one text takes both. At one position the implementation goes first and so
ends up behind the header. -/
def inOrder (c : ClassInsertions) : List Insertion :=
  if c.header.position > c.implementation.position then [c.header, c.implementation]
  else [c.implementation, c.header]

/-- The statement that lists a file of the reference class, and the extension of that file. -/
def findReference (script : Script) (reference : Text) (role : FileRole) (tried : List Text) :
    List Text → Except ClassError (Anchor × Text)
  | [] => .error (.notFound role reference tried)
  | extension :: later =>
    match Anchor.nextTo script (reference ++ extension) with
    | .ok anchor => .ok (anchor, extension)
    | .error cause =>
      if cause.category = .notFound then findReference script reference role tried later
      else .error (.insert role (reference ++ extension) cause)

/-- One file of a new class, with the extension of the reference. -/
def insertFile (script : Script) (extensions : Extensions) (name reference : Text)
    (spacing : Spacing) (role : FileRole) : Except ClassError Insertion := do
  let candidates := extensions.ofRole role
  let (anchor, extension) ← findReference script reference role candidates candidates
  (anchor.insert (name ++ extension) spacing).mapError (.insert role (reference ++ extension))

def nextTo (script : Script) (extensions : Extensions) (name reference : Text) (spacing : Spacing) :
    Except ClassError ClassInsertions := do
  let header ← insertFile script extensions name reference spacing .header
  let implementation ← insertFile script extensions name reference spacing .implementation
  return ⟨header, implementation⟩

end ClassInsertions
end SourceLists
