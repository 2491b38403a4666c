import SourceLists.Grammar.Invocation
import SourceLists.Script.Statement

/-! The statement that an invocation stands for, with its place in the script. -/

namespace SourceLists.Grammar

def Token.item? (start : Nat) : Token → Option Item
  | keyword _ => none
  | literal text => some (.literal text start)
  | reference quoted name =>
    some (.reference name ⟨start, start + Text.size (text (reference quoted name))⟩)

/-- The items among arguments of which the first begins at `start`. -/
def itemsAt (start : Nat) : List Argument → List Item
  | [] => []
  | a :: rest => (a.token.item? start).toList ++ itemsAt (start + Text.size a.text) rest

/-- The statement, if it lists sources, for an invocation that begins at `start`. -/
def Invocation.statement? (start : Nat) (i : Invocation) : Option Statement :=
  i.kind.map fun kind =>
    { kind := kind
      name := i.name
      items := itemsAt (start + Text.size i.head) i.arguments
      span := ⟨start, start + Text.size i.text⟩ }

end SourceLists.Grammar
