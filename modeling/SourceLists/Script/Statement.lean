import SourceLists.Kind
import SourceLists.Text.Basic

/-! Statements that list sources, and where in a script their items stand. -/

namespace SourceLists

/-- The bytes from `start` to before `stop`. -/
structure Span where
  start : Nat
  stop : Nat
  deriving DecidableEq

/-- An entry of a source list. -/
inductive Item
  /-- A text as it stands, with its quotes. -/
  | literal (text : Text) (start : Nat)
  /-- A reference to a variable, which is never looked up. -/
  | reference (name : Text) (span : Span)
  deriving DecidableEq

namespace Item

def span : Item → Span
  | literal text start => ⟨start, start + Text.size text⟩
  | reference _ span => span

/-- A literal without any quotes at its ends. -/
def unquoted? : Item → Option Text
  | literal text _ => some (Text.trim '"' text)
  | reference _ _ => none

/-- What an item says, wherever it stands. -/
inductive Content
  | literal (text : Text)
  | reference (name : Text)
  deriving DecidableEq

def content : Item → Content
  | literal text _ => .literal text
  | reference name _ => .reference name

end Item

/-- One statement with the items of all its lists, in their order. -/
structure Statement where
  kind : Kind
  name : Text
  items : List Item
  span : Span
  deriving DecidableEq

/-- The statements of a script, in their order. -/
abbrev Script := List Statement

namespace Statement

/-- What a statement says, wherever it stands. -/
structure Content where
  kind : Kind
  name : Text
  items : List Item.Content
  deriving DecidableEq

def content (st : Statement) : Content := ⟨st.kind, st.name, st.items.map Item.content⟩

/-- The end of the last item. -/
def listEnd? (st : Statement) : Option Nat := st.items.getLast?.map fun item => item.span.stop

def refersTo (st : Statement) (name : Text) : Bool :=
  st.items.any fun item => item.content == .reference name

/-- The first literal item whose unquoted text is accepted. -/
def findLiteral? (st : Statement) (accepts : Text → Bool) : Option Item :=
  st.items.find? fun item => item.unquoted?.any accepts

/-- The command and the name: `set(SOURCES)`. -/
def describe (st : Statement) : Text := st.kind.command.toList ++ ['('] ++ st.name ++ [')']

end Statement
end SourceLists
