import SourceLists.Script.Located

/-! Reading the one statement at the start of a text. -/

namespace SourceLists

/-- A text that does not begin with a statement: what was tried where reading got furthest. -/
structure ParseError where
  position : Nat
  detail : String
  deriving DecidableEq

namespace ParseError

def message (e : ParseError) : String := "Parse error: " ++ e.detail

def code : String := "cmake::parse::syntax"

def help : String :=
  "supported statements are set(), add_library(), add_executable() and target_sources()"

end ParseError

/-- The statement behind the first gap, whatever follows it. The setting of an environment variable
is read, but is no statement of the result. -/
def parse (s : Text) : Except ParseError Script :=
  match Grammar.singleStatement.read s with
  | some ((gap, invocation), _) => .ok (invocation.statement? (Text.size gap)).toList
  | none =>
    let a := Grammar.singleStatement.tried false s (.start s)
    .error ⟨Text.size s - a.left, a.message⟩

end SourceLists
