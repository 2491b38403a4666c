import SourceLists.Json
import SourceLists.Script.Statement

/-! The listing of a script's statements as JSON. -/

namespace SourceLists

def Span.listing (span : Span) : Json :=
  .object [("start".toList, .number span.start), ("end".toList, .number span.stop)]

def Item.listing : Item → Json
  | literal text start => .object [("String".toList,
      .object [("text".toList, .string text), ("start".toList, .number start)])]
  | reference name span => .object [("VariableUse".toList,
      .object [("name".toList, .string name), ("span".toList, span.listing)])]

/-- The names under which a kind of statement and its declared name are listed. -/
def Kind.labels : Kind → String × String
  | set => ("SetNormalVariable", "var_name")
  | addLibrary => ("AddLibrary", "library_name")
  | addExecutable => ("AddExecutable", "executable_name")
  | targetSources => ("TargetSources", "target_name")

def Statement.listing (st : Statement) : Json :=
  .object [(st.kind.labels.1.toList, .object
    [(st.kind.labels.2.toList, .string st.name),
     ("list".toList, .object [("items".toList, .array (st.items.map Item.listing))]),
     ("span".toList, st.span.listing)])]

def Script.listing (script : Script) : Json := .array (script.map Statement.listing)

end SourceLists
