import SourceLists.Path
import SourceLists.Insertion.Basic
import SourceLists.Insertion.Separator

/-! The statement to which an item is added, and the insertion behind the last item of its list. -/

namespace SourceLists

/-- The item as a path, if it is a literal. -/
def Item.path (item : Item) : Except PathError Text :=
  match item with
  | literal text _ => .ok (Text.trim '"' text)
  | reference name _ => .error (.notLiteral name)

structure Anchor where
  statement : Statement
  /-- The item by which the statement was found. -/
  matched : Option Item
  deriving DecidableEq

namespace Anchor

def describeAll (statements : List Statement) : List Text := statements.map Statement.describe

/-- The one statement that declares a target. -/
def ofTarget (script : Script) (target : Text) : Except InsertError Anchor :=
  match script.filter fun st => st.kind.declaresTarget && st.name == target with
  | [] => .error (.targetNotFound target)
  | [st] => .ok ⟨st, none⟩
  | candidates => .error (.ambiguousTarget target (describeAll candidates))

/-- The one `set` of a variable. -/
def ofVariable (script : Script) (name : Text) : Except InsertError Anchor :=
  match script.filter fun st => st.kind == .set && st.name == name with
  | [] => .error (.variableNotFound name)
  | [st] => .ok ⟨st, none⟩
  | candidates => .error (.ambiguousVariable name (describeAll candidates))

/-- The one `set` of a variable that a target has in its list. -/
def ofVariableInTarget (script : Script) (target name : Text) : Except InsertError Anchor := do
  let declaration ← ofTarget script target
  if declaration.statement.refersTo name then ofVariable script name
  else throw (.variableNotUsed name target)

/-- The statements that are searched for a reference, one stage after the other. -/
inductive Stage
  | targets | declarations | targetSources
  deriving DecidableEq

namespace Stage

def accepts : Stage → Kind → Bool
  | targets, kind => kind.declaresTarget
  | declarations, kind => kind == .set
  | targetSources, kind => kind == .targetSources

def text : Stage → String
  | targets => "targets"
  | declarations => "variable declarations"
  | targetSources => "target_sources statements"

end Stage

/-- A reference with a directory is meant exactly; a mere file name is found in any directory. -/
def isMeantBy (reference text : Text) : Bool :=
  let reference := Text.trim '"' reference
  if Path.isNested reference then text == reference else Path.sameFile reference text

def findIn (script : Script) (reference : Text) (stage : Stage) : List Anchor :=
  (script.filter fun st => stage.accepts st.kind).filterMap fun st =>
    (st.findLiteral? (isMeantBy reference)).map fun item => ⟨st, some item⟩

def searchStages (script : Script) (reference : Text) : List Stage → Except InsertError Anchor
  | [] => .error (.referenceNotFound reference)
  | stage :: later =>
    match findIn script reference stage with
    | [] => searchStages script reference later
    | [anchor] => .ok anchor
    | found =>
      .error (.ambiguousReference reference stage.text (describeAll (found.map Anchor.statement)))

/-- The one statement that lists a reference, in the first stage that has any. -/
def nextTo (script : Script) (reference : Text) : Except InsertError Anchor :=
  searchStages script reference [.targets, .declarations, .targetSources]

/-- A new item in the directory of a path. -/
def inDirectoryOf (path item : Text) : Text :=
  let directory := Path.parent path
  if directory.isEmpty then item
  else Path.withoutTrailingSeparators directory ++ [Path.separator] ++ item

def payload (anchor : Anchor) (item : Text) : Except PathError Text :=
  match anchor.matched with
  | some reference => do return inDirectoryOf (← reference.path) item
  | none => .ok item

/-- The new item behind the last item of the list. -/
def insert (anchor : Anchor) (item : Text) (spacing : Spacing) : Except InsertError Insertion := do
  let some position := anchor.statement.listEnd?
    | throw (.emptyList anchor.statement.describe)
  let payload ← (anchor.payload item).mapError .path
  let separator ← (spacing.separator anchor.statement.items).mapError .separator
  return ⟨position, separator, payload⟩

end Anchor
end SourceLists
