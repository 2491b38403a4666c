import SourceLists.Insertion.Error
import SourceLists.Script.Statement

/-! The separator between the items of a list, as its author wrote it. -/

namespace SourceLists

/-- The text between the last two items. -/
def separatorOf (source : Text) (items : List Item) : Except SeparatorError Text :=
  match items.reverse with
  | last :: previous :: _ =>
    match Text.slice? source previous.span.stop last.span.start with
    | some separator => .ok separator
    | none => .error (.invalidRange previous.span.stop last.span.start)
  | _ => .error (.tooFewItems items.length)

/-- How the separator before a new item is chosen. -/
inductive Spacing
  | single
  /-- As in the list, found in the given source. A single space is kept if there is nothing to
  follow. -/
  | matching (source : Text)

def Spacing.separator (items : List Item) : Spacing → Except SeparatorError Text
  | single => .ok [' ']
  | matching source =>
    match separatorOf source items with
    | .error (.tooFewItems _) => .ok [' ']
    | found => found

end SourceLists
