import SourceLists.Text.Basic

/-! Why an item or a class cannot be inserted. -/

namespace SourceLists

/-- A reference to a variable was read as a path. -/
inductive PathError
  | notLiteral (name : Text)
  deriving DecidableEq

inductive SeparatorError
  | tooFewItems (found : Nat)
  | invalidRange (start stop : Nat)
  deriving DecidableEq

inductive InsertError
  | targetNotFound (target : Text)
  | ambiguousTarget (target : Text) (candidates : List Text)
  | variableNotFound (name : Text)
  | ambiguousVariable (name : Text) (candidates : List Text)
  | variableNotUsed (name target : Text)
  | referenceNotFound (reference : Text)
  | ambiguousReference (reference : Text) (stage : String) (candidates : List Text)
  | emptyList (statement : Text)
  | positionOutOfBounds (position size : Nat)
  | path (cause : PathError)
  | separator (cause : SeparatorError)
  deriving DecidableEq

/-- The two files of a class. -/
inductive FileRole
  | header | implementation
  deriving DecidableEq

inductive ClassError
  | notFound (role : FileRole) (reference : Text) (tried : List Text)
  | insert (role : FileRole) (reference : Text) (cause : InsertError)
  deriving DecidableEq

def listed (texts : List Text) : String := ", ".intercalate (texts.map Text.shown)

namespace PathError

def message : PathError → String
  | notLiteral name =>
    "Only a list item string can be interpreted as a path, "
      ++ s!"found variable use `$\x7b{name.shown}\x7d`"

def code : PathError → String
  | notLiteral _ => "cmake::path::not_a_list_item_string"

end PathError

namespace SeparatorError

def message : SeparatorError → String
  | tooFewItems found => s!"At least two list items are needed to infer a separator, found {found}"
  | invalidRange start stop =>
    s!"The separator range {start}..{stop} does not lie within the source text"

def code : SeparatorError → String
  | tooFewItems _ => "cmake::whitespace::too_few_items"
  | invalidRange _ _ => "cmake::whitespace::invalid_range"

end SeparatorError

namespace InsertError

/-- A failed search may go on elsewhere only if nothing was found. -/
inductive Category
  | notFound | ambiguous | structural
  deriving DecidableEq

def category : InsertError → Category
  | targetNotFound _ | variableNotFound _ | variableNotUsed _ _ | referenceNotFound _ => .notFound
  | ambiguousTarget _ _ | ambiguousVariable _ _ | ambiguousReference _ _ _ => .ambiguous
  | emptyList _ | positionOutOfBounds _ _ | path _ | separator _ => .structural

def message : InsertError → String
  | targetNotFound target =>
    s!"The target `{target.shown}` is not found in any add_library() or add_executable() statement"
  | ambiguousTarget target candidates =>
    s!"There are too many statements declaring target `{target.shown}`: {listed candidates}"
  | variableNotFound name => s!"The variable declaration `{name.shown}` is not found"
  | ambiguousVariable name candidates =>
    s!"There is more than one set() statement for variable `{name.shown}`: {listed candidates}"
  | variableNotUsed name target =>
    s!"The variable `{name.shown}` is not used in target `{target.shown}`"
  | referenceNotFound reference =>
    s!"The reference item `{reference.shown}` is not declared in any supported statement"
  | ambiguousReference reference stage candidates =>
    s!"The reference item `{reference.shown}` is declared in multiple {stage}: {listed candidates}"
  | emptyList statement => s!"The statement {statement.shown} has no list items to insert after"
  | positionOutOfBounds position size =>
    s!"The insert position {position} is not a character boundary of a {size} byte source"
  | path cause => cause.message
  | separator cause => cause.message

def code : InsertError → String
  | targetNotFound _ => "cmake::insert::target_not_found"
  | ambiguousTarget _ _ => "cmake::insert::target_ambiguous"
  | variableNotFound _ => "cmake::insert::variable_not_found"
  | ambiguousVariable _ _ => "cmake::insert::variable_ambiguous"
  | variableNotUsed _ _ => "cmake::insert::variable_not_used"
  | referenceNotFound _ => "cmake::insert::reference_not_found"
  | ambiguousReference _ _ _ => "cmake::insert::reference_ambiguous"
  | emptyList _ => "cmake::insert::empty_list"
  | positionOutOfBounds _ _ => "cmake::insert::position_out_of_bounds"
  | path cause => cause.code
  | separator cause => cause.code

def help? : InsertError → Option String
  | variableNotUsed name _ =>
    some s!"the target's source list must contain $\x7b{name.shown}\x7d"
  | _ => none

end InsertError

def FileRole.text : FileRole → String
  | header => "header"
  | implementation => "implementation"

namespace ClassError

def message : ClassError → String
  | notFound role reference tried =>
    s!"The {role.text} file of reference class `{reference.shown}` can't be found in (supported) "
      ++ "cmake statements, tried extensions " ++ " ".intercalate (tried.map Text.shown)
  | insert role reference _ => s!"Cannot place the {role.text} file next to `{reference.shown}`"

def code : ClassError → String
  | notFound _ _ _ => "cmake::class::reference_not_found"
  | insert _ _ _ => "cmake::class::insert_failed"

end ClassError
end SourceLists
