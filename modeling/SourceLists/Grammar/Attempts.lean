import SourceLists.Text.Basic

/-! The rules that were tried where reading got furthest, and the message that names them. -/

namespace SourceLists.Grammar

/-- The rules that a message can name. -/
inductive RuleName
  | endOfInput | variableName | declaredName
  | setKeyword | addLibraryKeyword | addExecutableKeyword | targetSourcesKeyword
  | scopeKeyword | parentScope | libraryType | objectType | excludeFromAll | win32 | macosxBundle
  | importedOrAlias
  | standaloneVariable | quotedVariable | literalItem | listItem | listContent | variableListContent
  | envName | setEnvVariable | setNormalVariable | addLibrary | addExecutable
  | scopedList | targetSources | singleStatement
  deriving DecidableEq

namespace RuleName

/-- All rules, in the order in which a message names them. -/
def all : List RuleName :=
  [endOfInput, variableName, declaredName,
   setKeyword, addLibraryKeyword, addExecutableKeyword, targetSourcesKeyword,
   scopeKeyword, parentScope, libraryType, objectType, excludeFromAll, win32, macosxBundle,
   importedOrAlias,
   standaloneVariable, quotedVariable, literalItem, listItem, listContent, variableListContent,
   envName, setEnvVariable, setNormalVariable, addLibrary, addExecutable,
   scopedList, targetSources, singleStatement]

def text : RuleName → String
  | endOfInput => "EOI"
  | variableName => "variable_name"
  | declaredName => "declared_name"
  | setKeyword => "set_keyword"
  | addLibraryKeyword => "add_library_keyword"
  | addExecutableKeyword => "add_executable_keyword"
  | targetSourcesKeyword => "target_sources_keyword"
  | scopeKeyword => "scope_keyword"
  | parentScope => "parent_scope"
  | libraryType => "library_type"
  | objectType => "object_type"
  | excludeFromAll => "exclude_from_all"
  | win32 => "win32"
  | macosxBundle => "macosx_bundle"
  | importedOrAlias => "imported_or_alias"
  | standaloneVariable => "standalone_variable"
  | quotedVariable => "quoted_variable"
  | literalItem => "literal_item"
  | listItem => "list_item"
  | listContent => "list_content"
  | variableListContent => "variable_list_content"
  | envName => "env_name"
  | setEnvVariable => "set_env_variable"
  | setNormalVariable => "set_normal_variable"
  | addLibrary => "add_library"
  | addExecutable => "add_executable"
  | scopedList => "scoped_list"
  | targetSources => "target_sources"
  | singleStatement => "single_statement"

/-- The named rules, each once: `a`, `a or b`, `a, b, or c`. -/
def enumerate (names : List RuleName) : String :=
  match (all.filter (· ∈ names)).map text with
  | [] => ""
  | [a] => a
  | [a, b] => a ++ " or " ++ b
  | texts => ", ".intercalate texts.dropLast ++ ", or " ++ texts.getLastD ""

end RuleName

/-- What was tried at the furthest place, which has `left` bytes behind it. -/
structure Attempts where
  left : Nat
  expected : List RuleName
  unexpected : List RuleName

namespace Attempts

/-- Nothing tried yet, at the start of a text. -/
def start (s : Text) : Attempts := ⟨Text.size s, [], []⟩

/-- The attempts at one place: none if it is not the furthest. -/
def among (a : Attempts) (left : Nat) : Attempts :=
  if a.left = left then a else ⟨left, [], []⟩

def count (a : Attempts) : Nat := a.expected.length + a.unexpected.length

def add (a : Attempts) (name : RuleName) (negative : Bool) : Attempts :=
  if negative then { a with unexpected := a.unexpected ++ [name] }
  else { a with expected := a.expected ++ [name] }

/-- A rule that began with `left` bytes behind it, when `earlier` had been tried, turned out against
what is wanted. It stands for all that it tried in the same place itself, unless that is just one
rule, which says more. -/
def report (a earlier : Attempts) (left : Nat) (name : RuleName) (negative : Bool) : Attempts :=
  let before := earlier.among left
  if (a.among left).count = before.count + 1 then a
  else if left < a.left then (⟨left, [], []⟩ : Attempts).add name negative
  else if left = a.left then
    (⟨left, a.expected.take before.expected.length, a.unexpected.take before.unexpected.length⟩ :
      Attempts).add name negative
  else a

def message (a : Attempts) : String :=
  match a.expected, a.unexpected with
  | [], [] => "unknown parsing error"
  | e, [] => "expected " ++ RuleName.enumerate e
  | [], u => "unexpected " ++ RuleName.enumerate u
  | e, u => "unexpected " ++ RuleName.enumerate u ++ "; expected " ++ RuleName.enumerate e

end Attempts
end SourceLists.Grammar
