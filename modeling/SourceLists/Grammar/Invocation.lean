import SourceLists.Kind
import SourceLists.Grammar.Token

/-! Statements with every character that they are written with. -/

namespace SourceLists.Grammar
open Rule

/-- A token and the gap behind it. -/
structure Argument where
  token : Token
  gap : Text
  deriving DecidableEq

def Argument.text (a : Argument) : Text := a.token.text ++ a.gap

/-- One command with its arguments, kept as it is written. -/
structure Invocation where
  /-- There is no kind for the setting of an environment variable. -/
  kind : Option Kind
  word : Text
  beforeParen : Text
  beforeName : Text
  name : Text
  afterName : Text
  arguments : List Argument
  deriving DecidableEq

namespace Invocation

/-- All that stands before the first argument. -/
def head (i : Invocation) : Text :=
  i.word ++ i.beforeParen ++ ['('] ++ i.beforeName ++ i.name ++ i.afterName

def body (i : Invocation) : Text := i.arguments.flatMap Argument.text

def text (i : Invocation) : Text := i.head ++ i.body ++ [')']

end Invocation

def call (kind : Option Kind) (word name : Rule Text) (arguments : Rule (List Argument)) :
    Rule Invocation :=
  Invocation.mk kind <$> word <*> gap <* exactly ['('] <*> gap <*> name <*> gap <*> arguments
    <* exactly [')']

def argument (token : Rule Token) : Rule (List Argument) :=
  (fun token gap => [⟨token, gap⟩]) <$> token <*> gap

def listContent : Rule (List Argument) := named .listContent (plus (argument listItem))

/-- The items of a variable, up to a last word `PARENT_SCOPE`, which is none. -/
def variableListContent : Rule (List Argument) :=
  named .variableListContent
    (plus (absent (parentScope <* gap <* exactly [')']) *> argument listItem))

def scopedList : Rule (List Argument) :=
  named .scopedList (argument scopeKeyword ++ listContent)

def targetList : Rule (List Argument) := absent importedOrAlias *> listContent

def setKeyword : Rule Text := commandWord .setKeyword "set"

/-- The setting of an environment variable, which lists no sources. -/
def setEnvVariable : Rule Invocation :=
  named .setEnvVariable (call none setKeyword envName (optionally listContent))

def setNormalVariable : Rule Invocation :=
  named .setNormalVariable
    (call (some .set) setKeyword declaredName
      (variableListContent ++ optionally (argument parentScope)))

def addLibrary : Rule Invocation :=
  named .addLibrary
    (call (some .addLibrary) (commandWord .addLibraryKeyword "add_library") declaredName
      ((argument objectType <|>
        optionally (argument libraryType) ++ optionally (argument excludeFromAll))
        ++ targetList))

def addExecutable : Rule Invocation :=
  named .addExecutable
    (call (some .addExecutable) (commandWord .addExecutableKeyword "add_executable") declaredName
      (optionally (argument win32) ++ optionally (argument macosxBundle)
        ++ optionally (argument excludeFromAll) ++ targetList))

def targetSources : Rule Invocation :=
  named .targetSources
    (call (some .targetSources) (commandWord .targetSourcesKeyword "target_sources") declaredName
      (plus scopedList))

def statement : Rule Invocation :=
  setEnvVariable <|> setNormalVariable <|> addLibrary <|> addExecutable <|> targetSources

/-- A statement and the gap before it. -/
def singleStatement : Rule (Text × Invocation) :=
  named .singleStatement (Prod.mk <$> gap <*> statement)

end SourceLists.Grammar
