import SourceLists.Grammar.Rule

/-! The tokens of a statement: keywords, names, list items and the gaps between them. -/

namespace SourceLists.Grammar
open Rule

def isBlank (c : Char) : Bool := c == ' ' || c == '\t' || c == '\r' || c == '\n'

def isIdentifierStart (c : Char) : Bool := c.isAlpha || c == '_'

def isIdentifierChar (c : Char) : Bool := c.isAlphanum || c == '_'

def isNameChar (c : Char) : Bool :=
  c.isAlphanum || c == '_' || c == '-' || c == '.' || c == '+' || c == ':'

def isBare (c : Char) : Bool := !(c == '"' || c == '(' || c == ')' || isBlank c)

/-- A token inside the parentheses of a statement. -/
inductive Token
  | keyword (word : Text)
  /-- An item taken as it stands, with its quotes. -/
  | literal (text : Text)
  /-- An item that is one reference to a variable, perhaps in quotes. -/
  | reference (quoted : Bool) (name : Text)
  deriving DecidableEq

namespace Token

def referenceText (name : Text) : Text := ['$', '\x7b'] ++ name ++ ['\x7d']

/-- The token as it is written. -/
def text : Token → Text
  | keyword word => word
  | literal text => text
  | reference false name => referenceText name
  | reference true name => ['"'] ++ referenceText name ++ ['"']

end Token

/-- The blanks and comments at the start of a text. A comment ends before the end of its line. -/
def takeGap (inComment : Bool) : Text → Text × Text
  | [] => ([], [])
  | c :: s =>
    if inComment then
      let (gap, rest) := takeGap (c != '\n' && c != '\r') s
      (c :: gap, rest)
    else if isBlank c || c == '#' then
      let (gap, rest) := takeGap (c == '#') s
      (c :: gap, rest)
    else ([], c :: s)

def gap : Rule Text := ⟨fun s => some (takeGap false s), fun _ _ a => a⟩

/-- Reads to the end of a quoted string whose opening quote is already read. A backslash escapes the
character behind it. -/
def takeQuoted : Text → Option (Text × Text)
  | [] => none
  | '\\' :: c :: s => (takeQuoted s).map fun (quoted, rest) => ('\\' :: c :: quoted, rest)
  | c :: s =>
    if c = '"' then some ([c], s)
    else (takeQuoted s).map fun (quoted, rest) => (c :: quoted, rest)

def quotedString : Rule Text := char (· == '"') ++ ⟨takeQuoted, fun _ _ a => a⟩

/-- What must stand behind an item: a blank, a closing parenthesis or the end. -/
def itemEnd : Rule Text := char (fun c => isBlank c || c == ')') <|> endOfInput

def variableName : Rule Text :=
  token .variableName (char isIdentifierStart ++ chars isIdentifierChar)

def variableReference : Rule Text :=
  exactly ['$', '\x7b'] *> variableName <* exactly ['\x7d']

/-- A name is a run of name characters and references to variables. -/
def declaredName : Rule Text :=
  token .declaredName (plus (Token.referenceText <$> variableReference <|> char isNameChar))

/-- The name of an environment variable, as it is set. -/
def envName : Rule Text :=
  token .envName
    (exactly "ENV\x7b".toList ++ chars (fun c => c != '\x7d' && c != ')') ++ exactly ['\x7d'])

/-- The word that begins a statement. -/
def commandWord (name : RuleName) (word : String) : Rule Text :=
  token name (anyCase word.toList <* absent (char isIdentifierChar))

def keyword (name : RuleName) (words : List String) : Rule Token :=
  Token.keyword <$> token name (oneOf (words.map String.toList) <* ahead itemEnd)

def scopeKeyword : Rule Token := keyword .scopeKeyword ["PRIVATE", "PUBLIC", "INTERFACE"]

def parentScope : Rule Token := keyword .parentScope ["PARENT_SCOPE"]

def libraryType : Rule Token := keyword .libraryType ["STATIC", "SHARED", "MODULE"]

def objectType : Rule Token := keyword .objectType ["OBJECT"]

def excludeFromAll : Rule Token := keyword .excludeFromAll ["EXCLUDE_FROM_ALL"]

def win32 : Rule Token := keyword .win32 ["WIN32"]

def macosxBundle : Rule Token := keyword .macosxBundle ["MACOSX_BUNDLE"]

/-- The words behind which a target lists no sources. -/
def importedOrAlias : Rule Token := keyword .importedOrAlias ["IMPORTED", "ALIAS"]

def standaloneVariable : Rule Token :=
  named .standaloneVariable (Token.reference false <$> (variableReference <* ahead itemEnd))

def quotedVariable : Rule Token :=
  named .quotedVariable
    (Token.reference true <$>
      (exactly ['"'] *> variableReference <* exactly ['"'] <* ahead itemEnd))

/-- A run of quoted strings and bare characters; references inside of it are not looked at. -/
def literalItem : Rule Token :=
  token .literalItem (Token.literal <$> plus (quotedString <|> char isBare))

def listItem : Rule Token :=
  named .listItem (absent scopeKeyword *> (standaloneVariable <|> quotedVariable <|> literalItem))

end SourceLists.Grammar
