import SourceLists.Text.Basic

/-! JSON values and their two written forms, on one line and indented. -/

namespace SourceLists

inductive Json
  | number (n : Nat)
  | string (s : Text)
  | array (values : List Json)
  | object (fields : List (Text × Json))

namespace Json

/-- Quotes, backslashes and control characters are escaped, by a letter where there is one. -/
def escape (c : Char) : Text :=
  if c = '"' then ['\\', '"']
  else if c = '\\' then ['\\', '\\']
  else if c = '\x08' then ['\\', 'b']
  else if c = '\t' then ['\\', 't']
  else if c = '\n' then ['\\', 'n']
  else if c = '\x0c' then ['\\', 'f']
  else if c = '\r' then ['\\', 'r']
  else if c.toNat < 0x20 then
    ['\\', 'u', '0', '0', Nat.digitChar (c.toNat / 16), Nat.digitChar (c.toNat % 16)]
  else [c]

def quote (s : Text) : Text := ['"'] ++ s.flatMap escape ++ ['"']

mutual

def compact : Json → Text
  | number n => Nat.toDigits 10 n
  | string s => quote s
  | array values => ['['] ++ List.intercalate [','] (compactValues values) ++ [']']
  | object fields => ['\x7b'] ++ List.intercalate [','] (compactFields fields) ++ ['\x7d']

def compactValues : List Json → List Text
  | [] => []
  | value :: rest => compact value :: compactValues rest

def compactFields : List (Text × Json) → List Text
  | [] => []
  | (key, value) :: rest => (quote key ++ [':'] ++ compact value) :: compactFields rest

end

/-- A line break and two spaces for each level. -/
def newline (level : Nat) : Text := '\n' :: List.replicate (2 * level) ' '

/-- Parts between brackets, each on lines of its own. No parts, no lines. -/
def block (opening closing : Char) (level : Nat) (parts : List Text) : Text :=
  if parts.isEmpty then [opening, closing]
  else
    [opening] ++ newline (level + 1) ++ List.intercalate ([','] ++ newline (level + 1)) parts
      ++ newline level ++ [closing]

mutual

/-- The indented form of a value that stands on the given level. -/
def pretty (level : Nat) : Json → Text
  | number n => Nat.toDigits 10 n
  | string s => quote s
  | array values => block '[' ']' level (prettyValues (level + 1) values)
  | object fields => block '\x7b' '\x7d' level (prettyFields (level + 1) fields)

def prettyValues (level : Nat) : List Json → List Text
  | [] => []
  | value :: rest => pretty level value :: prettyValues level rest

def prettyFields (level : Nat) : List (Text × Json) → List Text
  | [] => []
  | (key, value) :: rest =>
    (quote key ++ [':', ' '] ++ pretty level value) :: prettyFields level rest

end

end Json
end SourceLists
