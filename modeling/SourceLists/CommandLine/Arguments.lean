import SourceLists.CommandLine.Options

/-! Reading the arguments of a call. -/

namespace SourceLists

/-- Why a call goes no further than its arguments. The help and the version are asked for. -/
inductive UsageError
  | missingRequiredArgument
  | unknownArgument
  | invalidValue
  | tooManyValues
  | argumentConflict
  | displayHelp
  | displayVersion
  deriving DecidableEq

namespace CommandLine

/-- An option that stands alone. -/
inductive Switch
  | inPlace | singleFile | plainSpacing | diff | printScript | verbose
  deriving DecidableEq

/-- An option with a value. -/
inductive Setting
  | referenceClass | toVariable | toTarget | headerExtension | implementationExtension
  deriving DecidableEq

def Setting.repeatable : Setting → Bool
  | headerExtension | implementationExtension => true
  | referenceClass | toVariable | toTarget => false

inductive Choice
  | switch (s : Switch)
  | setting (s : Setting)
  | help
  | version
  deriving DecidableEq

namespace Choice

def longNames : List (String × Choice) :=
  [("reference-class", .setting .referenceClass), ("rc", .setting .referenceClass),
   ("inplace", .switch .inPlace), ("single-file", .switch .singleFile),
   ("variable", .setting .toVariable), ("var", .setting .toVariable),
   ("target", .setting .toTarget), ("plain-spacing", .switch .plainSpacing),
   ("diff", .switch .diff), ("print-ast", .switch .printScript),
   ("header-ext", .setting .headerExtension), ("impl-ext", .setting .implementationExtension),
   ("verbose", .switch .verbose), ("help", .help), ("version", .version)]

def shortNames : List (Char × Choice) :=
  [('r', .setting .referenceClass), ('i', .switch .inPlace), ('s', .switch .singleFile),
   ('t', .setting .toTarget), ('v', .switch .verbose), ('h', .help), ('V', .version)]

def ofLong? (name : Text) : Option Choice := longNames.lookup (String.ofList name)

def ofShort? (c : Char) : Option Choice := shortNames.lookup c

end Choice

/-- An argument that is not yet checked: that waits for the next one. -/
inductive Pending
  | setting (s : Setting) (value : Option Text)
  | positional (value : Text)
  deriving DecidableEq

/-- The arguments so far. -/
structure Given where
  switches : List Switch
  values : List (Setting × Text)
  positionals : List Text
  pending : Option Pending
  /-- All that follows is positional. -/
  ended : Bool

namespace Given

def start : Given := ⟨[], [], [], none, false⟩

def addValue (g : Given) (s : Setting) (value : Text) : Except UsageError Given :=
  if !s.repeatable && g.values.any (·.1 == s) then .error .argumentConflict
  else .ok { g with values := g.values ++ [(s, value)] }

def addSwitch (g : Given) (s : Switch) : Except UsageError Given :=
  if g.switches.contains s then .error .argumentConflict
  else .ok { g with switches := g.switches ++ [s] }

/-- The path of the script must not be empty. -/
def addPositional (g : Given) (value : Text) : Except UsageError Given :=
  if g.positionals.isEmpty && value.isEmpty then .error .invalidValue
  else .ok { g with positionals := g.positionals ++ [value] }

/-- Checks the argument that waits. -/
def settle (g : Given) : Except UsageError Given :=
  let settled := { g with pending := none }
  match g.pending with
  | none => .ok g
  | some (.setting _ none) => .error .invalidValue
  | some (.setting s (some value)) => settled.addValue s value
  | some (.positional value) => settled.addPositional value

/-- Takes an option, perhaps with a value attached to it. -/
def choose (g : Given) (choice : Choice) (attached : Option Text) : Except UsageError Given := do
  let g ← g.settle
  match choice, attached with
  | .switch s, _ => g.addSwitch s
  | .setting s, some value => g.addValue s value
  | .setting s, none => return { g with pending := some (.setting s none) }
  | .help, _ => throw .displayHelp
  | .version, _ => throw .displayVersion

/-- An option with a long name: `name` or `name=value`. -/
def long (g : Given) (text : Text) : Except UsageError Given :=
  let name := text.takeWhile (· != '=')
  let attached := (text.dropWhile (· != '=')).tail?
  match Choice.ofLong? name, attached with
  | none, _ => .error .unknownArgument
  | some (.setting s), _ => g.choose (.setting s) attached
  | some choice, none => g.choose choice none
  | some _, some _ => .error .tooManyValues

/-- Options with short names, of which the last may have its value right behind it. -/
def short (g : Given) : Text → Except UsageError Given
  | [] => .ok g
  | c :: rest =>
    match Choice.ofShort? c with
    | none => .error .unknownArgument
    | some (.setting s) =>
      g.choose (.setting s) <| match rest with
        | [] => none
        | '=' :: value => some value
        | value => some value
    | some choice => do (← g.choose choice none).short rest

def isPositional : Pending → Bool
  | .positional _ => true
  | .setting _ _ => false

/-- Takes the script and the name, in this order. -/
def positional (g : Given) (value : Text) : Except UsageError Given := do
  if g.positionals.length + (if g.pending.any isPositional then 1 else 0) ≥ 2 then
    throw .unknownArgument
  let g ← g.settle
  return { g with pending := some (.positional value) }

def take (g : Given) (argument : Text) : Except UsageError Given :=
  if g.ended then g.positional argument
  else match argument with
    | ['-', '-'] => .ok { g with ended := true }
    | '-' :: '-' :: text => g.long text
    | '-' :: c :: text => g.short (c :: text)
    | _ =>
      match g.pending with
      | some (.setting s none) => .ok { g with pending := some (.setting s (some argument)) }
      | _ => g.positional argument

def value? (g : Given) (s : Setting) : Option Text := g.values.lookup s

def valuesOf (g : Given) (s : Setting) : List Text :=
  (g.values.filter (·.1 == s)).map Prod.snd

def has (g : Given) (s : Switch) : Bool := g.switches.contains s

/-- The options, if nothing is missing. -/
def finish (g : Given) : Except UsageError Options := do
  let g ← g.settle
  if g.has .diff && g.has .inPlace then throw .argumentConflict
  match g.positionals with
  | [script, name] => return {
      script := script
      name := name
      referenceClass := g.value? .referenceClass
      inPlace := g.has .inPlace
      singleFile := g.has .singleFile
      toVariable := g.value? .toVariable
      toTarget := g.value? .toTarget
      plainSpacing := g.has .plainSpacing
      diff := g.has .diff
      printScript := g.has .printScript
      headerExtensions := g.valuesOf .headerExtension
      implementationExtensions := g.valuesOf .implementationExtension
      verbose := g.has .verbose }
  | _ => throw .missingRequiredArgument

end Given
end CommandLine

def Options.ofArguments (arguments : List Text) : Except UsageError Options := do
  (← arguments.foldlM CommandLine.Given.take CommandLine.Given.start).finish

end SourceLists
