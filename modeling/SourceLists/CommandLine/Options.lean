import SourceLists.Path
import SourceLists.Insertion.ClassFiles

/-! What a call of the program asks for, and which requests make no sense. -/

namespace SourceLists

structure Options where
  /-- The path of the script. -/
  script : Text
  /-- The class to add, or with a single file the file itself. -/
  name : Text
  referenceClass : Option Text
  inPlace : Bool
  singleFile : Bool
  toVariable : Option Text
  toTarget : Option Text
  plainSpacing : Bool
  diff : Bool
  printScript : Bool
  headerExtensions : List Text
  implementationExtensions : List Text
  verbose : Bool
  deriving DecidableEq

inductive OptionsError
  | backslash (place : String)
  | referenceWithAnchor
  | missingAnchor
  | variableAndTarget
  | missingReference
  | classNameIsPath (name : Text)
  deriving DecidableEq

namespace OptionsError

def message : OptionsError → String
  | backslash place => s!"It is not allowed to use backslashes in the {place}."
  | referenceWithAnchor =>
    "In single file mode, it is not allowed to specify a reference class and also "
      ++ "a variable or target."
  | missingAnchor =>
    "In single file mode, please specify a cmake variable or a cmake target "
      ++ "using --variable or -t, --target respectively."
  | variableAndTarget =>
    "In single file mode, it is not allowed to specify both a variable and a target."
  | missingReference =>
    "When adding a class, a reference class is required. "
      ++ "Please specify one with -r, --reference-class."
  | classNameIsPath name =>
    s!"When adding a class, the name of the class '{name.shown}' can't be a path."

def code : OptionsError → String
  | backslash _ => "cmake::cli::backslash"
  | referenceWithAnchor => "cmake::cli::reference_with_anchor"
  | missingAnchor => "cmake::cli::missing_anchor"
  | variableAndTarget => "cmake::cli::variable_and_target"
  | missingReference => "cmake::cli::missing_reference"
  | classNameIsPath _ => "cmake::cli::class_name_is_path"

def help? : OptionsError → Option String
  | backslash _ => some "use `/` as the path separator"
  | _ => none

end OptionsError

namespace Options

/-- A variable or a target takes a single file. -/
def addsSingleFile (o : Options) : Bool := o.singleFile || o.toVariable.isSome || o.toTarget.isSome

/-- Given extensions replace the usual ones of their file. -/
def extensions (o : Options) : Extensions where
  header := if o.headerExtensions.isEmpty then Extensions.default.header else o.headerExtensions
  implementation :=
    if o.implementationExtensions.isEmpty then Extensions.default.implementation
    else o.implementationExtensions

def checkSingleFile (o : Options) : Except OptionsError Unit :=
  match o.referenceClass, o.toVariable, o.toTarget with
  | some _, none, none => .ok ()
  | some _, _, _ => .error .referenceWithAnchor
  | none, none, none => .error .missingAnchor
  | none, some _, some _ => .error .variableAndTarget
  | none, _, _ => .ok ()

def checkClass (o : Options) : Except OptionsError Unit :=
  if o.referenceClass.isNone then .error .missingReference
  else if Path.isNested o.name then .error (.classNameIsPath o.name)
  else .ok ()

/-- The rules that tie several arguments together. -/
def check (o : Options) : Except OptionsError Unit :=
  if o.name.contains '\\' then .error (.backslash "class name")
  else if o.referenceClass.any (·.contains '\\') then .error (.backslash "reference class")
  else if o.addsSingleFile then o.checkSingleFile
  else o.checkClass

end Options
end SourceLists
