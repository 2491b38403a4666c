import SourceLists.Diff
import SourceLists.CommandLine.Arguments
import SourceLists.Script.Listing
import SourceLists.Script.Scan

/-! One run of the program: what it prints, and what becomes of the script. -/

namespace SourceLists

inductive RunError
  | unreadable (path : Text)
  | options (cause : OptionsError)
  | insert (cause : InsertError)
  | classFiles (cause : ClassError)
  deriving DecidableEq

namespace RunError

def message : RunError → String
  | unreadable path => s!"Failed to read {path.shown}"
  | options cause => cause.message
  | insert cause => cause.message
  | classFiles cause => cause.message

end RunError

namespace CommandLine

/-- What a run prints, and the text that the script is replaced by, if it is. -/
structure Outcome where
  output : Text
  replacement : Option Text
  deriving DecidableEq

def spacing (o : Options) (source : Text) : Spacing :=
  if o.plainSpacing then .single else .matching source

/-- The place of a single file. -/
def anchor (o : Options) (script : Script) : Except RunError Anchor :=
  match o.referenceClass, o.toVariable, o.toTarget with
  | some reference, _, _ => (Anchor.nextTo script reference).mapError .insert
  | none, some name, _ => (Anchor.ofVariable script name).mapError .insert
  | none, none, some target => (Anchor.ofTarget script target).mapError .insert
  | none, none, none => .error (.options .missingAnchor)

def insertions (o : Options) (source : Text) (script : Script) :
    Except RunError (List Insertion) := do
  if o.addsSingleFile then
    let anchor ← anchor o script
    return [← (anchor.insert o.name (spacing o source)).mapError .insert]
  else
    let c ← (ClassInsertions.nextTo script o.extensions o.name (o.referenceClass.getD [])
      (spacing o source)).mapError .classFiles
    return [c.header, c.implementation]

/-- The script with the insertions. -/
def edited (o : Options) (source : Text) : Except RunError Text := do
  let insertions ← insertions o source (scan source)
  (Insertion.applyAll insertions source).mapError .insert

/-- A run on a script with the given text, if it can be read at all. -/
def execute (o : Options) (inColour : Bool) (source : Option Text) : Except RunError Outcome := do
  let some source := source
    | throw (.unreadable o.script)
  if o.printScript then
    return ⟨(Script.listing (scan source)).pretty 0 ++ ['\n'], none⟩
  let text ← edited o source
  if o.inPlace then return ⟨[], some text⟩
  else if o.diff then return ⟨Diff.print inColour source text, none⟩
  else return ⟨text, none⟩

/-- How a call of the program ends. -/
structure Ending where
  exit : Nat
  output : Text
  complaint : Text
  replacement : Option Text
  deriving DecidableEq

namespace Ending

def version : Text := "cmake-create-class 0.1.0\n".toList

def usage : Text := "Usage: cmake-create-class [OPTIONS] <CMAKELISTS> <NAME>\n".toList

def complain (exit : Nat) (message : String) : Ending := ⟨exit, [], message.toList ++ ['\n'], none⟩

def ofUsageError : UsageError → Ending
  | .displayHelp => ⟨0, usage, [], none⟩
  | .displayVersion => ⟨0, version, [], none⟩
  | .missingRequiredArgument | .unknownArgument | .invalidValue | .tooManyValues
  | .argumentConflict => ⟨2, [], usage, none⟩

def ofResult : Except RunError Outcome → Ending
  | .ok outcome => ⟨0, outcome.output, [], outcome.replacement⟩
  | .error e => complain 1 e.message

end Ending

/-- A call with options that were read, on a script that may be there. -/
def call (o : Options) (inColour : Bool) (source : Option Text) : Ending :=
  match o.check with
  | .error e => .complain 1 e.message
  | .ok () => .ofResult (execute o inColour source)

end CommandLine
end SourceLists
