/-! The kinds of statements that list sources. -/

namespace SourceLists

inductive Kind
  | set | addLibrary | addExecutable | targetSources
  deriving DecidableEq

namespace Kind

/-- The command that such a statement calls. -/
def command : Kind → String
  | set => "set"
  | addLibrary => "add_library"
  | addExecutable => "add_executable"
  | targetSources => "target_sources"

/-- A target is declared by `add_library` and `add_executable`; `target_sources` adds to one. -/
def declaresTarget : Kind → Bool
  | addLibrary | addExecutable => true
  | set | targetSources => false

end Kind
end SourceLists
