import ControlFiles.Statement

/-!
# The names a tree mentions

The scenarios and events that some header or declaration of a tree of control files names. They are
the candidates for what a wildcard token may stand for.
-/

namespace ControlFiles

/-- Scenario and event names, each once in whatever case, in the order of their first mention. -/
structure Candidates where
  scenarios : List Text
  events : List Text
  deriving DecidableEq, Repr

namespace Candidates

/-- The candidates with the names of a scope. -/
def addScope (c : Candidates) (s : Scope) : Candidates :=
  match s.kind with
  | .scenario => { c with scenarios := Text.addNew c.scenarios s.names }
  | .event | .eventVariable => { c with events := Text.addNew c.events s.names }
  | _ => c

/-- The candidates with the names of a statement: those of its scopes, and those it declares. -/
def addStatement (c : Candidates) (s : Statement) : Candidates :=
  let c := s.scope.foldl addScope c
  { scenarios := Text.addNew c.scenarios (s.scenarioDeclaration?.getD [])
    events := Text.addNew c.events (s.eventDeclaration?.getD []) }

/-- The candidates with the names of a file, without those below it. -/
def addFile (c : Candidates) (f : ControlFile) : Candidates := f.statements.foldl addStatement c

end Candidates

/-- The names that a file and those below it mention. -/
def ControlFile.candidates (f : ControlFile) : Candidates := f.all.foldl .addFile ⟨[], []⟩

end ControlFiles
