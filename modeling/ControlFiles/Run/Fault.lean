import ControlFiles.Fault
import ControlFiles.Run.Arguments

/-!
# Faults of a run

What ends a resolution without a run.
-/

namespace ControlFiles

/-- Why there is no run. -/
inductive RunFault where
  /-- A file could not be loaded or searched for. -/
  | load (fault : Fault)
  /-- A statement that stops the run is in force. -/
  | paused (file : Text) (line : Nat) (message : Text)
  /-- A token is left that nothing stands for. -/
  | unresolved (file : Text) (line : Nat) (statement token : Text)
  /-- A scope is negated that has no other branch. -/
  | branch (file : Text) (line : Nat) (scope : Scope)
  | arguments (flaw : ArgumentFlaw)
  deriving DecidableEq, Repr

namespace RunFault

/-- The name of a sort of run faults. -/
def kindText : RunFault → Text
  | load _ => "load"
  | paused _ _ _ => "paused"
  | unresolved _ _ _ _ => "unresolved_wildcard"
  | branch _ _ _ => "branch"
  | arguments _ => "invalid_context"

/-- What went wrong, behind its place. -/
def text : RunFault → Text
  | .load fault => fault.text
  | paused file line message =>
    file ++ ":" ++ Text.decimal line ++ ": paused: " ++ message
  | unresolved file line statement token =>
    file ++ ":" ++ Text.decimal line ++ ": unresolved " ++ token ++ " in `" ++ statement ++ "`"
  | branch file line scope =>
    file ++ ":" ++ Text.decimal line ++ ": " ++ scope.kind.label ++ " blocks cannot be negated ("
      ++ scope.text ++ ")"
  | arguments flaw => "invalid context: " ++ flaw.message

end RunFault

/-- A fault in a form for other programs. -/
structure FaultReport where
  file : Text
  kind : Text
  line : Nat
  message : Text
  deriving DecidableEq, Repr

/-- The report of a fault of a control file. -/
def Fault.report (e : Fault) : FaultReport := ⟨e.file, e.cause.kind.text, e.line, e.message⟩

/-- The report of a fault of a run. A fault of a file keeps its own. -/
def RunFault.report : RunFault → FaultReport
  | .load fault => fault.report
  | .paused file line message => ⟨file, "paused", line, (RunFault.paused file line message).text⟩
  | .unresolved file line statement token =>
    ⟨file, "unresolved_wildcard", line, (RunFault.unresolved file line statement token).text⟩
  | .branch file line scope => ⟨file, "branch", line, (RunFault.branch file line scope).text⟩
  | .arguments flaw => ⟨[], "invalid_context", 0, (RunFault.arguments flaw).text⟩

end ControlFiles
