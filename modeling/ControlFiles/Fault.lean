import ControlFiles.Glob
import ControlFiles.Line
import ControlFiles.Path

/-!
# Faults and findings

A failure is a value that says what went wrong; its wording is made in one place, here. There are
two sorts. A `Fault` ends what was being done: it has a place in a file and a cause. A `Finding`
is noted, and the work goes on.
-/

namespace ControlFiles

/-- What the operating system reports. -/
structure SystemFault where
  code : Nat
  reason : Text
  deriving DecidableEq, Repr

namespace SystemFault

def noEntry : SystemFault := ⟨2, "No such file or directory"⟩
def notDirectory : SystemFault := ⟨20, "Not a directory"⟩
def isDirectory : SystemFault := ⟨21, "Is a directory"⟩
def nameTooLong : SystemFault := ⟨36, "File name too long"⟩

def message (e : SystemFault) : Text :=
  e.reason ++ " (os error " ++ Text.decimal e.code ++ ")"

end SystemFault

/-- Why a file cannot be had. -/
inductive FileError where
  /-- The store has no such file. -/
  | notStored (path : Path)
  /-- The store has neither such a file nor a file below such a directory. -/
  | notFound (path : Path)
  | pattern (e : Glob.SyntaxError)
  | system (e : SystemFault)
  /-- The bytes of the file are no UTF-8. -/
  | encoding
  /-- The path holds the character that ends a path for the system. -/
  | badName
  deriving DecidableEq, Repr

namespace FileError

/-- The wording of a file error. -/
def message : FileError → Text
  | notStored path => "file not found in memory: " ++ path.text
  | notFound path => "path not found in memory provider: " ++ path.text
  | pattern e => e.message
  | system e => e.message
  | encoding => "stream did not contain valid UTF-8"
  | badName => "file name contained an unexpected NUL byte"

end FileError

/-- The two headers that continue a block. -/
inductive BranchWord where
  | elseIf
  | otherwise
  deriving DecidableEq, Repr

/-- The header as named in messages. -/
def BranchWord.text : BranchWord → Text
  | elseIf => "Else If"
  | otherwise => "Else"

/-- The identity of a statement. -/
structure StatementId where
  text : Text
  deriving DecidableEq, Repr

/-- The sorts of faults. -/
inductive FaultKind where
  | io
  | grammar
  | branch
  | reserialize
  | edit
  deriving DecidableEq, Repr

/-- The name of a sort of faults. -/
def FaultKind.text : FaultKind → Text
  | io => "io"
  | grammar => "syntax"
  | branch => "branch"
  | reserialize => "reserialize"
  | edit => "edit"

/-- What went wrong in a control file. -/
inductive Cause where
  | cannotOpen (e : FileError)
  | cannotRead (e : FileError)
  | cannotSearch (e : FileError)
  | cannotWrite (e : FileError)
  /-- The file is already being loaded; the names lead from the root to it. -/
  | cycle (names : List Text)
  | header (flaw : HeaderFlaw)
  /-- No block of this kind can be opened. -/
  | cannotBegin (kind : ScopeKind)
  /-- The line belongs to a block, but none is open. -/
  | nothingOpen (line : Text)
  | noBranches (word : BranchWord) (kind : ScopeKind) (opened : Nat)
  | afterElse (word : BranchWord) (opened : Nat)
  | otherCondition (kind block : ScopeKind) (opened : Nat)
  | nameReused (name : Text)
  | wrongClose (close : Closing) (kind : ScopeKind) (opened : Nat) (expected : Closing)
  | neverClosed (kind : ScopeKind) (expected : Closing)
  | cannotNegate (scope : Scope)
  | noStatement (id : StatementId)
  | alreadyComment (id : StatementId)
  | nothingToComment (id : StatementId)
  | noComment (id : StatementId)
  | blockStructure (text : Text)
  | noCommand (id : StatementId)
  | nothingToUndo
  deriving DecidableEq, Repr

namespace Cause

/-- The sort of fault that a cause makes. -/
def kind : Cause → FaultKind
  | cannotOpen _ | cannotRead _ | cannotSearch _ | cannotWrite _ | cycle _ => .io
  | header _ | cannotBegin _ | nothingOpen _ | afterElse _ _ | otherCondition _ _ _
  | nameReused _ | wrongClose _ _ _ _ | neverClosed _ _ => .grammar
  | noBranches _ _ _ => .branch
  | cannotNegate _ => .reserialize
  | noStatement _ | alreadyComment _ | nothingToComment _ | noComment _ | blockStructure _
  | noCommand _ | nothingToUndo => .edit

/-- The wording of a cause. -/
def message : Cause → Text
  | cannotOpen e => "cannot open file: " ++ e.message
  | cannotRead e => "cannot read file: " ++ e.message
  | cannotSearch e => e.message
  | cannotWrite e => e.message
  | cycle names => "control file cycle: " ++ Text.join " → " names
  | header flaw => flaw.message
  | cannotBegin kind => "cannot open a " ++ kind.label ++ " block"
  | nothingOpen line => "'" ++ line ++ "' without an open block"
  | noBranches word kind opened =>
    "'" ++ word.text ++ "' is not allowed in a " ++ kind.label ++ " block (opened at line "
      ++ Text.decimal opened ++ ")"
  | afterElse word opened =>
    "'" ++ word.text ++ "' after 'Else' (block opened at line " ++ Text.decimal opened ++ ")"
  | otherCondition kind block opened =>
    "'Else If " ++ kind.label ++ "' does not match the " ++ block.label
      ++ " block opened at line " ++ Text.decimal opened
  | nameReused name => "'" ++ name ++ "' already used by an earlier branch of this block"
  | wrongClose close kind opened expected =>
    "'" ++ close.text ++ "' closes a " ++ kind.label ++ " block opened at line "
      ++ Text.decimal opened ++ " (expected '" ++ expected.text ++ "')"
  | neverClosed kind expected =>
    kind.label ++ " block is never closed (expected '" ++ expected.text ++ "')"
  | cannotNegate scope => scope.text ++ " cannot be negated"
  | noStatement id => "no statement with id " ++ id.text
  | alreadyComment id => "statement " ++ id.text ++ " is already a comment"
  | nothingToComment id => "statement " ++ id.text ++ " has no text to comment out"
  | noComment id => "statement " ++ id.text ++ " is not a comment"
  | blockStructure text =>
    "'" ++ text ++ "' is block structure; change a statement's scope instead"
  | noCommand id => "statement " ++ id.text ++ " has no command"
  | nothingToUndo => "nothing to undo"

end Cause

/-- A failure with its place. A fault of a whole file has line 0, one of an edit no file. -/
structure Fault where
  file : Text
  line : Nat
  cause : Cause
  deriving DecidableEq, Repr

namespace Fault

/-- The fault of a whole file. -/
def ofFile (path : Path) (cause : Cause) : Fault := ⟨path.text, 0, cause⟩

/-- The fault of an edit. -/
def ofEdit (cause : Cause) : Fault := ⟨[], 0, cause⟩

/-- What went wrong. -/
def message (e : Fault) : Text := e.cause.message

/-- What went wrong, behind its place. -/
def text (e : Fault) : Text := e.file ++ ":" ++ Text.decimal e.line ++ ": " ++ e.message

end Fault

/-- Why a file that a statement refers to was not loaded. -/
inductive ChildFailure where
  | tooDeep (path : Path) (limit : Nat)
  | file (fault : Fault)
  | database (path : Path) (e : FileError)
  deriving DecidableEq, Repr

namespace ChildFailure

/-- The failure, with the place of a fault in another file. -/
def report : ChildFailure → Text
  | tooDeep path limit =>
    "'" ++ path.text ++ "' exceeds the maximum nesting depth of " ++ Text.decimal limit
  | file fault => fault.text
  | database path e => "cannot read database '" ++ path.text ++ "': " ++ e.message

/-- The failure without a place. -/
def summary : ChildFailure → Text
  | file fault => fault.message
  | failure => failure.report

end ChildFailure

/-- What there is to note about a statement. -/
inductive Reason where
  /-- No file matches the reference. -/
  | noMatch (template : Text)
  | unsearchable (template : Text) (e : FileError)
  /-- A file could not be loaded. -/
  | failed (why : ChildFailure)
  /-- A run needs a file that could not be loaded. -/
  | missing (why : ChildFailure)
  /-- A run needs a file that loading did not meet. -/
  | notLoaded (path : Path)
  deriving DecidableEq, Repr

/-- The wording of a reason. -/
def Reason.message : Reason → Text
  | noMatch template => "no file matches '" ++ template ++ "'"
  | unsearchable template e => "cannot search for '" ++ template ++ "': " ++ e.message
  | failed why => why.report
  | missing why => why.summary
  | notLoaded path => "'" ++ path.text ++ "' was not loaded"

/-- Something noted about a statement while the work goes on. -/
structure Finding where
  /-- The run it was met in; empty while loading. -/
  context : Text
  file : Text
  line : Nat
  /-- The statement as written. -/
  statement : Option Text
  reason : Reason
  deriving DecidableEq, Repr

/-- The wording of a finding, behind its place. -/
def Finding.text (d : Finding) : Text :=
  let place := d.file ++ ":" ++ Text.decimal d.line ++ ": " ++ d.reason.message
  let statement : Text := match d.statement with
    | some raw => " [" ++ raw ++ "]"
    | none => []
  let context : Text := if d.context.isEmpty then [] else " (" ++ d.context ++ ")"
  place ++ statement ++ context

end ControlFiles
