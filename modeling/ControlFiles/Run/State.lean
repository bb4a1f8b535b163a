import ControlFiles.Layer
import ControlFiles.Statement

/-!
# Run states

The outcome of resolving a tree of control files for one run: the statements in force, with what
their tokens stand for, and the files they name. No scope is left.
-/

namespace ControlFiles

mutual

/-- A control file as it is in one run. -/
structure RunFile where
  path : Path
  kind : FileKind
  /-- The run, as its arguments. -/
  context : Text
  statements : List RunStatement

/-- A statement in force, with what its tokens stand for. -/
structure RunStatement where
  id : StatementId
  command : Text
  value : Option Text
  kind : StatementKind
  /-- The file it was read from. -/
  file : Text
  line : Nat
  /-- The files that the value names. -/
  files : List Path
  layers : List Layer
  children : List RunChild

/-- A file that a statement refers to, as it is in the run. -/
inductive RunChild where
  | file (f : RunFile)
  | table (t : Table)

end

namespace RunStatement

/-- The kind of the value. -/
def valueKind? (s : RunStatement) : Option ValueKind :=
  s.value.map fun v => ValueKind.classify v s.kind

/-- The statement as a line. -/
def text (s : RunStatement) : Text := Statement.compose s.command s.value none

end RunStatement

/-- The control file of a child, if it is one. -/
def RunChild.file? : RunChild → Option RunFile
  | .file f => some f
  | .table _ => none

namespace RunFile

/-- The control files that the statements refer to, in order. -/
def children (f : RunFile) : List RunFile :=
  f.statements.flatMap fun s => s.children.filterMap RunChild.file?

/-- The value of the last statement with a command. -/
def valueOf (f : RunFile) (command : Text) : Option Text :=
  (f.statements.reverse.find? fun s => commandKey s.command = commandKey command).bind (·.value)

mutual

/-- Every mention of a file that the run reads. -/
def mentions : RunFile → List Path
  | ⟨_, _, _, statements⟩ => mentionsOfStatements statements

def mentionsOfStatements : List RunStatement → List Path
  | [] => []
  | ⟨_, _, _, _, _, _, files, _, children⟩ :: rest =>
    files ++ mentionsOfChildren children ++ mentionsOfStatements rest

def mentionsOfChildren : List RunChild → List Path
  | [] => []
  | .file f :: rest => f.path :: mentions f ++ mentionsOfChildren rest
  | .table _ :: rest => mentionsOfChildren rest

end

/-- The files that the run reads, in order, each once. -/
def files (f : RunFile) : List Path := Path.sorted f.mentions

/-- The statements as lines. -/
def lines (statements : List RunStatement) : Text := statements.flatMap fun s => s.text ++ "\n"

mutual

/-- The statements as lines, followed by the files that they refer to, each under a line with its
path. -/
def toText : RunFile → Text
  | ⟨_, _, _, statements⟩ => lines statements ++ textOfStatements statements

def textOfStatements : List RunStatement → Text
  | [] => []
  | ⟨_, _, _, _, _, _, _, _, children⟩ :: rest => textOfChildren children ++ textOfStatements rest

def textOfChildren : List RunChild → Text
  | [] => []
  | .file f :: rest => "\n! " ++ f.path.text ++ "\n" ++ toText f ++ textOfChildren rest
  | .table _ :: rest => textOfChildren rest

end

end RunFile

/-- What resolving gives: the run, and what there is to note about it. -/
structure Resolution where
  run : RunFile
  findings : List Finding

end ControlFiles
