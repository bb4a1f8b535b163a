import ControlFiles.Digest
import ControlFiles.Fault
import ControlFiles.Table

/-!
# Statements and control files

A control file is a list of statements, one for each line that is no block structure, each with the
scopes it is in force under. A statement that refers to other files carries what was loaded from
them, so a control file is a tree of all the files that its variants name.

The identity of a statement is a digest of the file's name, the statement's text and the number of
equal lines before it, so it survives reordering and editing.
-/

namespace ControlFiles

namespace StatementId

/-- The identity of the statement with the given text that `ordinal` equal ones stand before. -/
def compute (file text : Text) (ordinal : Nat) : StatementId :=
  let message := Text.utf8 file ++ [0] ++ Text.utf8 (Text.trim text) ++ [0]
    ++ Digest.littleEndian 8 ordinal
  ⟨Digest.hex ((Digest.sha256 message).take 8)⟩

end StatementId

mutual

/-- A control file with every variant present. -/
structure ControlFile where
  path : Path
  kind : FileKind
  statements : List Statement
  /-- What was noted while this file was loaded; the files it refers to have their own. -/
  findings : List Finding

/-- A line of a control file that is no block structure. -/
structure Statement where
  id : StatementId
  /-- The line without the blanks around it. -/
  raw : Text
  command : Option Text
  value : Option Text
  comment : Option Text
  kind : StatementKind
  scope : List Scope
  /-- The file it was read from. -/
  file : Text
  line : Nat
  children : List Child

/-- What was loaded for a file that a statement refers to. -/
structure Child where
  path : Path
  /-- The scopes of the statement, and those that this file stands for among the matches of a
  wildcard reference. -/
  scope : List Scope
  content : Content

/-- The content of a file that a statement refers to. -/
inductive Content where
  | file (f : ControlFile)
  | table (t : Table)
  | failed (why : ChildFailure)

end

/-- The file of a child, if it was loaded as one. -/
def Content.file? : Content → Option ControlFile
  | .file f => some f
  | _ => none

namespace Statement

/-- The statement of a line. -/
def ofLine (id : StatementId) (line : Line) (scope : ScopeList) (file : Text) (lineNo : Nat) :
    Statement :=
  { id, raw := line.text, command := line.command, value := line.value, comment := line.comment
    kind := line.statementKind, scope, file, line := lineNo, children := [] }

/-- The statement of a text, read with the usual comment marks. -/
def ofText (id : StatementId) (raw : Text) (scope : ScopeList) (file : Text) (line : Nat) :
    Statement :=
  ofLine id (Line.classify Line.commentMarks raw) scope file line

/-- The text that the identity of a placeholder is made of. -/
def placeholderText (scope : ScopeList) : Text := '\x00' :: "placeholder " ++ ScopeList.text scope

/-- A statement without content that only holds a scope. -/
def placeholder (idFile : Text) (scope : ScopeList) (file : Text) (line ordinal : Nat) :
    Statement :=
  { id := .compute idFile (placeholderText scope) ordinal, raw := [], command := none
    value := none, comment := none, kind := .placeholder, scope, file, line, children := [] }

/-- The statement with another text, at the same place and with the same identity. -/
def withText (s : Statement) (raw : Text) : Statement := ofText s.id raw s.scope s.file s.line

/-- The statement says something. -/
def isContent (s : Statement) : Bool := s.kind.isContent

/-- The key of the command, empty if there is none. -/
def key (s : Statement) : Text := (s.command.map commandKey).getD []

/-- The name and the value of a variable assignment. -/
def assignment? (s : Statement) : Option (Text × Text) := Line.assignment? s.command s.value

/-- The statement stops a run. -/
def isPause (s : Statement) : Bool := s.key = "pause"

/-- The alternatives that the value lists. -/
def valueList (s : Statement) : List Text := Text.alternatives (s.value.getD [])

/-- The names that `Model Scenarios` declares. -/
def scenarioDeclaration? (s : Statement) : Option (List Text) :=
  if s.key = "model scenarios" then some s.valueList else none

/-- The names that `Model Events` declares. -/
def eventDeclaration? (s : Statement) : Option (List Text) :=
  if s.key = "model events" then some s.valueList else none

/-- The kind of the value. -/
def valueKind? (s : Statement) : Option ValueKind :=
  s.value.map fun v => ValueKind.classify v s.kind

/-- The line with the given parts. -/
def compose (command : Text) (value comment : Option Text) : Text :=
  let value : Text := match value with
    | some v => " == " ++ Text.trim v
    | none => []
  let comment : Text := match comment with
    | some c => " ! " ++ Text.trim c
    | none => []
  Text.trim command ++ value ++ comment

end Statement

namespace ControlFile

/-- The control files that the statements refer to, in order. -/
def children (f : ControlFile) : List ControlFile :=
  f.statements.flatMap fun s => s.children.filterMap fun c => c.content.file?

/-- The statement with an identity. -/
def find? (f : ControlFile) (id : StatementId) : Option Statement :=
  f.statements.find? (·.id = id)

mutual

/-- The file and all files below it, each file before those that it refers to. -/
def all : ControlFile → List ControlFile
  | ⟨path, kind, statements, findings⟩ =>
    ⟨path, kind, statements, findings⟩ :: allOfStatements statements

def allOfStatements : List Statement → List ControlFile
  | [] => []
  | ⟨_, _, _, _, _, _, _, _, _, children⟩ :: rest => allOfChildren children ++ allOfStatements rest

def allOfChildren : List Child → List ControlFile
  | [] => []
  | ⟨_, _, .file f⟩ :: rest => all f ++ allOfChildren rest
  | ⟨_, _, .table _⟩ :: rest => allOfChildren rest
  | ⟨_, _, .failed _⟩ :: rest => allOfChildren rest

end

mutual

/-- All statements of the file and of those below it, each followed by those of the files that it
refers to. -/
def walk : ControlFile → List Statement
  | ⟨_, _, statements, _⟩ => walkStatements statements

def walkStatements : List Statement → List Statement
  | [] => []
  | ⟨id, raw, command, value, comment, kind, scope, file, line, children⟩ :: rest =>
    ⟨id, raw, command, value, comment, kind, scope, file, line, children⟩ ::
      (walkChildren children ++ walkStatements rest)

def walkChildren : List Child → List Statement
  | [] => []
  | ⟨_, _, .file f⟩ :: rest => walk f ++ walkChildren rest
  | ⟨_, _, .table _⟩ :: rest => walkChildren rest
  | ⟨_, _, .failed _⟩ :: rest => walkChildren rest

end

/-- What was noted while the file and those below it were loaded. -/
def allFindings (f : ControlFile) : List Finding := f.all.flatMap (·.findings)

end ControlFile

end ControlFiles
