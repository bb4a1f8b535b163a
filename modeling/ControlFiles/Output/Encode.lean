import ControlFiles.Output.Json
import ControlFiles.Run.Fault
import ControlFiles.Run.State

/-!
# Values for other programs

Faults, findings and run states as JSON. The parts of a run state and of what is noted about it
stand in the order in which they are declared; everything else is sorted by name.
-/

namespace ControlFiles

namespace Encode

/-- The report of a fault. -/
def report (r : FaultReport) : JsonValue :=
  .ofFields [("file", .text r.file), ("kind", .text r.kind), ("line", .nat r.line),
    ("message", .text r.message)]

/-- A field that is always there. -/
def always (name : Text) (value : JsonValue) : List (Text × JsonValue) := [(name, value)]

/-- The field of something that may be absent. -/
def optional (name : Text) (value : Option JsonValue) : List (Text × JsonValue) :=
  (value.map fun v => (name, v)).toList

/-- The field of a list, left out when it is empty. -/
def nonempty (name : Text) (values : List JsonValue) : List (Text × JsonValue) :=
  if values.isEmpty then [] else [(name, .list values)]

/-- A finding, its parts in the order of their declaration. -/
def finding (d : Finding) : JsonValue :=
  .ofFields (always "context" (.text d.context) ++ always "file" (.text d.file)
    ++ always "line" (.nat d.line) ++ optional "statement" (d.statement.map .text)
    ++ always "reason" (.text d.reason.message))

/-- A finding, its parts sorted by name. -/
def sortedFinding (d : Finding) : JsonValue :=
  .ofFields (always "context" (.text d.context) ++ always "file" (.text d.file)
    ++ always "line" (.nat d.line) ++ always "reason" (.text d.reason.message)
    ++ optional "statement" (d.statement.map .text))

/-- The name of a kind of files. -/
def fileKind : FileKind → Text
  | .tcf => "Tcf"
  | .tgc => "Tgc"
  | .tbc => "Tbc"
  | .ecf => "Ecf"
  | .tef => "Tef"
  | .trd => "Trd"
  | .toc => "Toc"
  | .trfc => "Trfc"
  | .qcf => "Qcf"
  | .adcf => "Adcf"
  | .other => "Other"

/-- A kind of statements. -/
def statementKind : StatementKind → JsonValue
  | .setting => .text "Setting"
  | .gisReference => .text "GisReference"
  | .gridReference => .text "GridReference"
  | .databaseReference => .text "DatabaseReference"
  | .controlFileReference kind => .ofFields [("ControlFileReference", .text (fileKind kind))]
  | .folderReference => .text "FolderReference"
  | .comment => .text "Comment"
  | .blank => .text "Blank"
  | .placeholder => .text "Placeholder"

/-- A kind of values. -/
def valueKind : ValueKind → JsonValue
  | .number x => .ofFields [("Number", .float x)]
  | .numberTuple xs => .ofFields [("NumberTuple", .list (xs.map .float))]
  | .file => .text "File"
  | .folder => .text "Folder"
  | .text => .text "Text"

/-- A path. -/
def path (p : Path) : JsonValue := .text p.text

/-- A layer. -/
def layer (l : Layer) : JsonValue :=
  .ofFields [("database", path l.database), ("layer", .text l.name),
    ("geometry", .list [.text l.geometry.label])]

/-- A table. -/
def table (t : Table) : JsonValue :=
  .ofFields [("header", .texts t.header), ("rows", .list (t.rows.map .texts))]

/-- A statement in force, with the values of its children. -/
def runStatement (s : RunStatement) (children : List JsonValue) : JsonValue :=
  .ofFields (always "id" (.text s.id.text) ++ always "command" (.text s.command)
    ++ optional "value" (s.value.map .text) ++ always "kind" (statementKind s.kind)
    ++ optional "value_kind" (s.valueKind?.map valueKind)
    ++ always "prov" (.ofFields [("file", .text s.file), ("line", .nat s.line)])
    ++ nonempty "files" (s.files.map path) ++ nonempty "layers" (s.layers.map layer)
    ++ nonempty "children" children)

mutual

/-- A control file as it is in a run. -/
def runFile : RunFile → JsonValue
  | ⟨p, kind, context, statements⟩ =>
    .ofFields [("path", path p), ("kind", .text (fileKind kind)), ("context", .text context),
      ("statements", .list (runStatements statements))]

def runStatements : List RunStatement → List JsonValue
  | [] => []
  | ⟨id, command, value, kind, file, line, files, layers, children⟩ :: rest =>
    runStatement ⟨id, command, value, kind, file, line, files, layers, children⟩
      (runChildren children) :: runStatements rest

def runChildren : List RunChild → List JsonValue
  | [] => []
  | .file f :: rest => .ofFields [("ControlFile", runFile f)] :: runChildren rest
  | .table t :: rest => .ofFields [("Database", table t)] :: runChildren rest

end

/-- A run, and what there is to note about it. -/
def resolution (r : Resolution) : JsonValue :=
  .ofFields [("run_state", runFile r.run), ("diagnostics", .list (r.findings.map finding))]

end Encode

end ControlFiles
