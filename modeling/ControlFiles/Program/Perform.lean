import ControlFiles.ControlFile.Variants
import ControlFiles.ControlFile.Version
import ControlFiles.Output.Encode
import ControlFiles.Profile.Context
import ControlFiles.Program.Invocation
import ControlFiles.Run.Resolve

/-!
# Performing an invocation

Every task ends with a report: what is printed, and the exit status. The status is 0 when nothing
is wrong, 2 when the task was done but something was to note, and 1 when it could not be done.
`Perform.invocation` is a function of the machine, so it runs on a disk that is a value as well as
on a real one.
-/

namespace ControlFiles

/-- What the program prints and returns. -/
structure Report where
  exit : Nat
  output : Text
  errors : Text
  deriving DecidableEq, Repr

namespace Perform

/-! ## Reports -/

/-- The text as a line. -/
def line (t : Text) : Text := t ++ "\n"

/-- The report of a fault that ends a task. -/
def failure (i : Invocation) (text : Text) (r : FaultReport) : Report :=
  let errors :=
    match i.format with
    | .json => line (JsonValue.pretty 0 (Encode.report r))
    | .plain => if i.quiet then [] else line ("error: " ++ text)
  ⟨1, [], errors⟩

/-- The report of a fault of a control file. -/
def ofFault (i : Invocation) (e : Fault) : Report := failure i e.text e.report

/-- The report of a fault of a run. -/
def ofRunFault (i : Invocation) (e : RunFault) : Report := failure i e.text e.report

/-- The report of a message without a place. -/
def ofMessage (i : Invocation) (message : Text) : Report :=
  let errors :=
    if i.quiet then []
    else
      match i.format with
      | .json => line (JsonValue.compact (.ofFields [("error", .text message)]))
      | .plain => line message
  ⟨1, [], errors⟩

/-- The report of a task that was done. -/
def done (i : Invocation) (findings : List Finding) (plain : Text) (json : JsonValue) : Report :=
  let exit := if findings.isEmpty then 0 else 2
  match i.format with
  | .json => ⟨exit, line (JsonValue.pretty 0 json), []⟩
  | .plain =>
    ⟨exit, plain, if i.quiet then [] else findings.flatMap fun d => line ("warning: " ++ d.text)⟩

variable {m : Type → Type} [Monad m]

/-! ## Loading and resolving -/

/-- The tree below a file. -/
def load (files : Files m) (i : Invocation) (o : LoadOptions) (file : Path) :
    m (Except Report ControlFile) := do
  return (← ControlFile.load files o file).mapError (ofFault i)

/-- The profile of a run, if it has one. -/
def profile (files : Files m) (i : Invocation) (path : Option Path) :
    m (Except Report (Option Profile)) := do
  match path with
  | none => return .ok none
  | some path =>
    match ← files.read path with
    | .error e =>
      return .error (ofMessage i
        ("error reading profile '" ++ path.text ++ "': " ++ e.message))
    | .ok text =>
      match Profile.read? text with
      | some p => return .ok (some p)
      | none =>
        return .error (ofMessage i
          ("error parsing profile '" ++ path.text ++ "': invalid profile"))

/-- The run that is chosen. Its context is settled before anything is loaded. -/
def resolution (files : Files m) (i : Invocation) (run : RunChoice) :
    m (Except Report Resolution) := do
  match ← profile files i run.profile with
  | .error r => return .error r
  | .ok p =>
    match Profile.context p run.arguments with
    | .error flaw => return .error (ofRunFault i (.arguments flaw))
    | .ok context =>
      match ← load files i .standard run.file with
      | .error r => return .error r
      | .ok f => return (← f.resolve files context).mapError (ofRunFault i)

/-! ## Tasks -/

/-- What a task prints when it comes to nothing sooner. -/
def orReport {α : Type} (f : α → Report) : Except Report α → Report
  | .ok a => f a
  | .error r => r

/-- The run itself. -/
def reportRun (i : Invocation) (r : Resolution) : Report :=
  done i r.findings r.run.toText (Encode.resolution r)

/-- The files that the run reads, its root among them. -/
def reportFiles (i : Invocation) (r : Resolution) : Report :=
  let files := r.run.path.insertSorted r.run.files
  done i r.findings (files.flatMap fun p => line p.text)
    (.ofFields [("context", .text r.run.context),
      ("diagnostics", .list (r.findings.map Encode.sortedFinding)),
      ("files", .list (files.map Encode.path))])

mutual

/-- The file and all below it, in the order in which they are checked: the files that one refers to
come right after it, the last reference first. -/
def backward : ControlFile → List ControlFile
  | ⟨path, kind, statements, findings⟩ =>
    ⟨path, kind, statements, findings⟩ :: backwardStatements statements

def backwardStatements : List Statement → List ControlFile
  | [] => []
  | ⟨_, _, _, _, _, _, _, _, _, children⟩ :: rest =>
    backwardStatements rest ++ backwardChildren children

def backwardChildren : List Child → List ControlFile
  | [] => []
  | ⟨_, _, .file f⟩ :: rest => backwardChildren rest ++ backward f
  | ⟨_, _, .table _⟩ :: rest => backwardChildren rest
  | ⟨_, _, .failed _⟩ :: rest => backwardChildren rest

end

/-- Why a file cannot be written back. -/
def unwritable? (f : ControlFile) : Option Fault :=
  match f.toText with
  | .ok _ => none
  | .error e => some e

/-- The number of statements of a file that say something. -/
def countContent (f : ControlFile) : Nat := f.statements.countP (·.isContent)

/-- What is wrong in a tree. Every file of it must be one that can be written back. -/
def reportTree (i : Invocation) (f : ControlFile) : Report :=
  let all := backward f
  match all.findSome? unwritable? with
  | some e => ofFault i e
  | none =>
    let statements := all.foldl (fun n g => n + countContent g) 0
    let findings := f.allFindings
    let summary :=
      f.path.text ++ ": " ++ Text.decimal all.length ++ " files, " ++ Text.decimal statements
        ++ " statements, " ++ Text.decimal findings.length ++ " problems"
    done i findings (if i.quiet then [] else line summary)
      (.ofFields [("diagnostics", .list (findings.map Encode.sortedFinding)),
        ("file", .text f.path.text), ("files", .nat all.length),
        ("statements", .nat statements)])

/-- The next version of a file is written, and its path reported. -/
def save (machine : Machine m) (i : Invocation) (f : ControlFile) : m Report := do
  match f.toText with
  | .error e => return ofFault i e
  | .ok text =>
    let target ← machine.files.freeVersion f.path
    match ← machine.write target text with
    | .error e => return ofFault i (.ofFile target (.cannotWrite e))
    | .ok () =>
      let output :=
        match i.format with
        | .json => line (JsonValue.compact (.ofFields [("written", Encode.path target)]))
        | .plain => if i.quiet then [] else line ("wrote " ++ target.text)
      return ⟨0, output, []⟩

/-- The text of a file is printed. -/
def print (i : Invocation) (f : ControlFile) : Report :=
  orReport (fun text => ⟨0, text, []⟩) (f.toText.mapError (ofFault i))

/-- A task is done. -/
def invocation (machine : Machine m) (i : Invocation) : m Report := do
  match i.task with
  | .resolve run => return orReport (reportRun i) (← resolution machine.files i run)
  | .files run => return orReport (reportFiles i) (← resolution machine.files i run)
  | .check file => return orReport (reportTree i) (← load machine.files i .standard file)
  | .write file save? =>
    match ← load machine.files i { LoadOptions.standard with followReferences := false } file with
    | .error r => return r
    | .ok f => if save? then save machine i f else return print i f

/-- The report of a command line that asks for nothing the program does. -/
def misused : Report := ⟨2, [], line "error: unknown command line"⟩

/-- The program: a command line is read and performed. -/
def commandLine (machine : Machine m) (arguments : List Text) : m Report :=
  match Invocation.ofArguments? arguments with
  | some i => invocation machine i
  | none => return misused

end Perform

end ControlFiles
