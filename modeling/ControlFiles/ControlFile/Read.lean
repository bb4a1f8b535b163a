import ControlFiles.Block.Stack
import ControlFiles.Statement

/-!
# Reading a control file

The statements of a text: every line is taken apart and given to the stack of open blocks. A line
of content becomes a statement under the scopes in force; an empty branch leaves a placeholder.
When the text is read, every scope learns the closing line of its block.
-/

namespace ControlFiles

/-- How a text is read. -/
structure ReadOptions where
  /-- The characters that start a comment. -/
  marks : Text
  /-- The file in provenance and messages. -/
  file : Text
  /-- The file name that identities are made of. -/
  idFile : Text

/-- A reading in progress: the open blocks, the texts of the statements so far (empty for a
placeholder), and the statements, both the latest first. -/
structure Reading where
  stack : BlockStack
  texts : List Text
  statements : List Statement

namespace Reading

/-- The reading with one more statement, made from the number of equal texts before it. -/
def add (r : Reading) (text : Text) (statement : Nat → Statement) : Reading :=
  { r with texts := text :: r.texts, statements := statement (r.texts.count text) :: r.statements }

/-- The reading after a line. -/
def step (o : ReadOptions) (r : Reading) (l : Line) (lineNo : Nat) : Except Fault Reading :=
  let (stack, tracked) := r.stack.process l lineNo
  let r := { r with stack }
  match tracked with
  | .error fault => .error fault
  | .ok (.content scope) =>
    .ok (r.add l.text fun ordinal =>
      Statement.ofLine (.compute o.idFile l.text ordinal) l scope o.file lineNo)
  | .ok (.structural (some scope)) =>
    .ok (r.add [] fun ordinal => Statement.placeholder o.idFile scope o.file lineNo ordinal)
  | .ok (.structural none) => .ok r

/-- The reading after some lines, the first of which has the number `lineNo`. -/
def steps (o : ReadOptions) (r : Reading) : List Line → Nat → Except Fault Reading
  | [], _ => .ok r
  | l :: rest, lineNo =>
    match r.step o l lineNo with
    | .error fault => .error fault
    | .ok r => steps o r rest (lineNo + 1)

/-- The statement with the closing lines of its blocks recorded. -/
def withCloses (closes : List (Nat × Text)) (s : Statement) : Statement :=
  { s with
    scope :=
      closes.foldl (fun scope (block, text) => ScopeList.withClose scope block text) s.scope }

end Reading

/-- The lines of a text, taken apart. -/
def ReadOptions.linesOf (o : ReadOptions) (text : Text) : List Line :=
  (Text.lines text).map (Line.classify o.marks)

/-- The statements of a text. -/
def readStatements (o : ReadOptions) (text : Text) : Except Fault (List Statement) :=
  match Reading.steps o ⟨.empty o.file, [], []⟩ (o.linesOf text) 1 with
  | .error fault => .error fault
  | .ok r =>
    match r.stack.finish with
    | .error fault => .error fault
    | .ok () => .ok (r.statements.reverse.map (Reading.withCloses r.stack.closes))

/-- How the file at a path is read. -/
def ReadOptions.ofPath (marks : Text) (path : Path) : ReadOptions :=
  ⟨marks, path.text, path.fileName⟩

/-- The control file that a text writes; the files it refers to are not looked at. -/
def ControlFile.ofText (path : Path) (text : Text) : Except Fault ControlFile :=
  (readStatements (.ofPath Line.commentMarks path) text).map fun statements =>
    ⟨path, .ofPath path, statements, []⟩

end ControlFiles
