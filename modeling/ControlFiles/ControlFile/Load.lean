import ControlFiles.ControlFile.Read
import ControlFiles.Reference.Search

/-!
# Loading a tree of control files

A control file is loaded with every file that its statements refer to, whatever the run: a
reference with tokens names all files that it can name under some run. Only a failure of the root
is a fault. A file below it that cannot be loaded is a child that failed, with a finding at the
statement that refers to it.

The recursion is on the number of references that may still be followed, so loading ends on any
set of files. The chain of the files that are open is passed along, by their canonical paths; a
reference back into it is a fault of the reference.
-/

namespace ControlFiles

/-- How a tree is loaded. -/
structure LoadOptions where
  /-- The characters that start a comment. -/
  marks : Text
  /-- The longest chain of references that is followed. -/
  maxDepth : Nat
  /-- Whether references are followed at all. -/
  followReferences : Bool
  /-- Whether databases are read. -/
  readDatabases : Bool
  deriving DecidableEq, Repr

namespace LoadOptions

/-- Everything is loaded, down to 32 references. -/
def standard : LoadOptions := ⟨Line.commentMarks, 32, true, true⟩

end LoadOptions

namespace Load

variable {m : Type → Type} [Monad m]

/-- What opens a control file that a statement of the last file of a chain refers to. -/
abbrev Opener (m : Type → Type) := List Path → Path → FileKind → m (Except ChildFailure ControlFile)

/-- What is known about a file before its statements are looked at. -/
structure Opened where
  /-- The chain of open files, this one at its end. -/
  chain : List Path
  statements : List Statement

/-- The statements of a file that is not open yet. -/
def openFile (files : Files m) (o : LoadOptions) (chain : List Path) (path : Path) :
    m (Except Fault Opened) := do
  match ← files.canonical path with
  | .error e => return .error (.ofFile path (.cannotOpen e))
  | .ok real =>
    if chain.contains real then
      return .error (.ofFile path (.cycle ((chain ++ [path]).map Path.fileName)))
    match ← files.read path with
    | .error e => return .error (.ofFile path (.cannotRead e))
    | .ok text =>
      return (readStatements (.ofPath o.marks path) text).map fun statements =>
        ⟨chain ++ [real], statements⟩

/-- The files that a reference may name: a reference without tokens names one, whether it is there
or not. -/
def targets (files : Files m) (base : Path) (template : Text) :
    m (Except FileError (List Path)) :=
  if Text.hasTokens template then Reference.search files base template .empty ⟨[], []⟩
  else return .ok [base.resolve template]

/-- The content of a file that a statement refers to, if files of that kind are loaded. -/
def content? (files : Files m) (o : LoadOptions) (openChild : Path → FileKind →
    m (Except ChildFailure ControlFile)) (kind : StatementKind) (path : Path) :
    m (Option Content) := do
  match kind with
  | .controlFileReference kind =>
    match ← openChild path kind with
    | .ok file => return some (.file file)
    | .error why => return some (.failed why)
  | .databaseReference =>
    if !o.readDatabases then return none
    match ← files.readTable path with
    | .ok table => return some (.table table)
    | .error e => return some (.failed (.database path e))
  | _ => return none

/-- What is to note about a statement while loading. -/
def note (s : Statement) (reason : Reason) : Finding := ⟨[], s.file, s.line, some s.raw, reason⟩

/-- What is to note about a child. -/
def noteChild (s : Statement) (c : Child) : Option Finding :=
  match c.content with
  | .failed why => some (note s (.failed why))
  | _ => none

/-- The children for some paths, those left out that are of no kind that is loaded. -/
def children (load : Path → m (Option Content)) : List Path → m (List Child)
  | [] => return []
  | path :: rest => do
    let content ← load path
    let others ← children load rest
    return (content.map fun c => Child.mk path [] c).toList ++ others

/-- The statement with its children, and what is to note about them. -/
def statement (files : Files m) (o : LoadOptions) (base : Path) (openChild : Path → FileKind →
    m (Except ChildFailure ControlFile)) (s : Statement) : m (Statement × List Finding) := do
  match s.value with
  | none => return (s, [])
  | some template =>
    if !s.kind.hasChild then return (s, [])
    match ← targets files base template with
    | .error e => return (s, [note s (.unsearchable template e)])
    | .ok [] => return (s, [note s (.noMatch template)])
    | .ok paths =>
      let loaded ← children (content? files o openChild s.kind) paths
      return ({ s with children := loaded }, loaded.filterMap (noteChild s))

/-- The statements of a file with their children, and what is to note about them. -/
def statements (files : Files m) (o : LoadOptions) (base : Path) (openChild : Path → FileKind →
    m (Except ChildFailure ControlFile)) :
    List Statement → m (List Statement × List Finding)
  | [] => return ([], [])
  | s :: rest => do
    let (s, found) ← statement files o base openChild s
    let (others, more) ← statements files o base openChild rest
    return (s :: others, found ++ more)

/-- A file with everything below it, opened by `opener`. -/
def fileWith (files : Files m) (o : LoadOptions) (opener : Opener m) (chain : List Path)
    (path : Path) (kind : FileKind) : m (Except Fault ControlFile) := do
  match ← openFile files o chain path with
  | .error fault => return .error fault
  | .ok opened =>
    if !o.followReferences then return .ok ⟨path, kind, opened.statements, []⟩
    let (statements, findings) ←
      statements files o path.directory (opener opened.chain) opened.statements
    return .ok ⟨path, kind, statements, findings⟩

/-- A file with everything below it, of which chains of at most `budget` references are
followed. -/
def file (files : Files m) (o : LoadOptions) (budget : Nat) (chain : List Path) (path : Path)
    (kind : FileKind) : m (Except Fault ControlFile) :=
  fileWith files o
    (match budget with
      | 0 => fun _ path _ => return .error (.tooDeep path o.maxDepth)
      | budget + 1 => fun chain path kind => do
        match ← file files o budget chain path kind with
        | .ok f => return .ok f
        | .error fault => return .error (.file fault))
    chain path kind

end Load

end ControlFiles
