import ControlFiles.Reference.Search
import ControlFiles.Run.Context
import ControlFiles.Run.Fault
import ControlFiles.Run.State

/-!
# Resolving

A tree of control files with every variant present is collapsed into the run state of one context.
Each file is gone through twice. First all variable assignments in force are folded into the
context, in order, those of a `.trd` file where it is referred to. Then the tokens of the statements
in force are replaced by what they stand for, and the files that the statements refer to are
resolved, each with its own copy of the context.

When the caller has chosen no name, the names are those of the last declarations of the root file
that are in force everywhere.

Both passes are by structural recursion on the tree. A statement is given what its children come to
as functions of the context, and takes the one whose path is that of the file it refers to.
-/

namespace ControlFiles

namespace Resolve

variable {m : Type → Type} [Monad m]

/-! ## The value of a statement -/

/-- The parts of a value that name files, each with the layer behind it. The file of a child is the
whole value. -/
def segments (kind : StatementKind) (value : Text) : List (Text × Text) :=
  if kind.hasChild then [(Text.trim value, [])]
  else
    (Text.alternatives value).map fun part =>
      match Text.cut? Layer.separator part with
      | some (file, layer) => (Text.trim file, " " ++ Layer.separator ++ layer)
      | none => (part, [])

/-- The value of the statement names files. -/
def namesFiles (s : Statement) : Bool := s.kind.referencesFile || s.valueKind? = some .file

/-- The fault of a statement in which some tokens are left; the first that no chosen name could
stand for is named, if there is one. -/
def unresolved (s : Statement) (tokens : List Token) : RunFault :=
  let token := (tokens.find? fun t => t.axis?.isNone).or tokens.head?
  .unresolved s.file s.line s.raw ((token.map Token.text).getD [])

/-- A value, and the files that it names. -/
abbrev Meaning := Option Text × List Path

/-- The path as it is shown in a file of the directory `base`. -/
def shown (base path : Path) : Text := ((Path.below? base path).getD path).text

/-- The parts of a value with the files that they name. A part with a token left has to name
exactly one file that is there. -/
def findSegments (files : Files m) (base : Path) (c : Context) (s : Statement) :
    List (Text × Text) → m (Except RunFault (List (Text × Path)))
  | [] => return .ok []
  | (part, layer) :: rest => do
    if !Text.hasTokens part then
      return (← findSegments files base c s rest).map ((part ++ layer, base.resolve part) :: ·)
    match ← Reference.search files base part c.vars c.chosen with
    | .error e => return .error (.load ⟨s.file, 0, .cannotSearch e⟩)
    | .ok [found] =>
      return (← findSegments files base c s rest).map ((shown base found ++ layer, found) :: ·)
    | .ok _ => return .error (unresolved s (Text.tokens part))

/-- The value of a statement in a run. -/
def value (files : Files m) (base : Path) (c : Context) (s : Statement) :
    m (Except RunFault Meaning) := do
  match s.value with
  | none => return .ok (none, [])
  | some raw =>
    let substituted := c.substitute raw
    let left := Text.tokens substituted
    if left.isEmpty then
      if namesFiles s then
        return .ok (some substituted, (segments s.kind substituted).map fun (part, _) =>
          base.resolve part)
      return .ok (some substituted, [])
    if !namesFiles s || left.any (fun t => t.axis?.isNone) then
      return .error (unresolved s left)
    let parts := segments s.kind (c.substituteVariables raw)
    return (← findSegments files base c s parts).map fun found =>
      (some (Text.join " | " (found.map (·.1))), found.map (·.2))

/-- What belongs to the first child with the path, however it is written. -/
def findChild {α : Type} (children : List (Text × α)) (path : Path) : Option α :=
  (children.find? fun (key, _) => key = Path.key path.text).map (·.2)

/-! ## Variables -/

/-- The context after a file that a statement refers to. -/
abbrev Setter (m : Type → Type) := Context → m Context

/-- The context after the files that a statement refers to. -/
def setFiles (children : List (Text × Setter m)) : List Path → Context → m Context
  | [], c => return c
  | path :: rest, c => do
    match findChild children path with
    | some set => setFiles children rest (← set c)
    | none => setFiles children rest c

/-- The context after a statement. A reference without a meaning is left to the second pass. -/
def setStatement (files : Files m) (base : Path) (s : Statement)
    (children : List (Text × Setter m)) (c : Context) : m Context := do
  if !c.isActive s.scope then return c
  let c :=
    match s.assignment? with
    | some (name, value) => c.setVariable name (c.substitute value)
    | none => c
  if s.kind ≠ .controlFileReference .trd then return c
  match ← value files base c s with
  | .ok (_, paths) => setFiles children paths c
  | .error _ => return c

mutual

/-- The context after a file. -/
def setFile (files : Files m) : ControlFile → Setter m
  | ⟨path, _, statements, _⟩ => setStatements files statements path.directory

def setStatements (files : Files m) : List Statement → Path → Setter m
  | [], _ => fun c => return c
  | ⟨id, raw, command, value, comment, kind, scope, file, line, children⟩ :: rest, base =>
    fun c => do
      let s : Statement := ⟨id, raw, command, value, comment, kind, scope, file, line, children⟩
      setStatements files rest base (← setStatement files base s (setChildren files children) c)

def setChildren (files : Files m) : List Child → List (Text × Setter m)
  | [] => []
  | ⟨path, _, content⟩ :: rest =>
    (Path.key path.text, setContent files content) :: setChildren files rest

def setContent (files : Files m) : Content → Setter m
  | .file f => setFile files f
  | .table _ => fun c => return c
  | .failed _ => fun c => return c

end

/-! ## Statements -/

/-- What a loaded file comes to in a run, or why there is nothing. -/
inductive ChildRun where
  | run (child : RunChild) (findings : List Finding)
  | missing (why : ChildFailure)

/-- What a loaded file comes to in a run, if nothing ends it. -/
abbrev Runner (m : Type → Type) := Context → m (Except RunFault ChildRun)

/-- What there is to note about a statement in a run. -/
def note (s : Statement) (c : Context) (reason : Reason) : Finding :=
  ⟨c.describe, s.file, s.line, some s.raw, reason⟩

/-- The files that a statement refers to, as they are in the run, and what is to note about
them. -/
def runFiles (s : Statement) (children : List (Text × Runner m)) (c : Context) :
    List Path → m (Except RunFault (List RunChild × List Finding))
  | [] => return .ok ([], [])
  | path :: rest => do
    let here : Except RunFault (List RunChild × List Finding) ←
      match findChild children path with
      | some run => do
        match ← run c with
        | .ok (.run child findings) => pure (.ok ([child], findings))
        | .ok (.missing why) => pure (.ok ([], [note s c (.missing why)]))
        | .error e => pure (.error e)
      | none => pure (.ok ([], [note s c (.notLoaded path)]))
    match here with
    | .error e => return .error e
    | .ok (child, findings) =>
      return (← runFiles s children c rest).map fun (others, more) =>
        (child ++ others, findings ++ more)

/-- No scope is negated that has no other branch. -/
def checkBranches (s : Statement) : Except RunFault Unit :=
  match s.scope.find? fun scope => scope.negated && !scope.kind.canBranch with
  | some scope => .error (.branch s.file s.line scope)
  | none => .ok ()

/-- The command of a statement in a run. -/
def command (c : Context) (s : Statement) : Except RunFault Text :=
  let substituted := c.substitute (s.command.getD [])
  let left := Text.tokens substituted
  if left.isEmpty then .ok substituted else .error (unresolved s left)

/-- The layers that a value without tokens names. -/
def layers (base : Path) (s : Statement) (value : Option Text) : List Layer :=
  match s.kind, value with
  | .gisReference, some v => (Text.alternatives v).map (Layer.ofReference base)
  | _, _ => []

/-- A statement in force, and what is to note about it. -/
def runActive (files : Files m) (base : Path) (s : Statement)
    (children : List (Text × Runner m)) (c : Context) :
    m (Except RunFault (RunStatement × List Finding)) := do
  if s.isPause then return .error (.paused s.file s.line (s.value.getD []))
  match command c s with
  | .error e => return .error e
  | .ok command =>
    match ← value files base c s with
    | .error e => return .error e
    | .ok (value, paths) =>
      let loaded ← if s.kind.hasChild then runFiles s children c paths else pure (.ok ([], []))
      return loaded.map fun (children, findings) =>
        (⟨s.id, command, value, s.kind, s.file, s.line, paths, layers base s value, children⟩,
          findings)

/-- What a statement comes to in a run: nothing, unless it says something and is in force. -/
def runStatement (files : Files m) (base : Path) (s : Statement)
    (children : List (Text × Runner m)) (c : Context) :
    m (Except RunFault (List RunStatement × List Finding)) := do
  match checkBranches s with
  | .error e => return .error e
  | .ok () =>
    if !s.isContent || !c.isActive s.scope then return .ok ([], [])
    return (← runActive files base s children c).map fun (run, findings) => ([run], findings)

mutual

/-- A file in a run, and what is to note about it. -/
def runFile (files : Files m) : ControlFile → Context → m (Except RunFault Resolution)
  | ⟨path, kind, statements, _⟩ => fun c => do
    let c ← setStatements files statements path.directory c
    return (← runStatements files statements path.directory c).map fun (run, findings) =>
      ⟨⟨path, kind, c.describe, run⟩, findings⟩

def runStatements (files : Files m) : List Statement → Path → Context →
    m (Except RunFault (List RunStatement × List Finding))
  | [], _ => fun _ => return .ok ([], [])
  | ⟨id, raw, command, value, comment, kind, scope, file, line, children⟩ :: rest, base =>
    fun c => do
      let s : Statement := ⟨id, raw, command, value, comment, kind, scope, file, line, children⟩
      match ← runStatement files base s (runChildren files children) c with
      | .error e => return .error e
      | .ok (run, findings) =>
        return (← runStatements files rest base c).map fun (others, more) =>
          (run ++ others, findings ++ more)

def runChildren (files : Files m) : List Child → List (Text × Runner m)
  | [] => []
  | ⟨path, _, content⟩ :: rest =>
    (Path.key path.text, runContent files content) :: runChildren files rest

def runContent (files : Files m) : Content → Runner m
  | .file f => fun c => do
    return (← runFile files f c).map fun r => .run (.file r.run) r.findings
  | .table t => fun c => return .ok (.run (.table (t.map c.substitute)) [])
  | .failed why => fun _ => return .ok (.missing why)

end

/-- The names that the last declarations in force everywhere give, where there are such. -/
def declared (statements : List Statement) (chosen : Chosen) : Chosen :=
  (statements.filter fun s => ScopeList.isGlobal s.scope).foldl
    (fun chosen s =>
      ⟨s.scenarioDeclaration?.getD chosen.scenarios, s.eventDeclaration?.getD chosen.events⟩)
    chosen

/-- The context that the root file is resolved in: names are chosen, and what the events of the
tree substitute for them is known. -/
def rootContext (f : ControlFile) (c : Context) : Context :=
  let c := if c.hasSelection then c else { c with chosen := declared f.statements c.chosen }
  c.withEvents f.events

end Resolve

/-- The run state of a tree of control files in a context. -/
def ControlFile.resolve {m : Type → Type} [Monad m] (files : Files m) (f : ControlFile)
    (c : Context) : m (Except RunFault Resolution) :=
  Resolve.runFile files f (Resolve.rootContext f c)

end ControlFiles
