import ControlFiles.ControlFile.Load
import ControlFiles.ControlFile.Names
import ControlFiles.Reference.Assignment

/-!
# What a file of a wildcard reference stands for

A reference `geo_<<~s1~>>.tgc` loads every file that it can name. Matching the name of such a file
with the reference, under the names that the tree mentions, tells for which scenario the file is
meant; the child carries that as a scope, behind the scopes of its statement. A scope that no name
was found for stays unresolved.
-/

namespace ControlFiles

/-- The kind of the scopes that ask about an axis. -/
def Axis.scopeKind : Axis → ScopeKind
  | .scenario => .scenario
  | .event => .event

namespace Variants

/-- The part of a reference behind its last separator. -/
def filePart (reference : Text) : Text :=
  (reference.reverse.takeWhile fun c => c ≠ '/' && c ≠ '\\').reverse

/-- The tokens of a reference that stand for a scenario or an event, each with its axis. -/
def axes (tokens : List Token) : List (Token × Axis) :=
  tokens.filterMap fun t => t.axis?.map fun (axis, _) => (t, axis)

/-- The scope of a token that nothing is known of. -/
def unresolvedScope (t : Token × Axis) : Scope := Scope.ofText t.2.scopeKind t.1.text

/-- The names that the tokens of some axes may stand for. -/
def candidatesOf (c : Candidates) (axes : List Axis) : List Text :=
  if axes.all (· = .scenario) then c.scenarios
  else if axes.all (· = .event) then c.events
  else c.scenarios ++ c.events

/-- The scopes that a file stands for among those of a reference. A token that is neither a
scenario nor an event cannot be matched with names, and then none of the tokens is. -/
def fileScopes (c : Candidates) (reference : Text) (path : Path) : List Scope :=
  let tokens := Text.tokens reference
  let axes := axes tokens
  let scopes := axes.map unresolvedScope
  if tokens.isEmpty || axes.length ≠ tokens.length then scopes
  else
    (resolveScopes scopes (filePart reference) path.fileName
      (candidatesOf c (axes.map (·.2)))).2

mutual

/-- The file with the scopes of all children below it. -/
def assignFile (c : Candidates) : ControlFile → ControlFile
  | ⟨path, kind, statements, findings⟩ => ⟨path, kind, assignStatements c statements, findings⟩

def assignStatements (c : Candidates) : List Statement → List Statement
  | [] => []
  | ⟨id, raw, command, value, comment, kind, scope, file, line, children⟩ :: rest =>
    ⟨id, raw, command, value, comment, kind, scope, file, line,
      assignChildren c (value.getD []) scope children⟩ :: assignStatements c rest

def assignChildren (c : Candidates) (reference : Text) (scope : ScopeList) :
    List Child → List Child
  | [] => []
  | ⟨path, _, content⟩ :: rest =>
    ⟨path, scope ++ fileScopes c reference path, assignContent c content⟩ ::
      assignChildren c reference scope rest

def assignContent (c : Candidates) : Content → Content
  | .file f => .file (assignFile c f)
  | .table t => .table t
  | .failed why => .failed why

end

end Variants

/-- The tree of control files below a root. -/
def ControlFile.load {m : Type → Type} [Monad m] (files : Files m) (o : LoadOptions)
    (root : Path) : m (Except Fault ControlFile) := do
  match ← Load.file files o o.maxDepth [] root (.ofPath root) with
  | .error fault => return .error fault
  | .ok f => return .ok (Variants.assignFile f.candidates f)

end ControlFiles
