import ControlFiles.Arrangement
import ControlFiles.Files.Access
import ControlFiles.Variables

/-!
# Searching the files of a reference

A reference with tokens is turned into glob patterns. An axis with at least as many names as the
reference has tokens of it gives each token the name at its index. With fewer names, the reference
does not say which token a name belongs to: every way to give all the names to distinct tokens
makes a pattern, in which the tokens left over match anything.
-/

namespace ControlFiles

/-- The names that a run has chosen on an axis. -/
structure Chosen where
  scenarios : List Text
  events : List Text
  deriving DecidableEq, Repr

/-- The names on an axis. -/
def Chosen.names (c : Chosen) : Axis → List Text
  | .scenario => c.scenarios
  | .event => c.events

namespace Reference

/-- The tokens of an axis, each with its index. -/
def axisTokens (axis : Axis) (tokens : List Token) : List (Token × Nat) :=
  tokens.filterMap fun t =>
    match t.axis? with
    | some (a, index) => if a = axis then some (t, index) else none
    | none => none

/-- The variables with every token bound to the name at its index; index 0 counts as 1. -/
def byPosition (vars : Variables) (names : List Text) (tokens : List (Token × Nat)) : Variables :=
  tokens.foldl
    (fun acc (t, index) =>
      match names[index - 1]? with
      | some name => acc.set t.name name
      | none => acc)
    vars

/-- The variables with the tokens bound to the names, one by one. -/
def bind (vars : Variables) (tokens : List Token) (names : List Text) : Variables :=
  vars.setAll ((tokens.map Token.name).zip names)

/-- The ways to bind the tokens of an axis to its names. -/
def bindings (vars : Variables) (names : List Text) (tokens : List (Token × Nat)) :
    List Variables :=
  if tokens.length ≤ names.length then [byPosition vars names tokens]
  else
    (Arrangement.all names.length (tokens.map (·.1))).map fun chosen => bind vars chosen names

/-- The ways to bind the axis tokens of a reference. -/
def variants (template : Text) (vars : Variables) (chosen : Chosen) : List Variables :=
  let tokens := Text.tokens template
  (bindings vars chosen.scenarios (axisTokens .scenario tokens)).flatMap fun v =>
    bindings v chosen.events (axisTokens .event tokens)

/-- The list with a pattern added, if it is not in it. -/
def addPattern (patterns : List Text) (p : Text) : List Text :=
  if patterns.contains p then patterns else patterns ++ [p]

/-- The glob patterns of a reference. -/
def patterns (template : Text) (vars : Variables) (chosen : Chosen) : List Text :=
  ((variants template vars chosen).map fun v => v.pattern template).foldl addPattern []

/-- A pattern taken from a directory. -/
def fullPattern (base : Path) (pattern : Text) : Text :=
  let joined := Glob.escape base.text ++ "/" ++ Text.slashed (Text.trim pattern)
  (Path.mk joined).normalize.text

/-- The files that some patterns match, added to those found so far. -/
def searchAll {m : Type → Type} [Monad m] (files : Files m) (base : Path) (found : List Path) :
    List Text → m (Except FileError (List Path))
  | [] => return .ok found
  | p :: rest => do
    match ← files.search (fullPattern base p) with
    | .error e => return .error e
    | .ok more => searchAll files base (more.foldl (fun acc q => q.insertSorted acc) found) rest

/-- The files that a reference written in a directory names, in order. -/
def search {m : Type → Type} [Monad m] (files : Files m) (base : Path) (template : Text)
    (vars : Variables) (chosen : Chosen) : m (Except FileError (List Path)) :=
  searchAll files base [] (patterns template vars chosen)

end Reference

end ControlFiles
