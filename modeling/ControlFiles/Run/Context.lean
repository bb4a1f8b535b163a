import ControlFiles.Run.Arguments
import ControlFiles.Run.Events
import ControlFiles.Text.Replace

/-!
# Contexts

A context is one run: the names chosen on both axes, the values of the variables, and the values
that the chosen events give to tokens. It says which scopes hold and what a text means in the run.
-/

namespace ControlFiles

/-- A run. -/
structure Context where
  chosen : Chosen
  vars : Variables
  /-- What the chosen events substitute, wherever the token stands in a text. -/
  eventValues : Substitutions
  deriving DecidableEq, Repr

namespace Context

/-- The run of some names, with no variables. -/
def ofChosen (chosen : Chosen) : Context := ⟨chosen, .empty, []⟩

/-- The run that arguments choose. -/
def ofArguments (arguments : List Text) : Except ArgumentFlaw Context :=
  (Arguments.chosen arguments).map ofChosen

/-- Some name is chosen. -/
def hasSelection (c : Context) : Bool := !c.chosen.scenarios.isEmpty || !c.chosen.events.isEmpty

/-- The context with a variable set. -/
def setVariable (c : Context) (name value : Text) : Context :=
  { c with vars := c.vars.set name value }

/-- The context with the variables set, in order. -/
def setVariables (c : Context) (pairs : List (Text × Text)) : Context :=
  { c with vars := c.vars.setAll pairs }

/-- The values that the chosen events give to tokens. Of two values for one token that of the later
event counts. -/
def eventValuesOf (t : EventTable) (events : List Text) : Substitutions :=
  (events.filterMap (EventTable.find? t)).foldl
    (fun acc e =>
      e.substitutions.foldl (fun acc (token, value) => Substitutions.set token value acc) acc)
    []

/-- The context with the values that its events have in a table. -/
def withEvents (c : Context) (t : EventTable) : Context :=
  { c with eventValues := eventValuesOf t c.chosen.events }

/-! ## Substitution -/

/-- The axis tokens of some names, with the names. -/
def positional (axis : Axis) (names : List Text) : List (Text × Text) :=
  names.zipIdx.map fun (name, i) => (Token.axisKey axis (i + 1), name)

/-- The variables, and the chosen names as values of the axis tokens. -/
def substitutions (c : Context) : Variables :=
  c.vars.setAll
    (positional .scenario c.chosen.scenarios ++ positional .event c.chosen.events)

/-- The text with the values of the events in it. -/
def replaceEvents (c : Context) (t : Text) : Text :=
  c.eventValues.foldl (fun t (token, value) => Text.replaceAlike token value t) t

/-- What a text means in the run. Unknown tokens stay. -/
def substitute (c : Context) (t : Text) : Text := c.substitutions.expand (c.replaceEvents t)

/-- What a text means in the run as far as events and variables tell: the axis tokens that are no
variables stay. -/
def substituteVariables (c : Context) (t : Text) : Text := c.vars.expand (c.replaceEvents t)

/-! ## Scopes -/

/-- The names one of which the scope asks for: those it lists, and those that its token stands
for. Nothing is asked for by a token alone that the run does not know. -/
def alternatives? (c : Context) (s : Scope) : Option (List Text) :=
  match s.token with
  | none => some s.names
  | some token =>
    let meaning := c.substitute token
    if Text.hasTokens meaning then if s.names.isEmpty then none else some s.names
    else some (s.names ++ (Text.split '|' meaning).map Text.trim)

/-- The names that the run has chosen for a scope: those on its axis, or the value of the variable
that it asks about, if that is set. -/
def selected? (c : Context) (s : Scope) : Option (List Text) :=
  match s.kind with
  | .scenario => some c.chosen.scenarios
  | .event | .eventVariable => some c.chosen.events
  | .userVariable => (s.qualifier.bind c.vars.get?).map fun value => [Text.trim value]
  | _ => none

/-- The scope holds in the run. A scope that only marks nesting always does; one that asks for an
unknown token alone or about an unset variable never does, negated or not. -/
def holds (c : Context) (s : Scope) : Bool :=
  if s.kind = .global || !s.kind.isResolvable then true
  else
    match c.alternatives? s, c.selected? s with
    | some alternatives, some selected => alternatives.any (Text.listed selected) != s.negated
    | _, _ => false

/-- All the scopes hold in the run. -/
def isActive (c : Context) (l : ScopeList) : Bool := l.all c.holds

/-! ## Description -/

/-- The names of an axis as arguments. -/
def describeAxis (axis : Axis) (names : List Text) : List Text :=
  names.zipIdx.map fun (name, i) => axis.flag (i + 1) ++ " " ++ name

/-- The run as its arguments. -/
def describe (c : Context) : Text :=
  Text.join " "
    (describeAxis .scenario c.chosen.scenarios ++ describeAxis .event c.chosen.events)

end Context

end ControlFiles
