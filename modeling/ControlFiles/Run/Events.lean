import ControlFiles.Statement

/-!
# Events

What each event substitutes. In the blocks `Define Event == Q100` a statement
`BC Event Source == TOKEN | value` gives the value of a token, and `BC Event Name == value` gives
that of the token that the last `BC Event Text` has named. Of two values for one token the later
counts.
-/

namespace ControlFiles

/-- Tokens and their values. -/
abbrev Substitutions := List (Text × Text)

/-- The substitutions with a token bound to a value: in its place if it is there already, in
whatever case, and at the end if not. -/
def Substitutions.set (token value : Text) : Substitutions → Substitutions
  | [] => [(token, value)]
  | (t, v) :: rest =>
    if Text.alike t token then (t, value) :: rest else (t, v) :: set token value rest

/-- An event, with its substitutions in the order of their first mention. -/
structure Event where
  name : Text
  substitutions : Substitutions
  deriving DecidableEq, Repr

/-- The events of a tree, in the order of their first substitution. -/
abbrev EventTable := List Event

namespace EventTable

/-- The table with a token of an event bound to a value. -/
def set (event token value : Text) : EventTable → EventTable
  | [] => [⟨event, [(token, value)]⟩]
  | e :: rest =>
    if Text.alike e.name event then
      { e with substitutions := Substitutions.set token value e.substitutions } :: rest
    else e :: set event token value rest

/-- The table with a token bound to a value for all the given events; an empty token is none. -/
def setAll (events : List Text) (token value : Text) (t : EventTable) : EventTable :=
  if token.isEmpty then t else events.foldl (fun acc event => set event token value acc) t

/-- The event with a name. -/
def find? (t : EventTable) (event : Text) : Option Event :=
  List.find? (fun e => Text.alike e.name event) t

/-- A collection in progress: the table, and the token that `BC Event Name` fills in. -/
structure Collecting where
  table : EventTable
  token : Option Text

/-- The events that a statement is defined for. -/
def definedFor (s : Statement) : List Text :=
  (s.scope.filter fun c => c.kind == .eventVariable && !c.negated).flatMap (·.names)

/-- The collection after a statement. -/
def Collecting.step (c : Collecting) (s : Statement) : Collecting :=
  let value := Text.trim (s.value.getD [])
  if s.key = "bc event text" then { c with token := some value }
  else if s.key = "bc event source" then
    match Text.cut? "|" value with
    | some (token, replacement) =>
      { c with
        table := setAll (definedFor s) (Text.trim token) (Text.trim replacement) c.table }
    | none => c
  else if s.key = "bc event name" then
    match c.token with
    | some token => { c with table := setAll (definedFor s) token value c.table }
    | none => c
  else c

end EventTable

/-- The events that a file and those below it define. -/
def ControlFile.events (f : ControlFile) : EventTable :=
  (f.walk.foldl EventTable.Collecting.step ⟨[], none⟩).table

end ControlFiles
