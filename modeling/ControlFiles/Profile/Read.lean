import ControlFiles.Profile.Token
import ControlFiles.Variables

/-!
# Profiles

A profile gives the defaults of a run: `scenarios` and `events` are lists of strings, `variables` a
table of strings. The table is a section `[variables]`, an inline table, or dotted keys. Nothing
else may be in a profile, and nothing may be given twice.
-/

namespace ControlFiles

/-- The defaults of a run. -/
structure Profile where
  scenarios : List Text
  events : List Text
  /-- Sorted by name. -/
  vars : List (Text × Text)
  deriving DecidableEq, Repr

namespace Profile

/-- How the table of variables was begun. Only dotted keys add to a table begun by dotted keys, and
nothing adds to one in braces. -/
inductive Table where
  | headed
  | dotted
  | braced
  deriving DecidableEq, Repr

/-- What has been read of a profile. -/
structure Draft where
  scenarios : Option (List Text)
  events : Option (List Text)
  vars : Option (Table × List (Text × Text))

namespace Draft

/-- Nothing has been read. -/
def empty : Draft := ⟨none, none, none⟩

/-- The profile without anything more. -/
def finish (p : Draft) : Profile :=
  ⟨p.scenarios.getD [], p.events.getD [], (p.vars.map (·.2)).getD []⟩

/-- The variables with one more, which must not be there yet. -/
def addVariable (name value : Text) (vars : List (Text × Text)) :
    Option (List (Text × Text)) :=
  if vars.any fun (n, _) => n = name then none
  else some (Variables.insert name value vars)

/-- The variables with several more. -/
def addVariables : List (Text × Text) → List (Text × Text) → Option (List (Text × Text))
  | [], vars => some vars
  | (name, value) :: rest, vars => (addVariable name value vars).bind (addVariables rest)

/-- The variables that more can be added to, for a table that is begun or gone on with. -/
def variablesFor (p : Draft) (table : Table) : Option (List (Text × Text)) :=
  match p.vars with
  | none => some []
  | some (begun, vars) => if begun = table && table ≠ .braced then some vars else none

end Draft

/-! ## Values -/

/-- What a key is given. -/
inductive Value where
  | text (t : Text)
  | list (ts : List Text)
  | table (entries : List (Text × Text))
  deriving DecidableEq, Repr

/-- The strings of a list, from behind its bracket or comma, and what follows it. A string may come
where `ready`; behind it a comma or the bracket comes. Line ends do not matter. -/
def items? : (ready : Bool) → List Token → Option (List Text × List Token)
  | ready, .newline :: rest => items? ready rest
  | true, .string t _ :: rest => (items? false rest).map fun (ts, after) => (t :: ts, after)
  | false, .mark ',' :: rest => items? true rest
  | _, .mark ']' :: rest => some ([], rest)
  | _, _ => none

/-- The key that a token is. -/
def key? : Token → Option Text
  | .word t => some t
  | .string t false => some t
  | _ => none

/-- The entries of a table in braces, from behind a brace or comma, and what follows it. -/
def entries? : List Token → Option (List (Text × Text) × List Token)
  | key :: .mark '=' :: .string value _ :: .mark ',' :: rest =>
    match key? key, entries? rest with
    | some name, some (entries, after) => some ((name, value) :: entries, after)
    | _, _ => none
  | key :: .mark '=' :: .string value _ :: .mark '\x7d' :: rest =>
    (key? key).map fun name => ([(name, value)], rest)
  | _ => none

/-- A value and what follows it. -/
def value? : List Token → Option (Value × List Token)
  | .string t _ :: rest => some (.text t, rest)
  | .mark '[' :: rest => (items? true rest).map fun (ts, after) => (.list ts, after)
  | .mark '\x7b' :: .mark '\x7d' :: rest => some (.table [], rest)
  | .mark '\x7b' :: rest => (entries? rest).map fun (entries, after) => (.table entries, after)
  | _ => none

/-! ## Lines -/

/-- The parts of a dotted key, and what follows it. -/
def keys? : List Token → Option (List Text × List Token)
  | token :: .mark '.' :: rest =>
    match key? token, keys? rest with
    | some name, some (names, after) => some (name :: names, after)
    | _, _ => none
  | token :: rest => (key? token).map fun name => ([name], rest)
  | [] => none

/-- The profile with a key outside every section given a value. -/
def Draft.assign (p : Draft) (keys : List Text) (value : Value) : Option Draft :=
  match value with
  | .list ts =>
    if keys = [("scenarios" : Text)] && p.scenarios.isNone then some { p with scenarios := some ts }
    else if keys = [("events" : Text)] && p.events.isNone then some { p with events := some ts }
    else none
  | .table entries =>
    if keys = [("variables" : Text)] && p.vars.isNone then
      (addVariables entries []).map fun vs => { p with vars := some (.braced, vs) }
    else none
  | .text value =>
    match keys with
    | [table, name] =>
      if table = "variables" then
        ((p.variablesFor .dotted).bind (addVariable name value)).map fun vs =>
          { p with vars := some (.dotted, vs) }
      else none
    | _ => none

/-- The profile with a key in the section of the variables given a value. -/
def Draft.assignVariable (p : Draft) (keys : List Text) (value : Value) : Option Draft :=
  match keys, value with
  | [name], .text value =>
    ((p.variablesFor .headed).bind (addVariable name value)).map fun vs =>
      { p with vars := some (.headed, vs) }
  | _, _ => none

/-- The section of the variables is begun by the tokens; what follows its name. -/
def header? : List Token → Option (List Token)
  | .mark '[' :: token :: .mark ']' :: rest =>
    if key? token = some ("variables" : Text) then some rest else none
  | _ => none

/-- The tokens behind the end of a line, or of the text. -/
def lineEnd? : List Token → Option (List Token)
  | [] => some []
  | .newline :: rest => some rest
  | _ => none

/-- One line, of a section or not: the profile after it, whether a section is open, and what
follows. -/
def line? (p : Draft) (inSection : Bool) (tokens : List Token) :
    Option (Draft × Bool × List Token) := do
  match header? tokens with
  | some rest =>
    if p.vars.isSome then none
    else
      let after ← lineEnd? rest
      return ({ p with vars := some (.headed, []) }, true, after)
  | none =>
    match ← keys? tokens with
    | (keys, .mark '=' :: rest) =>
      let (value, rest) ← value? rest
      let after ← lineEnd? rest
      let p ← if inSection then p.assignVariable keys value else p.assign keys value
      return (p, inSection, after)
    | _ => none

/-- All lines. Each takes at least one token. -/
def lines? : (steps : Nat) → Draft → Bool → List Token → Option Draft
  | _, p, _, [] => some p
  | 0, _, _, _ :: _ => none
  | steps + 1, p, inSection, .newline :: rest => lines? steps p inSection rest
  | steps + 1, p, inSection, tokens =>
    match line? p inSection tokens with
    | some (p, inSection, rest) => lines? steps p inSection rest
    | none => none

/-- The profile that a text writes. -/
def read? (t : Text) : Option Profile :=
  match Token.all t with
  | some tokens => (lines? tokens.length .empty false tokens).map Draft.finish
  | none => none

end Profile

end ControlFiles
