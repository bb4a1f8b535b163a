import ControlFiles.Reference.Search

/-!
# Run arguments

A run is chosen by pairs of a flag and a name: `-s1 D01 -s2 5m -e1 Q100`. The number is the
position of the name on its axis. A flag without a number takes the position after as many as are
taken already. In the end the positions of an axis must run from 1 without a gap.
-/

namespace ControlFiles

/-- Why arguments choose no run. -/
inductive ArgumentFlaw where
  | unknown (flag : Text)
  | noValue (flag : Text)
  | repeated (axis : Axis) (position : Nat)
  /-- A position is taken, but `expected` before it is not. -/
  | gap (axis : Axis) (position expected : Nat)
  deriving DecidableEq, Repr

/-- The flag of a position. -/
def Axis.flag (axis : Axis) (position : Nat) : Text :=
  match axis with
  | .scenario => "-s" ++ Text.decimal position
  | .event => "-e" ++ Text.decimal position

namespace ArgumentFlaw

/-- The wording of a flaw. -/
def message : ArgumentFlaw → Text
  | unknown flag => "unknown argument `" ++ flag ++ "`"
  | noValue flag => flag ++ " needs a value"
  | repeated axis position => axis.flag position ++ " given more than once"
  | gap axis position expected => axis.flag position ++ " given without " ++ axis.flag expected

end ArgumentFlaw

namespace Arguments

/-- The names given so far for each axis, sorted by position. -/
structure Given where
  scenarios : List (Nat × Text)
  events : List (Nat × Text)
  deriving DecidableEq, Repr

namespace Given

/-- The names given for an axis. -/
def on (g : Given) : Axis → List (Nat × Text)
  | .scenario => g.scenarios
  | .event => g.events

/-- Other names for an axis. -/
def withNames (g : Given) (axis : Axis) (names : List (Nat × Text)) : Given :=
  match axis with
  | .scenario => { g with scenarios := names }
  | .event => { g with events := names }

end Given

/-- The position that the digits of a flag write: at least 1, and within 64 bits. A plus sign may
stand before them. -/
def position? (digits : Text) : Option Nat :=
  let digits :=
    match digits with
    | '+' :: rest => rest
    | _ => digits
  match Text.number? digits with
  | some n => if 0 < n && n < Text.numberLimit then some n else none
  | none => none

/-- The axis of a flag, and its position if it has one. -/
def flag? : Text → Option (Axis × Option Nat)
  | '-' :: letter :: digits =>
    let axis? :=
      if letter = 's' || letter = 'S' then some Axis.scenario
      else if letter = 'e' || letter = 'E' then some Axis.event
      else none
    match axis? with
    | none => none
    | some axis =>
      if digits.isEmpty then some (axis, none)
      else (position? digits).map fun n => (axis, some n)
  | _ => none

/-- The names with one more at a position that is not taken. -/
def place? (position : Nat) (name : Text) : List (Nat × Text) → Option (List (Nat × Text))
  | [] => some [(position, name)]
  | (n, other) :: rest =>
    if position < n then some ((position, name) :: (n, other) :: rest)
    else if position = n then none
    else (place? position name rest).map ((n, other) :: ·)

/-- The names given by the arguments, added to those given before. -/
def read (g : Given) : List Text → Except ArgumentFlaw Given
  | [] => .ok g
  | [flag] =>
    match flag? flag with
    | some _ => .error (.noValue flag)
    | none => .error (.unknown flag)
  | flag :: name :: rest =>
    match flag? flag with
    | none => .error (.unknown flag)
    | some (axis, position?) =>
      let names := g.on axis
      let position := position?.getD (names.length + 1)
      match place? position (Text.trim name) names with
      | none => .error (.repeated axis position)
      | some names => read (g.withNames axis names) rest

/-- The names of an axis, if their positions run on from `expected`. -/
def contiguous (axis : Axis) : (expected : Nat) → List (Nat × Text) →
    Except ArgumentFlaw (List Text)
  | _, [] => .ok []
  | expected, (position, name) :: rest =>
    if position = expected then (contiguous axis (expected + 1) rest).map (name :: ·)
    else .error (.gap axis position expected)

/-- The names that some arguments choose. -/
def chosen (arguments : List Text) : Except ArgumentFlaw Chosen := do
  let given ← read ⟨[], []⟩ arguments
  let scenarios ← contiguous .scenario 1 given.scenarios
  let events ← contiguous .event 1 given.events
  return ⟨scenarios, events⟩

end Arguments

end ControlFiles
