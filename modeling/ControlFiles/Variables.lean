import ControlFiles.Glob
import ControlFiles.Template

/-!
# Variables

The values that tokens stand for. A name is kept trimmed and in upper case, so that it is found in
whatever case it is written; the entries are sorted by name.

`Variables.expand` puts the values in the place of the tokens that are known and leaves the others;
`Variables.pattern` does the same as a glob pattern, in which everything known matches itself and
an unknown token matches anything.
-/

namespace ControlFiles

/-- The values of names, sorted by name. -/
structure Variables where
  entries : List (Text × Text)
  deriving DecidableEq, Repr

namespace Variables

/-- No variable has a value. -/
def empty : Variables := ⟨[]⟩

/-- The form of a name under which its value is kept. -/
def nameKey (name : Text) : Text := Text.upper (Text.trim name)

/-- The sorted list with a key bound to a value. -/
def insert (key value : Text) : List (Text × Text) → List (Text × Text)
  | [] => [(key, value)]
  | (k, v) :: rest =>
    match compare key k with
    | .lt => (key, value) :: (k, v) :: rest
    | .eq => (key, value) :: rest
    | .gt => (k, v) :: insert key value rest

/-- The variables with a name set to a value. -/
def set (vars : Variables) (name value : Text) : Variables :=
  ⟨insert (nameKey name) value vars.entries⟩

/-- The value of a name. -/
def get? (vars : Variables) (name : Text) : Option Text :=
  (vars.entries.find? fun (k, _) => k = nameKey name).map (·.2)

/-- The name has a value. -/
def has (vars : Variables) (name : Text) : Bool := (vars.get? name).isSome

/-- The variables with all the pairs set, in order. -/
def setAll (vars : Variables) (pairs : List (Text × Text)) : Variables :=
  pairs.foldl (fun acc (name, value) => acc.set name value) vars

/-! ## Expansion -/

/-- The text of a piece: a known token gives its value without the blanks around it. -/
def expandPiece (vars : Variables) : Piece → Text
  | .plain c => [c]
  | .token t =>
    match vars.get? t.name with
    | some value => Text.trim value
    | none => t.text

/-- The text with the known tokens replaced by their values; the others stay. -/
def expand (vars : Variables) (t : Text) : Text := (Template.ofText t).flatMap vars.expandPiece

/-- The pattern of a piece: what is known matches itself, an unknown token anything. -/
def patternPiece (vars : Variables) : Piece → Text
  | .plain c => Glob.escape [c]
  | .token t =>
    match vars.get? t.name with
    | some value => Glob.escape (Text.trim value)
    | none => "*"

/-- The glob pattern of a text. -/
def pattern (vars : Variables) (t : Text) : Text := (Template.ofText t).flatMap vars.patternPiece

end Variables

end ControlFiles
