import ControlFiles.Files.Access
import ControlFiles.Glob

/-!
# Searching directories

How a glob pattern finds files on a disk. The pattern is cut at its slashes, and each part is a
pattern for one name. A part without wildcards is not searched for: it is there or not. For any
other part the names in the directory are tried, and `**` stands for any number of directories.

The names `.` and `..` are in no directory; a part finds them only if it starts with a full stop,
and before any other name. Of several ways to write one path the first that is found counts.
-/

namespace ControlFiles

/-- What a search asks of a disk. -/
structure Directories (m : Type → Type) where
  isDirectory : Path → m Bool
  isFile : Path → m Bool
  /-- The names in a directory. -/
  names : Path → m (List Text)

namespace Directories

variable {m : Type → Type} [Monad m]

/-- What all elements of a list give. -/
def gather {α β : Type} (f : α → m (List β)) : List α → m (List β)
  | [] => return []
  | x :: rest => do return (← f x) ++ (← gather f rest)

/-- The path of a name in a directory. -/
def within (directory : Path) (name : Text) : Path :=
  if directory.segments = [.here] then ⟨name⟩ else directory.join ⟨name⟩

/-- Something has the path. -/
def holds (d : Directories m) (path : Path) : m Bool := do
  if ← d.isDirectory path then return true else d.isFile path

/-- Names are compared as they are. -/
def nameOptions : Glob.Options := ⟨false, false⟩

/-- The name stands for the directory itself or the one above it. -/
def isDots (name : Text) : Bool := name = "." || name = ".."

/-- What `found` gives for everything in a directory and all those below it, down to a depth. -/
def descend (d : Directories m) (found : Text → Path → m (List Path)) :
    (depth : Nat) → Path → m (List Path)
  | 0, _ => return []
  | depth + 1, directory => do
    gather (fun name => do
      let path := within directory name
      let here ← found name path
      if ← d.isDirectory path then return here ++ (← descend d found depth path)
      return here) (← d.names directory)

/-- The longest path of a system has 4096 bytes, so no directory is deeper than half of that. -/
def deepest : Nat := 2048

/-- What is found from a directory on by the parts of a pattern. -/
def find (d : Directories m) : List Glob.Pattern → Path → m (List Path)
  | [], path => return [path]
  | part :: rest, directory => do
    match Glob.literal? part with
    | some name =>
      let path := within directory name
      let there ← if isDots name then d.isDirectory directory else d.holds path
      if there then find d rest path else return []
    | none =>
      if !(← d.isDirectory directory) then return []
      if part = [.deep] then
        match rest with
        | [] => return []
        | next :: more =>
          descend d
            (fun name path =>
              if Glob.fits nameOptions next name then find d more path else return [])
            deepest directory
      else
        let matching (name : Text) : Bool := Glob.fits nameOptions part name
        let dots : List Text :=
          if part.head? = some (.char '.') then List.filter matching ["..", "."] else []
        let around ← gather (fun name => find d rest (directory.join ⟨name⟩)) dots
        let inside ← gather (fun name => find d rest (within directory name))
          ((← d.names directory).filter matching)
        return around ++ inside

/-- The parts of a pattern; of several `**` in a row one is enough. -/
def collapse : List Glob.Pattern → List Glob.Pattern
  | [.deep] :: rest =>
    match collapse rest with
    | [.deep] :: more => [.deep] :: more
    | more => [.deep] :: more
  | part :: rest => part :: collapse rest
  | [] => []

/-- The parts of a pattern that starts at the root or not. -/
def partsOf (pattern : Text) : Except Glob.SyntaxError (List Glob.Pattern) :=
  let relative := if Text.startsWith "/" pattern then pattern.drop 1 else pattern
  if relative.isEmpty then .ok [] else (Text.split '/' relative).mapM Glob.parse

/-- The elements that satisfy a test. -/
def select {α : Type} (test : α → m Bool) : List α → m (List α)
  | [] => return []
  | x :: rest => do
    let others ← select test rest
    if ← test x then return x :: others else return others

/-- The files that a pattern matches, in order. -/
def search (d : Directories m) (pattern : Text) : m (Except FileError (List Path)) := do
  match Glob.parse pattern, partsOf pattern with
  | .error e, _ => return .error (.pattern e)
  | _, .error e => return .error (.pattern e)
  | .ok _, .ok parts =>
    let start : Path := ⟨if Text.startsWith "/" pattern then "/" else "."⟩
    let found ← find d (collapse parts) start
    let files ← select d.isFile found
    return .ok (Path.sorted files)

end Directories

end ControlFiles
