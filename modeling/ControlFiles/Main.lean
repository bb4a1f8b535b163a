import ControlFiles.Files.Walk
import ControlFiles.Program.Perform

/-!
# The program

The outermost layer: the files of the machine it runs on, its command line, and printing. Everything
else is in `Perform.commandLine`.
-/

namespace ControlFiles

namespace RealFiles

/-- The fault of a failure of the system. -/
def fault (e : IO.Error) : FileError :=
  match e with
  | .noFileOrDirectory _ _ _ => .system .noEntry
  | .inappropriateType _ 20 _ => .system .notDirectory
  | .inappropriateType _ 21 _ => .system .isDirectory
  | .permissionDenied _ code _ => .system ⟨code.toNat, "Permission denied"⟩
  | .noSuchThing _ code _ => .system ⟨code.toNat, "No such file or directory"⟩
  | .resourceExhausted _ code _ => .system ⟨code.toNat, "File name too long"⟩
  | e => .system ⟨0, e.toString.toList⟩

/-- The outcome of an action, its failure as a value. -/
def attempt {α : Type} (action : IO α) : IO (Except FileError α) := do
  try
    return .ok (← action)
  catch e =>
    return .error (fault e)

/-- The path as the system takes it. -/
def name (path : Path) : String := String.ofList path.text

/-- The path can be given to the system. -/
def checked {α : Type} (path : Path) (action : IO (Except FileError α)) :
    IO (Except FileError α) :=
  if path.text.contains '\x00' then return .error .badName
  else if path.text.isEmpty then return .error (.system .noEntry)
  else action

/-- The path that the system finds for another. -/
def canonical (path : Path) : IO (Except FileError Path) :=
  checked path (attempt do return ⟨(← IO.FS.realPath (name path)).toString.toList⟩)

/-- A directory has the path. -/
def isDirectory (path : Path) : IO Bool := do
  match ← attempt (IO.FS.realPath (name path)) with
  | .ok real => real.isDir
  | .error _ => return false

/-- A file has the path. -/
def isFile (path : Path) : IO Bool := do
  match ← attempt (IO.FS.realPath (name path)) with
  | .ok real => return !(← real.isDir)
  | .error _ => return false

/-- The names in a directory. -/
def names (path : Path) : IO (List Text) := do
  match ← attempt (do (← IO.FS.realPath (name path)).readDir) with
  | .ok entries => return entries.toList.map fun entry => entry.fileName.toList
  | .error _ => return []

/-- The text of a file. -/
def read (path : Path) : IO (Except FileError Text) :=
  checked path do
    if ← isDirectory path then return .error (.system .isDirectory)
    match ← attempt (IO.FS.readBinFile (name path)) with
    | .error e => return .error e
    | .ok bytes =>
      match Text.ofUtf8? bytes.toList with
      | some text => return .ok text
      | none => return .error .encoding

/-- A file gets a text. -/
def write (path : Path) (text : Text) : IO (Except FileError Unit) :=
  checked path (attempt (IO.FS.writeFile (name path) (String.ofList text)))

/-- The files of the system. -/
def machine : Machine IO where
  files :=
    { canonical
      read
      search := Directories.search { isDirectory, isFile, names } }
  write

end RealFiles

end ControlFiles

/-- The program: the command line is performed, its report printed. -/
def main (arguments : List String) : IO UInt32 := do
  let report ←
    ControlFiles.Perform.commandLine ControlFiles.RealFiles.machine (arguments.map String.toList)
  IO.print (String.ofList report.output)
  IO.eprint (String.ofList report.errors)
  return UInt32.ofNat report.exit
