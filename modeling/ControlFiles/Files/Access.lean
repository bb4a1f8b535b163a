import ControlFiles.Fault
import ControlFiles.Table

/-!
# Access to files

What loading and resolving ask of the place that the files are in. The answers come in a monad: the
identity for a store or a disk that is a value, `IO` for the real one.
-/

namespace ControlFiles

/-- The ways to get at files. -/
structure Files (m : Type → Type) where
  /-- The one path that stands for all ways to name a file or directory that exists. -/
  canonical : Path → m (Except FileError Path)
  /-- The text of a file. -/
  read : Path → m (Except FileError Text)
  /-- The files that a glob pattern matches. -/
  search : Text → m (Except FileError (List Path))

/-- The table that a database file holds. -/
def Files.readTable {m : Type → Type} [Monad m] (files : Files m) (path : Path) :
    m (Except FileError Table) := do
  match ← files.read path with
  | .ok text => return .ok (Table.read text)
  | .error e => return .error e

/-- Files that can be written too. -/
structure Machine (m : Type → Type) where
  files : Files m
  /-- A file, new or not, gets a text. -/
  write : Path → Text → m (Except FileError Unit)

end ControlFiles
