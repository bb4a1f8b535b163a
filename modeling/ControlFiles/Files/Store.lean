import ControlFiles.Files.Access

/-!
# Files in memory

A store maps paths in normal form to texts; its entries are sorted by path, each path once. A
directory exists in it when some file lies below it. Searching ignores the case of ASCII letters
and matches slashes only with slashes.
-/

namespace ControlFiles

/-- Files and their texts, sorted by path. -/
structure Store where
  entries : List (Path × Text)
  deriving DecidableEq, Repr

namespace Store

/-- The sorted entries with the text of a path. -/
def insert (path : Path) (text : Text) : List (Path × Text) → List (Path × Text)
  | [] => [(path, text)]
  | (p, t) :: rest =>
    match path.order p with
    | .lt => (path, text) :: (p, t) :: rest
    | .eq => (path, text) :: rest
    | .gt => (p, t) :: insert path text rest

/-- The store with a file written. -/
def write (s : Store) (path : Path) (text : Text) : Store :=
  ⟨insert path.normalize text s.entries⟩

/-- The store of some files; of two with one path the later counts. -/
def ofList (files : List (Path × Text)) : Store :=
  files.foldl (fun s (path, text) => s.write path text) ⟨[]⟩

/-- The paths of the files, in order. -/
def paths (s : Store) : List Path := s.entries.map (·.1)

/-- The text of a file. -/
def get? (s : Store) (path : Path) : Option Text :=
  (s.entries.find? fun (p, _) => p = path.normalize).map (·.2)

/-- The text of a file, or the error that it is not there. -/
def read (s : Store) (path : Path) : Except FileError Text :=
  match s.get? path with
  | some text => .ok text
  | none => .error (.notStored path.normalize)

/-- The path in normal form, if it is that of a file or of a directory above one. -/
def canonical (s : Store) (path : Path) : Except FileError Path :=
  if s.paths.any path.normalize.isUnder then .ok path.normalize
  else .error (.notFound path.normalize)

/-- A file or directory has the path. -/
def holds (s : Store) (path : Path) : Bool := s.paths.any path.normalize.isUnder

/-- Case does not count, and only a slash matches a slash. -/
def searchOptions : Glob.Options := ⟨true, true⟩

/-- The files that a pattern matches, in order. -/
def search (s : Store) (pattern : Text) : Except FileError (List Path) :=
  match Glob.parse pattern with
  | .ok p => .ok (s.paths.filter fun path => Glob.fits searchOptions p path.text)
  | .error e => .error (.pattern e)

/-- The store as a place that files are in. -/
def files (s : Store) : Files Id := ⟨s.canonical, s.read, s.search⟩

end Store

end ControlFiles
