import ControlFiles.Files.Walk

/-!
# A disk

A disk is a tree of directories and files below the working directory. A path is followed part by
part, as a system does it: every part but the last must lead to a directory, `..` leads back up.
What lies outside the working directory is a directory in which nothing is found.
-/

namespace ControlFiles

/-- The names that lead from the working directory to a file or directory. -/
abbrev Trail := List Text

/-- The files and directories below the working directory. -/
structure Disk where
  files : List (Trail × List UInt8)
  /-- The directories that need not hold a file. -/
  directories : List Trail
  deriving DecidableEq, Repr

/-- Where a path leads. -/
inductive Place where
  | inside (trail : Trail)
  | outside
  deriving DecidableEq, Repr

namespace Disk

/-- The bytes of the file at the end of a trail. -/
def bytes? (d : Disk) (trail : Trail) : Option (List UInt8) :=
  (d.files.find? fun (t, _) => t = trail).map (·.2)

/-- A trail leads to a directory: the working directory, one that is known, or one with something
in it. -/
def hasDirectory (d : Disk) (trail : Trail) : Bool :=
  trail.isEmpty || d.directories.any trail.isPrefixOf
    || d.files.any fun (t, _) => trail.isPrefixOf t && trail ≠ t

/-- The names in a directory. -/
def namesIn (d : Disk) (trail : Trail) : List Text :=
  let below := (d.files.map (·.1) ++ d.directories).filter fun t => trail.isPrefixOf t
  (below.filterMap fun t => (t.drop trail.length).head?).eraseDups

/-- The place is a directory. -/
def isDirectoryAt (d : Disk) : Place → Bool
  | .inside trail => d.hasDirectory trail
  | .outside => true

/-! ## Following a path -/

/-- The longest name, in bytes. -/
def longestName : Nat := 255

/-- The place that a name leads to. -/
def enter (d : Disk) (name : Text) (place : Place) : Except SystemFault Place :=
  if longestName < (Text.utf8 name).length then .error .nameTooLong
  else
    match place with
    | .outside => .error .noEntry
    | .inside trail =>
      let next := trail ++ [name]
      if d.hasDirectory next || (d.bytes? next).isSome then .ok (.inside next)
      else .error .noEntry

/-- The place above a directory. -/
def above : Place → Place
  | .inside [] => .outside
  | .inside (name :: rest) => .inside (name :: rest).dropLast
  | .outside => .outside

/-- The place that one more part of a path leads to. -/
def step (d : Disk) (place : Place) (part : Text) : Except SystemFault Place :=
  if !d.isDirectoryAt place then .error .notDirectory
  else if part.isEmpty || part = "." then .ok place
  else if part = ".." then .ok (above place)
  else d.enter part place

/-- The place that a path of any length leads to. -/
def follow (d : Disk) (path : Path) : Except FileError Place :=
  if path.text.contains '\x00' then .error .badName
  else if path.text.isEmpty then .error (.system .noEntry)
  else
    let start : Place := if path.isAbsolute then .outside else .inside []
    ((Text.split '/' path.text).foldlM d.step start).mapError .system

/-- The longest path that can be handed to a system as one, in bytes. -/
def longestPath : Nat := 4095

/-- The place that a path leads to when the system is given it as one. -/
def locate (d : Disk) (path : Path) : Except FileError Place :=
  if !path.text.contains '\x00' && longestPath < (Text.utf8 path.text).length then
    .error (.system .nameTooLong)
  else d.follow path

/-! ## Files -/

/-- The path of a place. -/
def pathOf : Place → Path
  | .inside trail => .ofSegments (trail.map .name)
  | .outside => ⟨"/"⟩

/-- The one path for all ways to name a file or directory. It is found name by name, so no path is
too long. -/
def canonical (d : Disk) (path : Path) : Except FileError Path := (d.follow path).map pathOf

/-- The text of a file. -/
def read (d : Disk) (path : Path) : Except FileError Text :=
  match d.locate path with
  | .error e => .error e
  | .ok place =>
    if d.isDirectoryAt place then .error (.system .isDirectory)
    else
      match place with
      | .outside => .error (.system .isDirectory)
      | .inside trail =>
        match Text.ofUtf8? ((d.bytes? trail).getD []) with
        | some text => .ok text
        | none => .error .encoding

/-- The disk with a file at the end of a trail. -/
def put (d : Disk) (trail : Trail) (bytes : List UInt8) : Disk :=
  { d with files := d.files.filter (fun (t, _) => t ≠ trail) ++ [(trail, bytes)] }

/-- The disk with the text of a file, new or not, replaced. -/
def write (d : Disk) (path : Path) (text : Text) : Except FileError Disk :=
  match d.locate path with
  | .ok place =>
    match place with
    | .inside trail =>
      if d.hasDirectory trail then .error (.system .isDirectory)
      else .ok (d.put trail (Text.utf8 text))
    | .outside => .error (.system .isDirectory)
  | .error e =>
    let directory := path.parent?.getD ⟨[]⟩
    match e, d.locate (if directory.text.isEmpty then ⟨"."⟩ else directory), path.fileName? with
    | .system e, .ok (.inside trail), some name =>
      if e = .noEntry && d.hasDirectory trail then .ok (d.put (trail ++ [name]) (Text.utf8 text))
      else .error (.system e)
    | e, _, _ => .error e

/-! ## The disk as a place for files -/

/-- The disk as something to search. -/
def listing (d : Disk) : Directories Id where
  isDirectory path := ((d.locate path).toOption.map d.isDirectoryAt).getD false
  isFile path := ((d.locate path).toOption.map fun place => !d.isDirectoryAt place).getD false
  names path :=
    match d.locate path with
    | .ok (.inside trail) => d.namesIn trail
    | _ => []

/-- The disk as a place that files are in. -/
def access (d : Disk) : Files Id := ⟨d.canonical, d.read, d.listing.search⟩

/-- A disk that is changed by writing. -/
def machine : Machine (StateM Disk) where
  files :=
    { canonical := fun path => do return (← get).canonical path
      read := fun path => do return (← get).read path
      search := fun pattern => do return (← get).access.search pattern }
  write := fun path text => do
    match (← get).write path text with
    | .ok d => set d; return .ok ()
    | .error e => return .error e

end Disk

end ControlFiles
