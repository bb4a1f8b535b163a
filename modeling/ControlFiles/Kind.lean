import ControlFiles.Number.Binary64
import ControlFiles.Path

/-!
# Kinds of files, statements and values

A model is a tree of control files of a fixed set of kinds. Every statement has a kind, decided
once from its command and value, and every value a coarse classification: a number, several
numbers, a file, a folder, or any other text.
-/

namespace ControlFiles

/-- The kinds of control files. -/
inductive FileKind where
  /-- The root control file. -/
  | tcf
  /-- Geometry. -/
  | tgc
  /-- Boundary conditions. -/
  | tbc
  /-- One-dimensional network. -/
  | ecf
  /-- Events: what each event substitutes. -/
  | tef
  /-- Settings shared by several files. -/
  | trd
  /-- Operating controls. -/
  | toc
  /-- Rainfall. -/
  | trfc
  /-- Quadtree mesh. -/
  | qcf
  /-- Advection and dispersion. -/
  | adcf
  | other
  deriving DecidableEq, Repr

namespace FileKind

/-- The kind of the file with an extension in lower case. -/
def ofExtension (extension : Text) : FileKind :=
  if extension = "tcf" then tcf
  else if extension = "tgc" then tgc
  else if extension = "tbc" then tbc
  else if extension = "ecf" then ecf
  else if extension = "tef" then tef
  else if extension = "trd" then trd
  else if extension = "toc" then toc
  else if extension = "trfc" then trfc
  else if extension = "qcf" then qcf
  else if extension = "adcf" then adcf
  else other

/-- The kind of the file that a path names, by its extension. -/
def ofPath (p : Path) : FileKind := ofExtension (Text.lower (p.extension?.getD []))

/-- The kind of the file that a command refers to; the command is in lower case, its words set
apart by single blanks. -/
def ofCommand? (key : Text) : Option FileKind :=
  if Text.startsWith "geometry control file" key then some tgc
  else if Text.startsWith "bc control file" key then some tbc
  else if Text.startsWith "estry control file" key then some ecf
  else if key = "event file" then some tef
  else if key = "read operating controls file" then some toc
  else if Text.startsWith "rainfall control file" key then some trfc
  else if Text.startsWith "quadtree control file" key then some qcf
  else if Text.startsWith "ad control file" key then some adcf
  else if key = "read file" then some trd
  else none

end FileKind

/-- What a statement does. -/
inductive StatementKind where
  | setting
  | gisReference
  | gridReference
  | databaseReference
  | controlFileReference (kind : FileKind)
  | folderReference
  | comment
  /-- An empty line, kept so that it is written back. -/
  | blank
  /-- Stands for an empty branch of a block. -/
  | placeholder
  deriving DecidableEq, Repr

namespace StatementKind

/-- The value names one or more files. -/
def referencesFile : StatementKind → Bool
  | gisReference | gridReference | databaseReference | controlFileReference _ => true
  | _ => false

/-- The value names a file that is loaded along with the statement. -/
def hasChild : StatementKind → Bool
  | databaseReference | controlFileReference _ => true
  | _ => false

/-- The statement says something: it is no comment, blank line or placeholder. -/
def isContent : StatementKind → Bool
  | comment | blank | placeholder => false
  | _ => true

end StatementKind

/-- The coarse classification of a value. -/
inductive ValueKind where
  | number (x : Binary64)
  | numberTuple (xs : List Binary64)
  | file
  | folder
  | text
  deriving DecidableEq, Repr

namespace ValueKind

/-- The extensions by which a value counts as a file. -/
def fileExtensions : List Text :=
  ["tcf", "tgc", "tbc", "ecf", "tef", "trd", "toc", "trfc", "qcf", "adcf", "csv", "shp", "mif",
   "gpkg", "asc", "flt", "tif", "tiff", "nc", "txt", "dat", "tmf", "tsoilf"]

/-- The parts of a value between commas and blanks. -/
def tupleParts (t : Text) : List Text := Text.words (Text.replaceChar ',' ' ' t)

/-- The numbers of a value that is a list of at least two. -/
def tuple? (t : Text) : Option (List Binary64) :=
  let parts := tupleParts t
  if parts.length ≤ 1 then none else parts.mapM Binary64.read?

/-- The first file of a list of references, without the layer that may be named behind `>>`. -/
def firstFile (t : Text) : Text :=
  let first := t.takeWhile (· ≠ '|')
  Text.trim (((Text.cut? ">>" first).map (·.1)).getD first)

/-- A text ends like a file name that is known. -/
def namesFile (t : Text) : Bool :=
  match (Path.mk (firstFile t)).extension? with
  | some extension => fileExtensions.contains (Text.lower extension)
  | none => false

/-- The kind of a value in a statement of a given kind. Numbers come first; then the statement
decides, and for a setting the form of the text. -/
def classify (value : Text) (kind : StatementKind) : ValueKind :=
  let v := Text.trim value
  match Binary64.read? v, tuple? v with
  | some x, _ => number x
  | none, some xs => numberTuple xs
  | none, none =>
    if kind = .folderReference then folder
    else if kind.referencesFile then file
    else if namesFile v then file
    else if Text.endsWith "\\" v || Text.endsWith "/" v then folder
    else text

end ValueKind

end ControlFiles
