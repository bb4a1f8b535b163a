import ControlFiles.Path

/-!
# Layers

A reference to geographic data is a file, or `database >> layer`. What is stored in a layer is told
by the end of its name, without a look at the file: `_P` for points, `_L` for lines, `_R` for
regions.
-/

namespace ControlFiles

/-- What a layer holds. -/
inductive Geometry where
  | point
  | line
  | region
  | unknown
  deriving DecidableEq, Repr

namespace Geometry

/-- The name of the geometry. -/
def label : Geometry → Text
  | point => "Point"
  | line => "Line"
  | region => "Region"
  | unknown => "Unknown"

/-- The end of the names of layers with the geometry. -/
def suffix : Geometry → Text
  | point => "_P"
  | line => "_L"
  | region => "_R"
  | unknown => ""

/-- The geometry of the layer at a path, from its name without extension. -/
def ofPath (p : Path) : Geometry :=
  let stem := Text.upper (p.stem?.getD [])
  ([point, line, region].find? fun g => Text.endsWith g.suffix stem).getD unknown

end Geometry

/-- A layer that a reference names. -/
structure Layer where
  database : Path
  name : Text
  geometry : Geometry
  deriving DecidableEq, Repr

namespace Layer

/-- What separates a database from the layer in it. -/
def separator : Text := ">>"

/-- The database and the layer of a reference; a reference to a file alone names the layer with the
name of the file. -/
def split (reference : Text) : Text × Text :=
  match Text.cut? separator reference with
  | some (database, layer) => (Text.trim database, Text.trim layer)
  | none =>
    let database := Text.trim reference
    (database, (Path.mk (Text.slashed database)).stem?.getD [])

/-- The layer of a reference written in a file of the directory `base`. -/
def ofReference (base : Path) (reference : Text) : Layer :=
  let (database, name) := split reference
  let path := base.resolve database
  let named := if Text.occurs separator reference then path.join ⟨name⟩ else path
  ⟨path, name, .ofPath named⟩

end Layer

end ControlFiles
