import ControlFiles.Text.Basic

/-!
# Tables

A database file is a text of comma-separated rows. Reading walks over the characters with one of
six states: before a row, before a field, inside a field, inside quotes, after a quote inside
quotes, inside a comment. A field that starts with a quote runs to the closing quote, a doubled
quote inside standing for one; a quote anywhere else is an ordinary character. Rows may differ in
length, and empty lines are no rows.
-/

namespace ControlFiles

/-- The contents of a database file: the first row is the header. -/
structure Table where
  header : List Text
  rows : List (List Text)
  deriving DecidableEq, Repr

namespace Table

/-- The table of a list of rows. -/
def ofRows : List (List Text) → Table
  | [] => ⟨[], []⟩
  | header :: rows => ⟨header, rows⟩

/-- What the characters read so far leave open. -/
inductive Stage where
  /-- No row is open. -/
  | row
  /-- A field starts here. -/
  | field
  | plain
  | quoted
  /-- A quote has been read inside quotes: it closes them, or is the first half of a doubled one. -/
  | quote
  | comment
  deriving DecidableEq, Repr

/-- A reading in progress: the stage, the characters of the open field and the fields of the open
row, the latest first. -/
structure Reading where
  stage : Stage
  field : Text
  fields : List Text

namespace Reading

/-- The fields of the open row, in order and without blanks around them. -/
def finish (r : Reading) : List Text :=
  ((r.field.reverse :: r.fields).reverse).map Text.trim

/-- The reading with no row open. -/
def empty : Reading := ⟨.row, [], []⟩

/-- One character inside a field that is not quoted, or right after its closing quote. A line
feed or a carriage return ends the row. -/
def plainStep (r : Reading) (c : Char) : Reading × Option (List Text) :=
  if c = ',' then (⟨.field, [], r.field.reverse :: r.fields⟩, none)
  else if c = '\n' || c = '\r' then (empty, some r.finish)
  else (⟨.plain, c :: r.field, r.fields⟩, none)

/-- One character: the reading after it, and the row that it ends. A `!` at the start of a row
makes the whole line a comment. -/
def step (r : Reading) (c : Char) : Reading × Option (List Text) :=
  match r.stage with
  | .row =>
    if c = '\n' || c = '\r' then (empty, none)
    else if c = '!' then (⟨.comment, [], []⟩, none)
    else if c = '"' then (⟨.quoted, [], []⟩, none)
    else plainStep empty c
  | .field => if c = '"' then ({ r with stage := .quoted }, none) else plainStep r c
  | .plain => plainStep r c
  | .quoted =>
    if c = '"' then ({ r with stage := .quote }, none)
    else (⟨.quoted, c :: r.field, r.fields⟩, none)
  | .quote =>
    if c = '"' then (⟨.quoted, c :: r.field, r.fields⟩, none) else plainStep r c
  | .comment => if c = '\n' then (empty, none) else (r, none)

end Reading

/-- The rows of the rest of a text. At its end every open row is a row, an unfinished comment
line included. -/
def rowsFrom (r : Reading) : Text → List (List Text)
  | [] => if r.stage = .row then [] else [r.finish]
  | c :: rest =>
    let (next, row?) := r.step c
    row?.toList ++ rowsFrom next rest

/-- The text without the byte order mark that it may start with. -/
def dropByteOrderMark : Text → Text
  | c :: rest => if c.toNat = 0xFEFF then rest else c :: rest
  | [] => []

/-- The rows of a text. -/
def rowsOf (t : Text) : List (List Text) := rowsFrom .empty (dropByteOrderMark t)

/-- The table that a text writes. -/
def read (t : Text) : Table := ofRows (rowsOf t)

/-- The table with every cell changed. -/
def map (f : Text → Text) (t : Table) : Table := ⟨t.header.map f, t.rows.map (·.map f)⟩

end Table

end ControlFiles
