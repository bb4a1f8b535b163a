import ControlFiles.Text.Case

/-!
# Paths

A path is a text with slashes between its parts. It means a list of segments: an optional root,
`.` only at the very beginning, `..`, and names. Parts that are empty or `.` mean nothing further
inside, but they stay in the text of a path as it was given.

* `Path.segments` is what a path means, `Path.ofSegments` the plain way to write it;
* `Path.normalize` takes `..` back against the name before it, without looking at any file;
* `Path.key` is the text under which two ways to write a path are compared;
* paths are ordered by their segments: the root, `.`, `..`, then names by their characters.
-/

namespace ControlFiles

/-- A path, as written. -/
structure Path where
  text : Text
  deriving DecidableEq, Repr

/-- What a part of a path means. -/
inductive Segment where
  | root
  | here
  | up
  | name (n : Text)
  deriving DecidableEq, Repr

namespace Segment

/-- The text of a segment inside a path. -/
def text : Segment → Text
  | root => []
  | here => "."
  | up => ".."
  | name n => n

/-- The place of a kind of segment in the order of paths. -/
def rank : Segment → Nat
  | root => 0
  | here => 1
  | up => 2
  | name _ => 3

/-- The order of segments: by kind, names by their characters. -/
def order (s t : Segment) : Ordering := (compare s.rank t.rank).then (compare s.text t.text)

/-- The segment that a part of a path means, if it means one. -/
def ofPart? (part : Text) : Option Segment :=
  if part.isEmpty || part = "." then none
  else if part = ".." then some up
  else some (name part)

end Segment

namespace Path

/-! ## Segments -/

/-- What a path starts with: a slash, a `.` that stands alone, or nothing. -/
def lead : Text → Text
  | '/' :: _ => ['/']
  | ['.'] => ['.']
  | '.' :: '/' :: _ => ['.']
  | _ => []

/-- The parts after the lead, between slashes. -/
def parts (p : Path) : List Text := Text.split '/' (p.text.drop (lead p.text).length)

/-- The segment that the lead of a path means. -/
def leadSegment : Text → List Segment
  | ['/'] => [.root]
  | ['.'] => [.here]
  | _ => []

/-- What a path means. -/
def segments (p : Path) : List Segment :=
  leadSegment (lead p.text) ++ p.parts.filterMap Segment.ofPart?

/-- The plain text of a list of segments. -/
def textOf : List Segment → Text
  | .root :: rest => "/" ++ Text.join "/" (rest.map Segment.text)
  | segments => Text.join "/" (segments.map Segment.text)

/-- The path of a list of segments. -/
def ofSegments (segments : List Segment) : Path := ⟨textOf segments⟩

/-- The path starts at the root. -/
def isAbsolute (p : Path) : Bool := Text.startsWith "/" p.text

/-! ## Order and sets -/

/-- The order of two lists of segments. -/
def orderSegments : List Segment → List Segment → Ordering
  | [], [] => .eq
  | [], _ :: _ => .lt
  | _ :: _, [] => .gt
  | s :: ss, t :: ts => (s.order t).then (orderSegments ss ts)

/-- The order of paths, segment by segment. -/
def order (p q : Path) : Ordering := orderSegments p.segments q.segments

/-- The sorted list with the path added, if no equal one is in it. -/
def insertSorted (p : Path) : List Path → List Path
  | [] => [p]
  | q :: rest =>
    match p.order q with
    | .lt => p :: q :: rest
    | .eq => q :: rest
    | .gt => q :: insertSorted p rest

/-- The paths in order, each once. -/
def sorted (ps : List Path) : List Path := ps.foldl (fun acc p => insertSorted p acc) []

/-! ## Normal form -/

/-- One more segment on a stack of segments, the latest first: `..` takes back a name. -/
def fold (stack : List Segment) (s : Segment) : List Segment :=
  match s, stack with
  | .here, _ => stack
  | .up, .name _ :: rest => rest
  | _, _ => s :: stack

/-- The path without `.`, and with `..` taken back where a name stands before it. -/
def normalize (p : Path) : Path := ofSegments (p.segments.foldl fold []).reverse

/-! ## Parts of a path -/

/-- A part that means no segment. -/
def isEmptyPart (part : Text) : Bool := (Segment.ofPart? part).isNone

/-- The parts without those at the end that mean no segment. -/
def trimParts (ps : List Text) : List Text := (ps.reverse.dropWhile isEmptyPart).reverse

/-- The name that the path ends with. -/
def fileName? (p : Path) : Option Text :=
  match (trimParts p.parts).getLast? with
  | some last => if last = ".." then none else some last
  | none => none

/-- The name that the path ends with, empty if there is none. -/
def fileName (p : Path) : Text := p.fileName?.getD []

/-- The path before its last segment; neither the root nor the empty path has one. -/
def parent? (p : Path) : Option Path :=
  let first := lead p.text
  match trimParts p.parts with
  | [] => if first = "." then some ⟨[]⟩ else none
  | ps => some ⟨first ++ Text.join "/" (trimParts ps.dropLast)⟩

/-- What stands before and after the last full stop. -/
def cutLast? (mark : Char) (t : Text) : Option (Text × Text) :=
  let after := t.reverse.takeWhile (· ≠ mark)
  match t.reverse.drop after.length with
  | _ :: before => some (before.reverse, after.reverse)
  | [] => none

/-- A file name cut into its stem and its extension; a full stop at the front does not count. -/
def stemAndExtension (name : Text) : Text × Option Text :=
  match cutLast? '.' name with
  | none => (name, none)
  | some (before, after) => if before.isEmpty then (name, none) else (before, some after)

/-- The file name without its extension. -/
def stem? (p : Path) : Option Text := p.fileName?.map fun name => (stemAndExtension name).1

/-- What follows the last full stop of the file name. -/
def extension? (p : Path) : Option Text := p.fileName?.bind fun name => (stemAndExtension name).2

/-- The path `q` taken from the directory `p`; an absolute path stands for itself. -/
def join (p q : Path) : Path :=
  if q.isAbsolute then q
  else if p.text.isEmpty || Text.endsWith "/" p.text then ⟨p.text ++ q.text⟩
  else ⟨p.text ++ "/" ++ q.text⟩

/-- The path with another name at its end. -/
def withFileName (p : Path) (name : Text) : Path :=
  (if p.fileName?.isSome then p.parent?.getD ⟨[]⟩ else p).join ⟨name⟩

/-- The path lies at or below `dir`. -/
def isUnder (dir p : Path) : Bool := dir.segments.isPrefixOf p.segments

/-- The parts behind the first `n` that mean a segment. -/
def dropSegments : (n : Nat) → List Text → List Text
  | n + 1, part :: rest => dropSegments (if isEmptyPart part then n + 1 else n) rest
  | _, rest => rest

/-- What is left of a path below `dir`, written as it was. -/
def below? (dir p : Path) : Option Path :=
  if !isUnder dir p then none
  else
    let first := lead p.text
    if dir.segments.isEmpty then some ⟨first ++ Text.join "/" (trimParts p.parts)⟩
    else
      let rest := dropSegments (dir.segments.length - (leadSegment first).length) p.parts
      some ⟨Text.join "/" (trimParts (rest.dropWhile isEmptyPart))⟩

/-- The directory of the file that a path names; the working directory if it names none. -/
def directory (p : Path) : Path := p.parent?.getD ⟨"."⟩

/-- A reference written in a file of the directory `base`, with either kind of slash. -/
def resolve (base : Path) (reference : Text) : Path :=
  (base.join ⟨Text.slashed (Text.trim reference)⟩).normalize

/-! ## Comparison of written paths -/

/-- One more part on a stack of parts, the latest first. Beyond the root `..` is dropped. -/
def foldPart (absolute : Bool) (stack : List Text) (part : Text) : List Text :=
  if part.isEmpty || part = "." then stack
  else if part = ".." then
    match stack with
    | top :: rest => if top ≠ ".." then rest else if absolute then stack else part :: stack
    | [] => if absolute then stack else part :: stack
  else part :: stack

/-- The text under which written paths are compared: slashes, no `.`, `..` taken back, and all
letters in lower case. -/
def key (t : Text) : Text :=
  let unified := Text.slashed (Text.trim t)
  let absolute := Text.startsWith "/" unified
  let folded := Text.join "/" ((Text.split '/' unified).foldl (foldPart absolute) []).reverse
  Text.lowerAll (if absolute then "/" ++ folded else folded)

end Path

end ControlFiles
