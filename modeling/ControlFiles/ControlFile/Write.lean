import ControlFiles.Statement

/-!
# Writing a control file

Scoped statements are turned back into block text. The writer keeps the levels of the blocks that
it has opened. For each statement it finds the longest run of levels that the statement has in
common with them, closes what lies beyond and opens what is missing; a level that is a later branch
of an open block is written as `Else If` or `Else` instead.

A scope that was read from a file has its headers written back as they were, and goes on with an
open block only if it was read from the same one. Any other scope gets generated headers.
-/

namespace ControlFiles

/-- The branch of a block: its scope, and for an `Else If` branch the negation of all earlier names
as its guard. -/
structure Level where
  guard : Option Scope
  leaf : Scope
  deriving DecidableEq, Repr

namespace Level

/-- The level is an `Else` branch. -/
def isElse (l : Level) : Bool := l.guard.isNone && l.leaf.negated

/-- Both scopes were read from the same branch, or neither was read from a file. -/
def sameSource : Option BlockSource → Option BlockSource → Bool
  | none, none => true
  | some s, some t => s.sameBranch t
  | _, _ => false

/-- The guards agree. -/
def sameGuard : Option Scope → Option Scope → Bool
  | none, none => true
  | some s, some t => s.identical t
  | _, _ => false

/-- The levels are the same branch. -/
def identical (l k : Level) : Bool :=
  sameGuard l.guard k.guard && l.leaf.identical k.leaf && sameSource l.leaf.source k.leaf.source

/-- The levels of a list of scopes. A negation that no `Else` made guards the next scope, if that
is a later branch of the same block; standing alone it is written as an `Else` branch. The first
scope that cannot be negated is an error. -/
def group : Option Scope → List Scope → Except Scope (List Level)
  | none, [] => .ok []
  | some g, [] => .ok [⟨none, g⟩]
  | guard, s :: rest =>
    if s.negated && !s.kind.canBranch then .error s
    else
      let next :=
        if s.negated && !s.fromElse then group (some s) rest
        else (group none rest).map (⟨none, s⟩ :: ·)
      match guard with
      | some g =>
        if !s.negated && g.sameBlock s then (group none rest).map (⟨some g, s⟩ :: ·)
        else next.map (⟨none, g⟩ :: ·)
      | none => next

/-- The levels of the scopes of a statement. -/
def ofScopes (l : ScopeList) : Except Scope (List Level) := group none (ScopeList.withoutGlobal l)

/-- The header that opens a block with a scope. -/
def openText (s : Scope) : Text :=
  let names := s.namesText
  let qualifier := s.qualifier.getD []
  match s.kind with
  | .scenario | .event => "If " ++ s.kind.label ++ " == " ++ names
  | .userVariable => "If Variable " ++ qualifier ++ " == " ++ names
  | .eventVariable => "Define Event == " ++ names
  | .outputZone => "Define Output Zone == " ++ names
  | .controlBlock => "Define " ++ qualifier ++ " == " ++ names
  | .oneDimDomain => "Start 1D Domain"
  | .global => []

/-- The header of a scope: as it was read, or else as generated. -/
def headerText (s : Scope) (generated : Text) : Text :=
  match s.source with
  | some source => source.header
  | none => generated

/-- The header of a level that continues a block. -/
def branchText (l : Level) : Text :=
  headerText l.leaf (if l.guard.isSome then "Else " ++ openText l.leaf else "Else")

/-- The headers of a level that opens a block. A branch that is not the first gets one in front,
with the names that the earlier branches have used. -/
def openingTexts (l : Level) : List Text :=
  match l.guard with
  | some g => [openText g, l.branchText]
  | none =>
    if l.leaf.negated then [openText l.leaf, l.branchText]
    else [headerText l.leaf (openText l.leaf)]

/-- The alternatives that a level uses up. -/
def uses (l : Level) : List Text :=
  ((l.guard.map Scope.alternatives).getD []) ++ l.leaf.alternatives

/-- The line that closes the block of a level. -/
def closeTexts (l : Level) : List Text :=
  match l.leaf.kind.closing? with
  | some closing => [((l.leaf.source.bind (·.close)).getD closing.text)]
  | none => []

end Level

/-- A block that the writer has opened, with all names that its branches have used. -/
structure OpenLevel where
  level : Level
  seen : List Text
  deriving DecidableEq, Repr

namespace OpenLevel

/-- The lists have the same names, in whatever order and case. -/
def sameNames (a b : List Text) : Bool := a.length == b.length && a.all (Text.listed b)

/-- The level can follow as the next branch of the open block. -/
def continuesWith (o : OpenLevel) (next : Level) : Bool :=
  o.level.leaf.sameBlock next.leaf && next.leaf.kind.canBranch && !o.level.isElse &&
    match o.level.leaf.source, next.leaf.source with
    | some s, some t => s.block == t.block
    | _, _ =>
      match next.guard with
      | some g => sameNames g.alternatives o.seen
      | none => next.leaf.negated && sameNames next.leaf.alternatives o.seen

/-- The open block with its next branch. -/
def advance (o : OpenLevel) (next : Level) : OpenLevel :=
  ⟨next, if next.guard.isSome then o.seen ++ next.leaf.alternatives else o.seen⟩

/-- A block opened by a level. -/
def ofLevel (l : Level) : OpenLevel := ⟨l, l.uses⟩

end OpenLevel

namespace Layout

/-- The blanks in front of a line inside `depth` blocks. -/
def indentation (depth : Nat) : Text := List.replicate (4 * depth) ' '

/-- A line at its depth; an empty line stays empty. -/
def indent (depth : Nat) (line : Text) : Text :=
  if line.isEmpty then [] else indentation depth ++ line

/-- The lines that close blocks, the outermost of which is at `depth`. -/
def closeAll : Nat → List OpenLevel → List Text
  | _, [] => []
  | depth, o :: inner => closeAll (depth + 1) inner ++ o.level.closeTexts.map (indent depth)

/-- The lines that open levels, the outermost of which is at `depth`. -/
def openAll : Nat → List Level → List Text
  | _, [] => []
  | depth, l :: inner => l.openingTexts.map (indent depth) ++ openAll (depth + 1) inner

/-- The open blocks and the levels that agree, from the outermost on. -/
def common : List OpenLevel → List Level → Nat
  | o :: os, l :: ls => if o.level.identical l then common os ls + 1 else 0
  | _, _ => 0

/-- The open blocks, the outermost first, moved to the levels of a statement, and the lines that
this takes. -/
def move (blocks : List OpenLevel) (target : List Level) : List OpenLevel × List Text :=
  let n := common blocks target
  let kept := blocks.take n
  match blocks.drop n, target.drop n with
  | [], levels => (kept ++ levels.map .ofLevel, openAll n levels)
  | open_, [] => (kept, closeAll n open_)
  | o :: inner, next :: levels =>
    if o.continuesWith next then
      (kept ++ o.advance next :: levels.map .ofLevel,
        closeAll (n + 1) inner ++ indent n next.branchText :: openAll (n + 1) levels)
    else
      (kept ++ (next :: levels).map .ofLevel,
        closeAll n (o :: inner) ++ openAll n (next :: levels))

/-- The lines of a statement at its depth. -/
def statementLines (depth : Nat) (s : Statement) : List Text :=
  match s.kind with
  | .placeholder => []
  | .blank => [[]]
  | _ => [indent depth s.raw]

/-- The lines of some statements, with the given blocks open before them. -/
def lines (file : Text) : List OpenLevel → List Statement → Except Fault (List Text)
  | blocks, [] => .ok (closeAll 0 blocks)
  | blocks, s :: rest =>
    match Level.ofScopes (ScopeList.withGlobal s.scope) with
    | .error scope => .error ⟨file, s.line, .cannotNegate scope⟩
    | .ok target =>
      let (blocks, moved) := move blocks target
      (lines file blocks rest).map fun more =>
        moved ++ statementLines blocks.length s ++ more

end Layout

/-- The text of some statements; every line ends in a line feed. -/
def writeStatements (file : Text) (statements : List Statement) : Except Fault Text :=
  (Layout.lines file [] statements).map fun lines => lines.flatMap (· ++ "\n")

/-- The text of a control file. -/
def ControlFile.toText (f : ControlFile) : Except Fault Text :=
  writeStatements f.path.text f.statements

end ControlFiles
