import ControlFiles.Template

/-!
# Scopes

A scope is one condition that a statement is subject to: a kind, and the names of which one must
be chosen (an OR-list), or, when it is negated, none. A wildcard token among the names is kept
apart, since only a run tells what it stands for. The scope list of a statement is the AND of the
scopes of all blocks around it, outermost first, behind the scope `global` that every statement
has.

Two comparisons are kept apart. `Scope.sameValue` holds when the name lists meet: it asks whether
both could hold at once, and is no equivalence. `Scope.identical` compares everything except where
the scope was read from.
-/

namespace ControlFiles

/-- What a scope depends on. -/
inductive ScopeKind where
  | global
  | scenario
  | event
  | eventVariable
  | oneDimDomain
  | outputZone
  | controlBlock
  | userVariable
  deriving DecidableEq, Repr

/-- The line that closes a block. -/
inductive Closing where
  | endIf
  | endDefine
  | endDomain
  deriving DecidableEq, Repr

namespace Closing

/-- The line as it is written when no other spelling is known. -/
def text : Closing → Text
  | endIf => "End If"
  | endDefine => "End Define"
  | endDomain => "End 1D Domain"

end Closing

namespace ScopeKind

/-- A run decides whether the scope holds; the other kinds only mark nesting. -/
def isResolvable : ScopeKind → Bool
  | oneDimDomain | outputZone | controlBlock => false
  | _ => true

/-- A block of this kind may have `Else If` and `Else` branches. -/
def canBranch : ScopeKind → Bool
  | scenario | event | userVariable => true
  | _ => false

/-- A header of this kind has no names. -/
def isAnonymous : ScopeKind → Bool
  | global | oneDimDomain => true
  | _ => false

/-- The name of the kind in messages and headers. -/
def label : ScopeKind → Text
  | global => "Global"
  | scenario => "Scenario"
  | event => "Event"
  | eventVariable => "Event Variable"
  | oneDimDomain => "1D Domain"
  | outputZone => "Output Zone"
  | controlBlock => "Control Block"
  | userVariable => "Variable"

/-- The line that closes a block of this kind; there are no global blocks. -/
def closing? : ScopeKind → Option Closing
  | scenario | event | userVariable => some .endIf
  | eventVariable | outputZone | controlBlock => some .endDefine
  | oneDimDomain => some .endDomain
  | global => none

end ScopeKind

/-- Where a block scope was read from: the line that opens its block, the header line of its
branch, and the header and the closing line as written. -/
structure BlockSource where
  block : Nat
  branch : Nat
  header : Text
  close : Option Text
  deriving DecidableEq, Repr

/-- The same branch of the same block. -/
def BlockSource.sameBranch (s t : BlockSource) : Bool := s.block == t.block && s.branch == t.branch

/-- A condition on the run. -/
structure Scope where
  kind : ScopeKind
  /-- The concrete names, one of which is asked for. -/
  names : List Text
  /-- None of the names may be chosen. -/
  negated : Bool
  /-- The scope is that of an `Else` branch. -/
  fromElse : Bool
  /-- The alternative that holds a wildcard token. -/
  token : Option Text
  /-- The label of a control block, or the variable that a variable scope asks about. -/
  qualifier : Option Text
  /-- Absent for a scope that was not read from a file. -/
  source : Option BlockSource
  deriving DecidableEq, Repr

namespace Scope

/-! ## Building -/

/-- A scope with concrete names only. -/
def ofNames (kind : ScopeKind) (names : List Text) : Scope :=
  { kind, names, negated := false, fromElse := false, token := none, qualifier := none,
    source := none }

/-- The scope of every statement. -/
def global : Scope := ofNames .global []

/-- The scope has the name, in whatever case. -/
def hasName (s : Scope) (name : Text) : Bool := Text.listed s.names name

/-- The scope with the names that it does not have yet added. -/
def addNames (s : Scope) (names : List Text) : Scope :=
  { s with names := Text.addNew s.names names }

/-- One more alternative of a header: a name, or the wildcard token of the scope. Only the first
alternative with a token is kept. -/
def addAlternative (s : Scope) (alternative : Text) : Scope :=
  if Text.hasTokens alternative then
    if s.token.isNone then { s with token := some (Text.normalizeTokens alternative) } else s
  else s.addNames [alternative]

/-- The scope of a header that lists `A | B`. -/
def ofText (kind : ScopeKind) (t : Text) : Scope :=
  (Text.alternatives t).foldl addAlternative (ofNames kind [])

/-- The scope of the branches after some that used up `names`. -/
def negationOf (kind : ScopeKind) (names : List Text) (fromElse : Bool)
    (qualifier : Option Text) : Scope :=
  { ofText kind (Text.join " | " names) with negated := true, fromElse, qualifier }

/-- The scope with a qualifier. -/
def withQualifier (s : Scope) (qualifier : Option Text) : Scope := { s with qualifier }

/-- The scope as read from a place. -/
def withSource (s : Scope) (source : BlockSource) : Scope := { s with source := some source }

/-- The scope with the closing line of its block, if it was read from the block that `block`
opens. -/
def withClose (s : Scope) (block : Nat) (text : Text) : Scope :=
  match s.source with
  | some source =>
    if source.block = block then { s with source := some { source with close := some text } } else s
  | none => s

/-- The scope with its negation turned around. -/
def negate (s : Scope) : Scope := { s with negated := !s.negated }

/-! ## Alternatives -/

/-- Only a token is known, no name yet. -/
def isUnresolved (s : Scope) : Bool := s.names.isEmpty && s.token.isSome

/-- One scope for each name. A scope with at most one name is its own only alternative. -/
def explode (s : Scope) (keepNegation : Bool) : List Scope :=
  if s.names.length ≤ 1 then [{ s with negated := keepNegation && s.negated }]
  else s.names.map fun name =>
    { s with names := [name], negated := keepNegation && s.negated, token := none }

/-- The alternatives as a header lists them: the names, or else the token. -/
def alternatives (s : Scope) : List Text :=
  if s.names.isEmpty then s.token.toList else s.names

/-- The list of alternatives as a header writes it. -/
def namesText (s : Scope) : Text := Text.join " | " s.alternatives

/-- The scope in messages. -/
def text (s : Scope) : Text :=
  if s.kind = .global then s.kind.label
  else
    let mark : Text := if s.negated then "!" else ""
    let label :=
      match s.qualifier with
      | some q => s.kind.label ++ "[" ++ q ++ "]"
      | none => s.kind.label
    mark ++ label ++ "(" ++ s.namesText ++ ")"

/-! ## Comparing -/

/-- The two scopes could both hold: same kind and qualifier, and the names meet. Scopes without
names are compared by their tokens. With `neg` the negations have to agree too. -/
def sameValue (s t : Scope) (neg : Bool) : Bool :=
  s.kind == t.kind
    && (!neg || s.negated == t.negated)
    && Text.alike? s.qualifier t.qualifier
    && (s.kind.isAnonymous
      || if s.names.isEmpty || t.names.isEmpty then
          match s.token, t.token with
          | some a, some b => Text.alike a b
          | _, _ => false
        else s.names.any t.hasName)

/-- The two scopes agree in everything but the place they were read from, names in their order and
in whatever case. -/
def identical (s t : Scope) : Bool :=
  s.kind == t.kind && s.negated == t.negated && s.fromElse == t.fromElse
    && Text.alike? s.qualifier t.qualifier && Text.alike? s.token t.token
    && s.names.map Text.lower == t.names.map Text.lower

/-- The two scopes could be branches of one block: same kind and qualifier. -/
def sameBlock (s t : Scope) : Bool := s.kind == t.kind && Text.alike? s.qualifier t.qualifier

end Scope

/-- The scopes that a statement is subject to, outermost first. -/
abbrev ScopeList := List Scope

namespace ScopeList

/-- The scope list outside every block. -/
def global : ScopeList := [Scope.global]

/-- Nothing but `global` applies. -/
def isGlobal (l : ScopeList) : Bool := l.all (·.kind == .global)

/-- The list with `global` at its front. -/
def withGlobal (l : ScopeList) : ScopeList :=
  match l with
  | s :: _ => if s.kind = .global then l else Scope.global :: l
  | [] => [Scope.global]

/-- The scopes other than `global`. -/
def withoutGlobal (l : ScopeList) : List Scope := l.filter (·.kind != .global)

/-- The scope, or with `explode` one of its names. -/
def alternativesOf (explode : Bool) (s : Scope) : List Scope :=
  if explode then s.explode true else [s]

/-- Some scope of the list has a value in common with `s`. -/
def meets (l : ScopeList) (s : Scope) (explode neg : Bool) : Bool :=
  l.any fun mine =>
    (alternativesOf explode mine).any fun a =>
      (alternativesOf explode s).any fun b => a.sameValue b neg

/-- The list in messages. -/
def text (l : ScopeList) : Text := Text.join " & " (l.map Scope.text)

/-- The list with the closing line of the block that `block` opens recorded. -/
def withClose (l : ScopeList) (block : Nat) (text : Text) : ScopeList :=
  l.map fun s => s.withClose block text

end ScopeList

end ControlFiles
