import ControlFiles.Fault

/-!
# The stack of open blocks

Lines are fed to a stack of the blocks that are open. A statement gets the scopes of the branches
that are being read; a header changes the stack. The first branch of a block carries the names of
its header, an `Else If` branch the negation of all earlier names and then its own, an `Else`
branch the negation of all of them.

When a branch that holds no line is left, the stack hands out its scope list, so that a placeholder
can keep the branch alive.
-/

namespace ControlFiles

/-- A block that waits for its closing line. -/
structure OpenBlock where
  kind : ScopeKind
  qualifier : Option Text
  closing : Closing
  /-- Every name that a branch has used so far. -/
  seen : List Text
  /-- The scopes of the branch that is being read. -/
  branch : List Scope
  hasElse : Bool
  /-- The branch that is being read holds a line. -/
  hasContent : Bool
  /-- The line that opened the block. -/
  line : Nat
  deriving DecidableEq, Repr

/-- What a line means for the statements. -/
inductive Tracked where
  /-- A statement under these scopes. -/
  | content (scope : ScopeList)
  /-- Block structure; the scopes are those of an empty branch that it ends. -/
  | structural (placeholder : Option ScopeList)
  deriving DecidableEq, Repr

/-- The open blocks of a file, the innermost first. -/
structure BlockStack where
  file : Text
  blocks : List OpenBlock
  /-- For every block closed so far the line that opened it, and its closing line as written. -/
  closes : List (Nat × Text)
  deriving DecidableEq, Repr

namespace BlockStack

/-- No block is open. -/
def empty (file : Text) : BlockStack := ⟨file, [], []⟩

/-- The scopes in force. -/
def current (s : BlockStack) : ScopeList :=
  Scope.global :: s.blocks.reverse.flatMap (·.branch)

/-- The stack after a line inside all open branches. -/
def markContent (s : BlockStack) : BlockStack :=
  { s with blocks := s.blocks.map fun b => { b with hasContent := true } }

/-- The scopes of the innermost branch, if it is still empty. -/
def placeholder? (s : BlockStack) : Option ScopeList :=
  match s.blocks with
  | b :: _ => if b.hasContent then none else some s.current
  | [] => none

/-- The source of a scope whose closing line is not read yet. -/
def sourceAt (block branch : Nat) (header : Text) : BlockSource := ⟨block, branch, header, none⟩

/-- The block that a header opens. -/
def openBlock (h : Header) (closing : Closing) (text : Text) (line : Nat) : OpenBlock :=
  let scope :=
    if h.kind.isAnonymous then Scope.ofNames h.kind []
    else (Scope.ofText h.kind h.names).withQualifier h.qualifier
  { kind := h.kind, qualifier := h.qualifier, closing, seen := Text.alternatives h.names
    branch := [scope.withSource (sourceAt line line text)]
    hasElse := false, hasContent := false, line }

/-- The block with an `Else If` branch open. -/
def elseIfBlock (b : OpenBlock) (h : Header) (text : Text) (line : Nat) : OpenBlock :=
  let source := sourceAt b.line line text
  { b with
    branch :=
      [ (Scope.negationOf h.kind b.seen false h.qualifier).withSource source,
        ((Scope.ofText h.kind h.names).withQualifier h.qualifier).withSource source ]
    seen := b.seen ++ Text.alternatives h.names
    hasContent := false }

/-- The block with its `Else` branch open. -/
def elseBlock (b : OpenBlock) (text : Text) (line : Nat) : OpenBlock :=
  { b with
    branch :=
      [(Scope.negationOf b.kind b.seen true b.qualifier).withSource (sourceAt b.line line text)]
    hasElse := true
    hasContent := false }

/-- Why the innermost block cannot go on with another branch. -/
def branchCause? (word : BranchWord) (b : OpenBlock) : Option Cause :=
  if !b.kind.canBranch then some (.noBranches word b.kind b.line)
  else if b.hasElse then some (.afterElse word b.line)
  else none

/-- Why the innermost block cannot go on with an `Else If` branch. -/
def elseIfCause? (b : OpenBlock) (h : Header) : Option Cause :=
  match branchCause? .elseIf b with
  | some cause => some cause
  | none =>
    if b.kind ≠ h.kind || !Text.alike? b.qualifier h.qualifier then
      some (.otherCondition h.kind b.kind b.line)
    else ((Text.alternatives h.names).find? (Text.listed b.seen)).map .nameReused

/-- A line that is refused, with the stack that it leaves. -/
def refuse (s : BlockStack) (line : Nat) (cause : Cause) : BlockStack × Except Fault Tracked :=
  (s, .error ⟨s.file, line, cause⟩)

/-- The innermost block is closed. A closing line of the wrong sort is refused, and closes the
block nevertheless. -/
def close (s : BlockStack) (closing : Closing) (text : Text) (line : Nat) :
    BlockStack × Except Fault Tracked :=
  match s.blocks with
  | [] => s.refuse line (.nothingOpen closing.text)
  | b :: outer =>
    if b.closing = closing then
      ({ s with blocks := outer, closes := s.closes ++ [(b.line, text)] },
        .ok (.structural s.placeholder?))
    else
      { s with blocks := outer }.refuse line (.wrongClose closing b.kind b.line b.closing)

/-- The stack after a line, and what the line means. -/
def process (s : BlockStack) (l : Line) (line : Nat) : BlockStack × Except Fault Tracked :=
  match l.directive with
  | .none => (s.markContent, .ok (.content s.current))
  | .malformed flaw => s.refuse line (.header flaw)
  | .opening h =>
    match h.kind.closing? with
    | none => s.refuse line (.cannotBegin h.kind)
    | some closing =>
      ({ s with blocks := openBlock h closing l.text line :: s.markContent.blocks },
        .ok (.structural none))
  | .elseIf h =>
    match s.blocks with
    | [] => s.refuse line (.nothingOpen BranchWord.elseIf.text)
    | b :: outer =>
      match elseIfCause? b h with
      | some cause => s.refuse line cause
      | none =>
        ({ s with blocks := elseIfBlock b h l.text line :: outer },
          .ok (.structural s.placeholder?))
  | .otherwise =>
    match s.blocks with
    | [] => s.refuse line (.nothingOpen BranchWord.otherwise.text)
    | b :: outer =>
      match branchCause? .otherwise b with
      | some cause => s.refuse line cause
      | none =>
        ({ s with blocks := elseBlock b l.text line :: outer }, .ok (.structural s.placeholder?))
  | .close closing => s.close closing l.text line

/-- At the end of a file every block has to be closed. -/
def finish (s : BlockStack) : Except Fault Unit :=
  match s.blocks with
  | b :: _ => .error ⟨s.file, b.line, .neverClosed b.kind b.closing⟩
  | [] => .ok ()

end BlockStack

end ControlFiles
