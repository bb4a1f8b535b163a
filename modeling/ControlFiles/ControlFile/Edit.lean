import ControlFiles.Statement

/-!
# Editing a control file

Edits name statements by identity. Applying one gives the statements after it and the record that
takes it back, which names statements by identity too, so undoing depends on no position that other
edits may have moved. A `Session` is a control file with the history of the edits made to it, the
latest first; each edit and each undo gives a new one.
-/

namespace ControlFiles

/-- A change to the statements of a file. -/
inductive Edit where
  /-- Make the statement a comment. -/
  | commentOut (id : StatementId)
  /-- Make the statement of a comment. -/
  | uncomment (id : StatementId)
  /-- Put a new line behind a statement, or at the top. Without a scope it gets that of the
  statement before it. -/
  | insert (after : Option StatementId) (text : Text) (scope : Option ScopeList)
  | remove (id : StatementId)
  | changeScope (id : StatementId) (scope : ScopeList)
  | updateValue (id : StatementId) (value : Text)
  deriving DecidableEq, Repr

/-- What takes an edit back. -/
inductive Undo where
  /-- Put the statement in the place of the one with its identity. -/
  | restore (previous : Statement)
  /-- Put the statement behind another one, or at the top. -/
  | reinsert (after : Option StatementId) (previous : Statement)
  | delete (id : StatementId)

namespace Edit

/-! ## Places -/

/-- The place of the statement with an identity. -/
def position (statements : List Statement) (id : StatementId) : Except Cause Nat :=
  match statements.findIdx? (·.id = id) with
  | some i => .ok i
  | none => .error (.noStatement id)

/-- The statement with an identity. -/
def lookup (statements : List Statement) (id : StatementId) : Except Cause Statement :=
  match statements.find? (·.id = id) with
  | some s => .ok s
  | none => .error (.noStatement id)

/-- The place behind a statement, or at the top. -/
def placeAfter (statements : List Statement) : Option StatementId → Except Cause Nat
  | some id => (position statements id).map (· + 1)
  | none => .ok 0

/-- The statements with the first one of an identity changed. -/
def replace (statements : List Statement) (id : StatementId) (s : Statement) : List Statement :=
  match statements with
  | [] => []
  | t :: rest => if t.id = id then s :: rest else t :: replace rest id s

/-! ## New lines -/

/-- The line is no block structure. -/
def rejectHeader (text : Text) : Except Cause Unit :=
  if (Line.classify Line.commentMarks text).directive.isHeader then
    .error (.blockStructure (Text.trim text))
  else .ok ()

/-- The first identity of a text, from an ordinal on, that no statement has. Among the identities
for one more ordinals than there are statements one is free, unless two are the same. -/
def freeId (statements : List Statement) (file text : Text) : (tries ordinal : Nat) → StatementId
  | 0, ordinal => .compute file text ordinal
  | tries + 1, ordinal =>
    let id := StatementId.compute file text ordinal
    if statements.all (·.id ≠ id) then id else freeId statements file text tries (ordinal + 1)

/-- The identity of a new line. -/
def freshId (statements : List Statement) (file text : Text) : StatementId :=
  freeId statements file text (statements.length + 1)
    (statements.countP fun s => s.raw = Text.trim text)

/-- The new statement at a place: without a scope of its own it gets that of its predecessor. -/
def newStatement (statements : List Statement) (file text : Text) (scope : Option ScopeList)
    (index : Nat) : Statement :=
  let before := if index = 0 then none else statements[index - 1]?
  let scope := match scope, before with
    | some l, _ => ScopeList.withGlobal l
    | none, some p => p.scope
    | none, none => ScopeList.global
  let line := match before with
    | some p => p.line
    | none => 0
  Statement.ofText (freshId statements file text) text scope file line

/-! ## Applying and taking back -/

/-- The comment of a statement. -/
def commented (s : Statement) : Except Cause Statement :=
  if s.kind = .comment then .error (.alreadyComment s.id)
  else if !s.isContent then .error (.nothingToComment s.id)
  else .ok (s.withText ("! " ++ s.raw))

/-- The statement of a comment. -/
def uncommented (s : Statement) : Except Cause Statement :=
  if s.kind ≠ .comment then .error (.noComment s.id)
  else
    let text := Text.trim (s.raw.dropWhile fun c => c = '!' || c = '#')
    (rejectHeader text).map fun () => s.withText text

/-- The statement with another value. -/
def updated (s : Statement) (value : Text) : Except Cause Statement :=
  match s.command with
  | some command => .ok (s.withText (Statement.compose command (some value) s.comment))
  | none => .error (.noCommand s.id)

/-- The statements with the one of an identity changed. -/
def change (statements : List Statement) (id : StatementId)
    (f : Statement → Except Cause Statement) : Except Cause (List Statement × Undo) := do
  let previous ← lookup statements id
  let s ← f previous
  return (replace statements id s, .restore previous)

/-- The statements after an edit, and what takes it back. New identities are made with the name of
the file. -/
def apply (statements : List Statement) (file : Text) : Edit →
    Except Cause (List Statement × Undo)
  | commentOut id => change statements id commented
  | uncomment id => change statements id uncommented
  | changeScope id scope =>
    change statements id fun s => .ok { s with scope := ScopeList.withGlobal scope }
  | updateValue id value => change statements id fun s => updated s value
  | insert after text scope => do
    rejectHeader text
    let index ← placeAfter statements after
    let s := newStatement statements file text scope index
    return (statements.insertIdx index s, .delete s.id)
  | remove id => do
    let index ← position statements id
    let previous ← lookup statements id
    let after := if index = 0 then none else statements[index - 1]?
    return (statements.eraseIdx index, .reinsert (after.map (·.id)) previous)

end Edit

/-- The statements with an edit taken back. -/
def Undo.apply (statements : List Statement) : Undo → Except Cause (List Statement)
  | restore previous => do
    let _ ← Edit.lookup statements previous.id
    return Edit.replace statements previous.id previous
  | reinsert after previous => do
    let index ← Edit.placeAfter statements after
    return statements.insertIdx index previous
  | delete id => do
    let index ← Edit.position statements id
    return statements.eraseIdx index

/-- A control file and the edits made to it, the latest first. -/
structure Session where
  file : ControlFile
  history : List (Edit × Undo)

namespace Session

/-- The session before any edit. -/
def start (file : ControlFile) : Session := ⟨file, []⟩

/-- The session after an edit, and what takes it back. -/
def apply (s : Session) (edit : Edit) : Except Fault (Session × Undo) :=
  match edit.apply s.file.statements s.file.path.fileName with
  | .ok (statements, undo) =>
    .ok (⟨{ s.file with statements }, (edit, undo) :: s.history⟩, undo)
  | .error cause => .error (.ofEdit cause)

/-- The session with the latest edit taken back. -/
def undo (s : Session) : Except Fault Session :=
  match s.history with
  | [] => .error (.ofEdit .nothingToUndo)
  | (_, undo) :: history =>
    match undo.apply s.file.statements with
    | .ok statements => .ok ⟨{ s.file with statements }, history⟩
    | .error cause => .error (.ofEdit cause)

/-- The edits made, the earliest first. -/
def edits (s : Session) : List Edit := s.history.reverse.map (·.1)

end Session

end ControlFiles
