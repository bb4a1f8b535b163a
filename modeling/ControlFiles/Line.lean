import ControlFiles.Kind
import ControlFiles.Scope

/-!
# Lines

A control file is read line by line. A line is `Command == value ! comment`, each part optional; it
is taken apart once, and its command decides whether it is block structure (`Line.directive`) or a
statement, and of which kind (`Line.statementKind`).

A command that begins like a header but cannot be read as one is a malformed header, never a
statement.
-/

namespace ControlFiles

/-- Why a header cannot be read. -/
inductive HeaderFlaw where
  /-- `If` or `Else If` with an unknown kind. -/
  | unknownConditional (rest : Text)
  /-- A conditional without names. -/
  | noNames (kind : ScopeKind)
  /-- A `Define` without a name. -/
  | noName (command : Text)
  deriving DecidableEq, Repr

/-- The wording of a flaw. -/
def HeaderFlaw.message : HeaderFlaw → Text
  | unknownConditional rest => "unknown conditional '" ++ rest ++ "'"
  | noNames kind => "'" ++ kind.label ++ "' block has no names"
  | noName command => "'" ++ command ++ "' block has no name"

/-- What a header asks for: the kind of its block, the list of names as written, and the qualifier
of the kinds that have one. -/
structure Header where
  kind : ScopeKind
  names : Text
  qualifier : Option Text
  deriving DecidableEq, Repr

/-- The block structure that a line carries. -/
inductive Directive where
  /-- An ordinary statement. -/
  | none
  | opening (header : Header)
  | elseIf (header : Header)
  | otherwise
  | close (closing : Closing)
  | malformed (flaw : HeaderFlaw)
  deriving DecidableEq, Repr

/-- A line, taken apart. -/
structure Line where
  /-- The line without the blanks around it. -/
  text : Text
  command : Option Text
  value : Option Text
  comment : Option Text
  directive : Directive
  deriving DecidableEq, Repr

/-- The command in lower case, its words set apart by single blanks. -/
def commandKey (command : Text) : Text := Text.lower (Text.join " " (Text.words command))

namespace Directive

/-- The words of a condition: what it asks about, and for a variable its name. -/
def conditionKind? : List Text → Option (ScopeKind × Option Text)
  | [word] =>
    if Text.alike word "scenario" then some (.scenario, Option.none)
    else if Text.alike word "event" then some (.event, Option.none)
    else Option.none
  | [word, name] =>
    if Text.alike word "variable" then some (.userVariable, some name) else Option.none
  | _ => Option.none

/-- The header of a condition, from the words after `If` and the value of the line. -/
def condition (words : List Text) (value : Option Text) : Except HeaderFlaw Header :=
  match conditionKind? words, value with
  | Option.none, _ => .error (.unknownConditional (Text.join " " words))
  | some (kind, _), Option.none => .error (.noNames kind)
  | some (kind, qualifier), some names => .ok ⟨kind, names, qualifier⟩

/-- The header of a definition, from the words after `Define`. -/
def definition (words : List Text) (names : Text) : Header :=
  let label := Text.join " " words
  let key := Text.lower label
  if key = "event" then ⟨.eventVariable, names, Option.none⟩
  else if key = "output zone" || key = "map output zone" then ⟨.outputZone, names, Option.none⟩
  else ⟨.controlBlock, names, some label⟩

/-- The directive of a command, from its words and the value of the line. -/
def ofWords (command : Text) (words : List Text) (value : Option Text) : Directive :=
  match words.map Text.lower with
  | key :: keys =>
    if keys = [] && key = "else" then .otherwise
    else if key = "end" && keys = [("if" : Text)] then .close .endIf
    else if key = "end" && keys = [("define" : Text)] then .close .endDefine
    else if key = "end" && keys = [("1d" : Text), "domain"] then .close .endDomain
    else if key = "start" && keys = [("1d" : Text), "domain"] then
      .opening ⟨.oneDimDomain, [], Option.none⟩
    else if key = "else" && keys.head? = some ("if" : Text) && 1 < keys.length then
      match condition (words.drop 2) value with
      | .ok header => .elseIf header
      | .error flaw => .malformed flaw
    else if key = "if" && keys ≠ [] then
      match condition (words.drop 1) value with
      | .ok header => .opening header
      | .error flaw => .malformed flaw
    else if key = "define" && keys ≠ [] then
      match value with
      | some names => .opening (definition (words.drop 1) names)
      | Option.none => .malformed (.noName command)
    else .none
  | [] => .none

/-- The directive of a command and the value of the line. -/
def ofCommand (command : Text) (value : Option Text) : Directive :=
  ofWords command (Text.words command) value

/-- The line is part of block structure. -/
def isHeader (d : Directive) : Bool := d != .none

/-- The kind of the block that a header opens or branches. -/
def blockKind? : Directive → Option ScopeKind
  | .opening header => some header.kind
  | .elseIf header => some header.kind
  | _ => Option.none

end Directive

namespace Line

/-- The characters that start a comment unless others are asked for. -/
def commentMarks : Text := "!#"

/-- The text before the first comment mark, and the comment behind it. -/
def splitComment (marks t : Text) : Text × Option Text :=
  let body := t.takeWhile fun c => !marks.contains c
  match t.drop body.length with
  | [] => (body, none)
  | _ :: comment => (body, some (Text.trim comment))

/-- The command before the first `==`, and the value behind it if there is one. -/
def splitValue (body : Text) : Option Text × Option Text :=
  match Text.cut? "==" body with
  | some (command, value) =>
    (Text.nonempty? (Text.trim command), Text.nonempty? (Text.trim value))
  | none => (Text.nonempty? (Text.trim body), none)

/-- The line taken apart, with the given comment marks. -/
def classify (marks line : Text) : Line :=
  let text := Text.trim line
  let (body, comment) := splitComment marks text
  let (command, value) := splitValue body
  let directive :=
    match command with
    | some c => Directive.ofCommand c value
    | none => .none
  { text, command, value, comment, directive }

/-- The line is empty. -/
def isEmpty (l : Line) : Bool := l.text.isEmpty

/-- The name that `Set Variable NAME` sets. -/
def variableName? (command : Text) : Option Text :=
  match Text.words command with
  | [first, second, name] =>
    if Text.alike first "set" && Text.alike second "variable" then some name else none
  | _ => none

/-- The name and the value of a variable assignment. -/
def assignment? (command value : Option Text) : Option (Text × Text) :=
  (command.bind variableName?).map fun name => (name, value.getD [])

/-- The commands whose value is a folder. -/
def folderCommands : List Text := ["output folder", "write check files", "log folder"]

/-- The kind of a statement with a command, from the key of the command and the value in lower
case. -/
def kindOfCommand (key value : Text) : StatementKind :=
  match FileKind.ofCommand? key with
  | some kind =>
    if kind ≠ .trd || Text.endsWith ".trd" value then .controlFileReference kind else .setting
  | none =>
    if Text.occurs "database" key then .databaseReference
    else if (key = "read materials file" || key = "read soils file")
        && (Text.endsWith ".csv" value || Text.endsWith ".tsoilf" value) then .databaseReference
    else if Text.startsWith "read gis" key || Text.startsWith "read mi" key then .gisReference
    else if Text.startsWith "read grid" key || Text.startsWith "read tin" key then .gridReference
    else if folderCommands.contains key then .folderReference
    else .setting

/-- The kind of the statement on a line that is no block structure. -/
def statementKind (l : Line) : StatementKind :=
  match l.command with
  | some command => kindOfCommand (commandKey command) (Text.lower (l.value.getD []))
  | none => if l.comment.isSome then .comment else .blank

end Line

end ControlFiles
