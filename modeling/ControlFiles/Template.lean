import ControlFiles.Text.Basic

/-!
# Templates

A text may hold wildcard tokens `<<NAME>>`: a user variable, or `<<~s2~>>`, the second scenario of
the run, or `<<~e1~>>`, its first event; `<<~s~>>` and `<<~e~>>` are other spellings of the first.
`Template.ofText` cuts a text into plain characters and tokens, leftmost token first, and spells
the bare axis tokens with their index, so that no later step meets both spellings of one token.
Everything else here is a map over the pieces.
-/

namespace ControlFiles

/-- The two lists of names that a run chooses from. -/
inductive Axis where
  | scenario
  | event
  deriving DecidableEq, Repr

/-- A wildcard token, by the name between its brackets. -/
structure Token where
  name : Text
  deriving DecidableEq, Repr

namespace Token

/-- The token as written. -/
def text (t : Token) : Text := "<<" ++ t.name ++ ">>"

/-- Two tokens have the same name, in whatever case. -/
def same (s t : Token) : Bool := Text.alike s.name t.name

/-- A letter that stands for an axis in a token: `s` or `e` in either case. The long s counts as a
variant of `s` when letters are compared without their case. -/
def isAxisLetter (c : Char) : Bool :=
  c = 's' || c = 'S' || c = 'e' || c = 'E' || c.toNat = 0x17F

/-- The axis that a letter stands for. Only the letters `s` and `S` name the scenarios. -/
def axisOf (c : Char) : Axis := if c.toLower = 's' then .scenario else .event

/-- The token with its index spelled out, if it is an axis token without one. -/
def normalize (t : Token) : Token :=
  match t.name with
  | ['~', c, '~'] => if isAxisLetter c then ⟨['~', c.toLower, '1', '~']⟩ else t
  | _ => t

/-- The axis and the index that an axis token selects. An index has decimal digits and fits in
64 bits. -/
def axis? (t : Token) : Option (Axis × Nat) :=
  match t.name with
  | '~' :: c :: rest =>
    if isAxisLetter c && rest.getLast? = some '~' then
      match Text.number? rest.dropLast with
      | some n => if n < Text.numberLimit then some (axisOf c, n) else none
      | none => none
    else none
  | _ => none

/-- The name under which the value of an axis token is kept. -/
def axisKey : Axis → Nat → Text
  | .scenario, n => "~S" ++ Text.decimal n ++ "~"
  | .event, n => "~E" ++ Text.decimal n ++ "~"

end Token

/-- A unit of a template. -/
inductive Piece where
  | plain (c : Char)
  | token (t : Token)
  deriving DecidableEq, Repr

/-- A text cut into plain characters and tokens. -/
abbrev Template := List Piece

namespace Template

/-- The name of the token that the text starts with: the longest run without brackets between two
opening and two closing ones. -/
def tokenAt? : Text → Option Text
  | '<' :: '<' :: rest =>
    let name := rest.takeWhile fun c => c ≠ '<' && c ≠ '>'
    if !name.isEmpty && Text.startsWith ">>" (rest.drop name.length) then some name else none
  | _ => none

/-- The pieces of the rest of a text, of which the first `skip` characters belong to a token that
is already taken. -/
def scan : Nat → Text → Template
  | _, [] => []
  | skip + 1, _ :: rest => scan skip rest
  | 0, c :: rest =>
    match tokenAt? (c :: rest) with
    | some name => .token ⟨name⟩ :: scan (name.length + 3) rest
    | none => .plain c :: scan 0 rest

/-- The piece with its token's index spelled out. -/
def normalizePiece : Piece → Piece
  | .plain c => .plain c
  | .token t => .token t.normalize

/-- The template that a text writes. -/
def ofText (t : Text) : Template := (scan 0 t).map normalizePiece

/-- The text of a piece. -/
def pieceText : Piece → Text
  | .plain c => [c]
  | .token t => t.text

/-- The text of a template. -/
def text (t : Template) : Text := t.flatMap pieceText

/-- The token of a piece, if it is one. -/
def token? : Piece → Option Token
  | .plain _ => none
  | .token t => some t

/-- The list with a token added, unless it has one of that name. -/
def addToken (tokens : List Token) (t : Token) : List Token :=
  if tokens.any (·.same t) then tokens else tokens ++ [t]

/-- The distinct tokens of a template, in the order of their first appearance. -/
def tokens (t : Template) : List Token := (t.filterMap token?).foldl addToken []

end Template

namespace Text

/-- The text with the bare axis tokens spelled with their index. -/
def normalizeTokens (t : Text) : Text := (Template.ofText t).text

/-- The text holds a token. -/
def hasTokens (t : Text) : Bool := (Template.ofText t).any fun p => (Template.token? p).isSome

/-- The distinct tokens of a text, in the order of their first appearance. -/
def tokens (t : Text) : List Token := (Template.ofText t).tokens

end Text

end ControlFiles
