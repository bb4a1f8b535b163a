import ControlFiles.Text.Basic

/-!
# The tokens of a profile

A profile is written in TOML. Its text is cut into line ends, bare words, strings and marks; blanks
and comments are dropped. A string is in double quotes, with escapes, or in single quotes, without;
with three quotes at each end it may hold line ends. Text that no profile can hold is no token: the
numbers, dates and signs of the notation among it.
-/

namespace ControlFiles

namespace Profile

/-- A token of a profile. -/
inductive Token where
  | newline
  /-- A key without quotes. -/
  | word (t : Text)
  /-- A string; a long one, with three quotes, is no key. -/
  | string (t : Text) (long : Bool)
  /-- One of `= . , [ ] { }`. -/
  | mark (c : Char)
  deriving DecidableEq, Repr

namespace Token

/-- The character may stand in no string and no comment. -/
def isControl (c : Char) : Bool := (c.toNat < 0x20 && c ≠ '\t') || c.toNat = 0x7F

/-- The character may stand in a key without quotes. -/
def isWordChar (c : Char) : Bool := c.isAlphanum || c = '_' || c = '-'

/-- The characters that are tokens of their own. -/
def marks : Text := "=.,[]{}"

/-! ## Escapes -/

/-- The value of a hexadecimal digit. -/
def hexDigit? (c : Char) : Option Nat :=
  if c.isDigit then some (c.toNat - '0'.toNat)
  else if 'a' ≤ c && c ≤ 'f' then some (c.toNat - 'a'.toNat + 10)
  else if 'A' ≤ c && c ≤ 'F' then some (c.toNat - 'A'.toNat + 10)
  else none

/-- The character whose code point has exactly `n` hexadecimal digits at the front of a text. -/
def codePoint? (n : Nat) (t : Text) : Option Char :=
  let digits := t.take n
  match digits.mapM hexDigit? with
  | none => none
  | some values =>
    let code := values.foldl (fun acc d => 16 * acc + d) 0
    if digits.length = n && code.isValidChar then some (Char.ofNat code) else none

/-- The character that the text after a backslash stands for, and its length. -/
def escape? : Text → Option (Char × Nat)
  | 'b' :: _ => some ('\x08', 1)
  | 't' :: _ => some ('\t', 1)
  | 'n' :: _ => some ('\n', 1)
  | 'f' :: _ => some ('\x0c', 1)
  | 'r' :: _ => some ('\r', 1)
  | '"' :: _ => some ('"', 1)
  | '\\' :: _ => some ('\\', 1)
  | 'u' :: rest => (codePoint? 4 rest).map (·, 5)
  | 'U' :: rest => (codePoint? 8 rest).map (·, 9)
  | _ => none

/-- The number of blanks and line ends at the front of a text, in characters. -/
def blankLength : Text → Nat
  | '\r' :: '\n' :: rest => blankLength rest + 2
  | c :: rest => if c = ' ' || c = '\t' || c = '\n' then blankLength rest + 1 else 0
  | [] => 0

/-- How many characters a line end after a backslash joins: the blanks before it, and all blanks
and line ends after it. -/
def joined? (t : Text) : Option Nat :=
  let before := t.takeWhile fun c => c = ' ' || c = '\t'
  let rest := t.drop before.length
  if Text.startsWith "\n" rest || Text.startsWith "\r\n" rest then some (blankLength t) else none

/-! ## Strings -/

/-- A string on one line, from behind its first quote: its content and what follows it. The first
`skip` characters belong to an escape that is already read. -/
def line? (quote : Char) : (skip : Nat) → Text → Option (Text × Text)
  | _, [] => none
  | skip + 1, _ :: rest => line? quote skip rest
  | 0, c :: rest =>
    if c = quote then some ([], rest)
    else if c = '\\' && quote = '"' then
      match escape? rest with
      | some (d, n) => (line? quote n rest).map fun (t, after) => (d :: t, after)
      | none => none
    else if isControl c then none
    else (line? quote 0 rest).map fun (t, after) => (c :: t, after)

/-- A string of several lines, from behind its first three quotes. Three quotes end it; up to two
more before them belong to it. -/
def block? (quote : Char) : (skip : Nat) → Text → Option (Text × Text)
  | _, [] => none
  | skip + 1, _ :: rest => block? quote skip rest
  | 0, c :: rest =>
    let quotes := ((c :: rest).takeWhile (· = quote)).length
    if 3 ≤ quotes then
      let n := min quotes 5
      some (List.replicate (n - 3) quote, (c :: rest).drop n)
    else if c = '\\' && quote = '"' then
      match joined? rest, escape? rest with
      | some n, _ => block? quote n rest
      | none, some (d, n) => (block? quote n rest).map fun (t, after) => (d :: t, after)
      | none, none => none
    else if c = '\r' then
      if Text.startsWith "\n" rest then block? quote 0 rest else none
    else if c ≠ '\n' && isControl c then none
    else (block? quote 0 rest).map fun (t, after) => (c :: t, after)

/-- The text without the line end that it starts with. -/
def dropLineEnd : Text → Text
  | '\n' :: rest => rest
  | '\r' :: '\n' :: rest => rest
  | t => t

/-- The string token whose first quote is already read, and what follows it. -/
def string? (quote : Char) (t : Text) : Option (Token × Text) :=
  match t with
  | a :: b :: rest =>
    if a = quote && b = quote then
      (block? quote 0 (dropLineEnd rest)).map fun (s, after) => (string s true, after)
    else (line? quote 0 t).map fun (s, after) => (string s false, after)
  | _ => (line? quote 0 t).map fun (s, after) => (string s false, after)

/-! ## Tokens -/

/-- The tokens of a text. Every step takes at least one character, so as many steps as there are
characters are enough. -/
def allOf : (steps : Nat) → Text → Option (List Token)
  | _, [] => some []
  | 0, _ :: _ => none
  | steps + 1, c :: rest =>
    if c = ' ' || c = '\t' then allOf steps rest
    else if c = '\n' then (allOf steps rest).map (newline :: ·)
    else if c = '\r' then if Text.startsWith "\n" rest then allOf steps rest else none
    else if c = '#' then
      let comment := rest.takeWhile fun d => d ≠ '\n' && d ≠ '\r'
      if comment.any isControl then none else allOf steps (rest.drop comment.length)
    else if c = '"' || c = '\'' then
      match string? c rest with
      | some (token, after) => (allOf steps after).map (token :: ·)
      | none => none
    else if isWordChar c then
      let more := rest.takeWhile isWordChar
      (allOf steps (rest.drop more.length)).map (word (c :: more) :: ·)
    else if marks.contains c then (allOf steps rest).map (mark c :: ·)
    else none

/-- The tokens of the text of a profile. A byte order mark before it is dropped. -/
def all (t : Text) : Option (List Token) :=
  let t := if t.head? = some '\uFEFF' then t.drop 1 else t
  allOf t.length t

end Token

end Profile

end ControlFiles
