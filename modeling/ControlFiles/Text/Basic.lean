import ControlFiles.Text.Blank

/-!
# Text

A text is the list of its characters. This module holds the ways a line is taken apart and put
together again: trimming, cutting into words, cutting at a separator, joining, and comparison that
ignores the case of ASCII letters.

Everything is defined by recursion on the characters, so that a statement about a text can be
proved by induction on it.
-/

namespace ControlFiles

/-- A text: its characters in order. -/
abbrev Text := List Char

/-- A literal can stand where a text is wanted. -/
instance : Coe String Text := ⟨String.toList⟩

namespace Text

/-! ## Trimming -/

/-- The text without the blanks it starts with. -/
def trimStart (t : Text) : Text := t.dropWhile isBlank

/-- The text without the blanks it ends with. -/
def trimEnd (t : Text) : Text := (t.reverse.dropWhile isBlank).reverse

/-- The text without the blanks around it. -/
def trim (t : Text) : Text := trimEnd (trimStart t)

/-- The text, or nothing when it is empty. -/
def nonempty? (t : Text) : Option Text := if t.isEmpty then none else some t

/-! ## Cutting and joining -/

/-- The maximal runs of characters that are no blanks. -/
def words : Text → List Text
  | [] => []
  | c :: rest =>
    if isBlank c then words rest
    else
      match rest, words rest with
      | d :: _, w :: ws => if isBlank d then [c] :: w :: ws else (c :: w) :: ws
      | _, ws => [c] :: ws

/-- The parts between the separators; there is always one more part than separators. -/
def split (sep : Char) : Text → List Text
  | [] => [[]]
  | c :: rest =>
    if c = sep then [] :: split sep rest
    else
      match split sep rest with
      | [] => [[c]]
      | part :: parts => (c :: part) :: parts

/-- What stands before and after the first occurrence of `mark`. -/
def cut? (mark : Text) : Text → Option (Text × Text)
  | [] => if mark.isEmpty then some ([], []) else none
  | c :: rest =>
    if mark.isPrefixOf (c :: rest) then some ([], (c :: rest).drop mark.length)
    else (cut? mark rest).map fun (before, after) => (c :: before, after)

/-- The parts, with `sep` between neighbours. -/
def join (sep : Text) (parts : List Text) : Text := sep.intercalate parts

/-- The alternatives of an OR-list `A | B | C`: trimmed, empty ones left out. -/
def alternatives (t : Text) : List Text :=
  ((split '|' t).map trim).filter fun part => !part.isEmpty

/-- A line without the carriage return that may stand before its line feed. -/
def dropReturn (line : Text) : Text :=
  if line.getLast? = some '\r' then line.dropLast else line

/-- The lines of a text. A line feed ends a line, with the carriage return before it; what follows
the last line feed is a line when it is not empty, and is taken as it stands. -/
def lines (t : Text) : List Text :=
  match (split '\n' t).reverse with
  | [] => []
  | last :: ended => ended.reverse.map dropReturn ++ (nonempty? last).toList

/-- The text with every `old` replaced by `new`. -/
def replaceChar (old new : Char) (t : Text) : Text :=
  t.map fun c => if c = old then new else c

/-- The text with backslashes turned into slashes, the one separator of paths here. -/
def slashed (t : Text) : Text := replaceChar '\\' '/' t

/-! ## Case -/

/-- The text with its ASCII letters in lower case. -/
def lower (t : Text) : Text := t.map Char.toLower

/-- The text with its ASCII letters in upper case. -/
def upper (t : Text) : Text := t.map Char.toUpper

/-- Equality that ignores the case of ASCII letters. -/
def alike (s t : Text) : Bool := lower s == lower t

/-- Equality of optional texts that ignores the case of ASCII letters. -/
def alike? : Option Text → Option Text → Bool
  | none, none => true
  | some s, some t => alike s t
  | _, _ => false

/-- The list has the name, in whatever case. -/
def listed (names : List Text) (name : Text) : Bool := names.any (alike · name)

/-- The list followed by the names it does not have yet, in whatever case. -/
def addNew (names : List Text) (new : List Text) : List Text :=
  new.foldl (fun acc name => if listed acc name then acc else acc ++ [name]) names

/-- The text starts with `start`. -/
def startsWith (start t : Text) : Bool := start.isPrefixOf t

/-- The text ends with `ending`. -/
def endsWith (ending t : Text) : Bool := ending.isSuffixOf t

/-- `part` stands somewhere in the text. -/
def occurs (part t : Text) : Bool := (cut? part t).isSome

/-! ## Numerals -/

/-- The decimal digits of a number. -/
def decimal (n : Nat) : Text := Nat.toDigits 10 n

/-- What a number of 64 bits is less than. -/
def numberLimit : Nat := 0x10000000000000000

/-- The number that a text of decimal digits denotes, if there are only such and at least one. -/
def number? (t : Text) : Option Nat :=
  if t.isEmpty || !t.all Char.isDigit then none
  else some (t.foldl (fun n c => 10 * n + (c.toNat - '0'.toNat)) 0)

/-- The bytes of a text in UTF-8. -/
def utf8 (t : Text) : List UInt8 := t.flatMap String.utf8EncodeChar

/-- The text that some bytes are in UTF-8. -/
def ofUtf8? (bytes : List UInt8) : Option Text :=
  (String.fromUTF8? ⟨bytes.toArray⟩).map String.toList

end Text

end ControlFiles
