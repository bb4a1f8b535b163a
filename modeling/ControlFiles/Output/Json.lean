import ControlFiles.Number.Shortest
import ControlFiles.Text.Basic

/-!
# JSON

Values in the notation that other programs read, on one line or spread over several with two blanks
for each level. The fields of an object stand in the order they are given in.
-/

namespace ControlFiles

mutual

/-- A value of the notation. -/
inductive JsonValue where
  | null
  | text (t : Text)
  /-- A number, by its numeral. -/
  | number (numeral : Text)
  | list (items : List JsonValue)
  | object (fields : List JsonField)

/-- A named value inside an object. -/
inductive JsonField where
  | mk (name : Text) (value : JsonValue)

end

namespace JsonValue

/-- A natural number. -/
def nat (n : Nat) : JsonValue := number (Text.decimal n)

/-- A double; what is no finite number is null. -/
def float (x : Binary64) : JsonValue := if x.isFinite then number x.text else null

/-- A list of texts. -/
def texts (ts : List Text) : JsonValue := list (ts.map text)

/-- A character inside quotes. Control characters are escaped. -/
def escape (c : Char) : Text :=
  match c with
  | '"' => "\\\""
  | '\\' => "\\\\"
  | '\x08' => "\\b"
  | '\x0c' => "\\f"
  | '\n' => "\\n"
  | '\r' => "\\r"
  | '\t' => "\\t"
  | c =>
    if c.toNat < 0x20 then
      "\\u00" ++ [Nat.digitChar (c.toNat / 16), Nat.digitChar (c.toNat % 16)]
    else [c]

/-- The text in quotes. -/
def quoted (t : Text) : Text := "\"" ++ t.flatMap escape ++ "\""

/-- The start of a new line at a level. -/
def lineStart (level : Nat) : Text := '\n' :: List.replicate (2 * level) ' '

mutual

/-- The value on one line, without blanks. -/
def compact : JsonValue → Text
  | null => "null"
  | text t => quoted t
  | number numeral => numeral
  | list [] => "[]"
  | list (x :: xs) => "[" ++ compact x ++ compactItems xs ++ "]"
  | object [] => "\x7b\x7d"
  | object (.mk name x :: fields) =>
    "\x7b" ++ quoted name ++ ":" ++ compact x ++ compactFields fields ++ "\x7d"

def compactItems : List JsonValue → Text
  | [] => []
  | x :: xs => "," ++ compact x ++ compactItems xs

def compactFields : List JsonField → Text
  | [] => []
  | .mk name x :: fields => "," ++ quoted name ++ ":" ++ compact x ++ compactFields fields

end

mutual

/-- The value over several lines, its first line at a level. -/
def pretty (level : Nat) : JsonValue → Text
  | null => "null"
  | text t => quoted t
  | number numeral => numeral
  | list [] => "[]"
  | list (x :: xs) =>
    "[" ++ lineStart (level + 1) ++ pretty (level + 1) x ++ prettyItems (level + 1) xs
      ++ lineStart level ++ "]"
  | object [] => "\x7b\x7d"
  | object (.mk name x :: fields) =>
    "\x7b" ++ lineStart (level + 1) ++ quoted name ++ ": " ++ pretty (level + 1) x
      ++ prettyFields (level + 1) fields ++ lineStart level ++ "\x7d"

def prettyItems (level : Nat) : List JsonValue → Text
  | [] => []
  | x :: xs => "," ++ lineStart level ++ pretty level x ++ prettyItems level xs

def prettyFields (level : Nat) : List JsonField → Text
  | [] => []
  | .mk name x :: fields =>
    "," ++ lineStart level ++ quoted name ++ ": " ++ pretty level x ++ prettyFields level fields

end

/-- The object with the given fields. -/
def ofFields (fields : List (Text × JsonValue)) : JsonValue :=
  object (fields.map fun (name, value) => .mk name value)

end JsonValue

end ControlFiles
