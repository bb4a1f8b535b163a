import ControlFiles.Text.Basic
import ControlFiles.Text.CaseTable

/-!
# Lower case beyond ASCII

`Text.lowerAll` puts a whole text into lower case, all scripts included. It is what two paths are
compared under; names are compared by `Text.alike`, which knows ASCII letters only. A capital
sigma becomes the final form at the end of a word and the ordinary one elsewhere; a capital I with
a dot keeps its dot as a combining mark.
-/

namespace ControlFiles

/-- The code point lies in one of the ranges. -/
def inRanges (ranges : List (Nat × Nat)) (c : Char) : Bool :=
  ranges.any fun (first, last) => first ≤ c.toNat && c.toNat ≤ last

/-- A letter that has case. -/
def isCased (c : Char) : Bool := inRanges CaseTable.casedRanges c

/-- A mark that does not count when the neighbours of a letter are looked for. -/
def isCaseIgnorable (c : Char) : Bool := inRanges CaseTable.ignorableRanges c

/-- The lower case of a single character, where that is a single character. -/
def lowerShift (c : Char) : Char :=
  let n := c.toNat
  match CaseTable.lowerShifts.find? fun (first, last, step, _) =>
      first ≤ n && n ≤ last && (n - first) % step = 0 with
  | some (_, _, _, shift) => Char.ofNat ((n : Int) + shift).toNat
  | none => c

/-- The lower case of a character, wherever it stands. -/
def lowerChar (c : Char) : Text :=
  if c.toNat < 0x80 then [c.toLower]
  else if c.toNat = 0x130 then ['i', Char.ofNat 0x307]
  else [lowerShift c]

namespace Text

/-- The first character that counts has case. -/
def meetsCased (t : Text) : Bool :=
  match t.dropWhile isCaseIgnorable with
  | c :: _ => isCased c
  | [] => false

/-- The lower case of what follows, where `before` are the characters in front of it, the nearest
first. -/
def lowerAfter (before : Text) : Text → Text
  | [] => []
  | c :: rest =>
    let low :=
      if c.toNat = 0x3A3 then
        [if meetsCased before && !meetsCased rest then Char.ofNat 0x3C2 else Char.ofNat 0x3C3]
      else lowerChar c
    low ++ lowerAfter (c :: before) rest

/-- The text in lower case, all scripts included. -/
def lowerAll (t : Text) : Text := lowerAfter [] t

end Text

end ControlFiles
