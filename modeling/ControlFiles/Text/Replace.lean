import ControlFiles.Text.Basic

/-!
# Replacing

Every occurrence of a text, in whatever case, is replaced: the occurrences are taken from the left,
and one that overlaps an occurrence already taken does not count.
-/

namespace ControlFiles.Text

/-- The text starts with `start`, in whatever case. -/
def startsAlike (start t : Text) : Bool := alike start (t.take start.length)

/-- The rest of a text with the occurrences of `old` replaced; its first `skip` characters belong
to an occurrence that is already taken. -/
def replaceFrom (old new : Text) : (skip : Nat) → Text → Text
  | _, [] => []
  | skip + 1, _ :: rest => replaceFrom old new skip rest
  | 0, c :: rest =>
    if startsAlike old (c :: rest) then new ++ replaceFrom old new (old.length - 1) rest
    else c :: replaceFrom old new 0 rest

/-- The text with every occurrence of `old` replaced by `new`. The empty text does not occur. -/
def replaceAlike (old new t : Text) : Text :=
  if old.isEmpty then t else replaceFrom old new 0 t

end ControlFiles.Text
