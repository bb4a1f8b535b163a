/-!
# Arrangements

The ordered choices of `k` elements of a list at distinct positions, in the lexicographic order of
the positions.
-/

namespace ControlFiles.Arrangement

/-- Each element of a list, with the others in their order. -/
def picks {α : Type} : List α → List (α × List α)
  | [] => []
  | x :: xs => (x, xs) :: (picks xs).map fun (y, others) => (y, x :: others)

/-- The ordered choices of `k` elements. -/
def all {α : Type} : Nat → List α → List (List α)
  | 0, _ => [[]]
  | k + 1, xs => (picks xs).flatMap fun (x, others) => (all k others).map (x :: ·)

end ControlFiles.Arrangement
