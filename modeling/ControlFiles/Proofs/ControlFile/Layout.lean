import ControlFiles.Proofs.Block.Outline

/-!
# How lines are laid out

`Layout.ofLines` says how the lines of a file are written, one by one: each is indented by the
number of blocks that are open around it, and the header of a branch and the line that closes a
block stand as deep as the line that opens it. `Outline.text` says the same along the outline of the
lines (`Layout.ofLines_lines`).
-/

namespace ControlFiles

/-- The line is blank: it is no block structure, and has neither a command nor a comment. -/
def Line.isBlankLine (l : Line) : Bool :=
  l.directive = .none && l.command.isNone && l.comment.isNone

/-- The line inside `depth` blocks. A blank line comes out empty. -/
def Line.written (depth : Nat) (l : Line) : Text :=
  if l.isBlankLine then [] else Layout.indent depth l.text

theorem Line.written_of_header {l : Line} (depth : Nat) (h : l.directive ≠ .none) :
    l.written depth = Layout.indent depth l.text := by
  simp [written, isBlankLine, h]

/-- The lines of a file, of which the first stands inside `depth` blocks. -/
def Layout.ofLines : Nat → List Line → List Text
  | _, [] => []
  | depth, l :: rest =>
    match l.directive with
    | .opening _ => l.written depth :: ofLines (depth + 1) rest
    | .elseIf _ | .otherwise => l.written (depth - 1) :: ofLines depth rest
    | .close _ => l.written (depth - 1) :: ofLines (depth - 1) rest
    | .none | .malformed _ => l.written depth :: ofLines depth rest

mutual

/-- The lines of an outline inside `depth` blocks. -/
def Outline.text (depth : Nat) : Outline → List Text
  | .nil => []
  | .line l rest => l.line.written depth :: rest.text depth
  | .block head first more close rest =>
    head.line.written depth :: (first.text (depth + 1) ++
      (more.text depth ++ close.line.written depth :: rest.text depth))

/-- The lines of some branches of a block inside `depth` others. -/
def Branches.text (depth : Nat) : Branches → List Text
  | .nil => []
  | .branch head body more => head.line.written depth :: (body.text (depth + 1) ++ more.text depth)

end

namespace Layout

theorem length_ofLines (depth : Nat) (ls : List Line) : (ofLines depth ls).length = ls.length := by
  induction ls generalizing depth with
  | nil => rfl
  | cons l ls ih =>
    rw [ofLines]
    split <;> rw [List.length_cons, List.length_cons, ih]

theorem ofLines_content (depth : Nat) (l : ContentLine) (rest : List Line) :
    ofLines depth (l.line :: rest) = l.line.written depth :: ofLines depth rest := by
  rw [ofLines, l.plain]

theorem ofLines_opening (depth : Nat) (l : OpeningLine) (rest : List Line) :
    ofLines depth (l.line :: rest) = l.line.written depth :: ofLines (depth + 1) rest := by
  rw [ofLines, l.opens]

theorem ofLines_branch (depth : Nat) (l : BranchLine) (rest : List Line) :
    ofLines (depth + 1) (l.line :: rest) = l.line.written depth :: ofLines (depth + 1) rest := by
  rw [ofLines, l.branches]
  cases l.header? <;> rfl

theorem ofLines_closing (depth : Nat) (l : ClosingLine) (rest : List Line) :
    ofLines (depth + 1) (l.line :: rest) = l.line.written depth :: ofLines depth rest := by
  rw [ofLines, l.closes]
  rfl

mutual

/-- The lines of an outline are laid out as the outline is. -/
theorem ofLines_lines_append : ∀ (t : Outline) (depth : Nat) (rest : List Line),
    ofLines depth (t.lines ++ rest) = t.text depth ++ ofLines depth rest
  | .nil, _, _ => rfl
  | .line l t, depth, rest => by
    rw [Outline.lines, List.cons_append, ofLines_content, ofLines_lines_append t depth rest]
    rfl
  | .block head first more close t, depth, rest => by
    simp only [Outline.lines, Outline.text, List.cons_append, List.append_assoc, ofLines_opening,
      ofLines_lines_append first, ofLines_branches_append more, ofLines_closing,
      ofLines_lines_append t]

theorem ofLines_branches_append : ∀ (t : Branches) (depth : Nat) (rest : List Line),
    ofLines (depth + 1) (t.lines ++ rest) = t.text depth ++ ofLines (depth + 1) rest
  | .nil, _, _ => rfl
  | .branch head body more, depth, rest => by
    simp only [Branches.lines, Branches.text, List.cons_append, List.append_assoc, ofLines_branch,
      ofLines_lines_append body, ofLines_branches_append more]

end

theorem ofLines_lines (t : Outline) (depth : Nat) : ofLines depth t.lines = t.text depth := by
  have h := ofLines_lines_append t depth []
  rwa [List.append_nil, ofLines, List.append_nil] at h

end Layout

end ControlFiles
