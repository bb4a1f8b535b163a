import ControlFiles.Proofs.ControlFile.Layout

/-!
# Outlines of which statements are gone

When statements are removed, a branch of which none is left is not written, nor a block of which no
branch is. If the first branches of a block are gone, the block is opened by a header that lists the
names which they used, with nothing in its branch. `Outline.pruned` is the outline of what is
written: `keep` says by their numbers which entries are left.
-/

namespace ControlFiles

/-! ## Numbers of entries -/

mutual

/-- The numbers of the entries of an outline; its first line has the number `n`. -/
def Outline.numbers (n : Nat) : Outline → List Nat
  | .nil => []
  | .line _ rest => n :: rest.numbers (n + 1)
  | .block _ first more _ rest =>
    let next := n + 1 + first.size
    first.numbers (n + 1) ++ ((if first.isNil then [next] else []) ++
      (more.numbers next ++ rest.numbers (next + more.size + 1)))

/-- The numbers of the entries of some branches. -/
def Branches.numbers (n : Nat) : Branches → List Nat
  | .nil => []
  | .branch _ body more =>
    let next := n + 1 + body.size
    body.numbers (n + 1) ++ ((if body.isNil then [next] else []) ++ more.numbers next)

end

/-- The numbers of the entries of a branch with some body. -/
def Outline.branchNumbers (n : Nat) (t : Outline) : List Nat :=
  t.numbers n ++ if t.isNil then [n + t.size] else []

theorem Outline.map_number_placeholder (n : Nat) (path : List Level) (t : Outline) :
    (t.placeholder n path).map Entry.number = if t.isNil then [n] else [] := by
  rw [placeholder]
  split <;> rfl

mutual

theorem Outline.map_number_entries (closes : Closes) : ∀ (t : Outline) (n : Nat)
    (path : List Level), (t.entries closes n path).map Entry.number = t.numbers n
  | .nil, _, _ => rfl
  | .line l rest, n, path => by
    rw [Outline.entries, List.map_cons, Outline.map_number_entries closes rest]
    rfl
  | .block head first more close rest, n, path => by
    simp only [Outline.entries, List.map_append, Outline.map_number_entries closes first,
      Outline.map_number_placeholder, Branches.map_number_entries closes more,
      Outline.map_number_entries closes rest]
    rfl

theorem Branches.map_number_entries (closes : Closes) : ∀ (t : Branches) (block : Nat)
    (q : Question) (seen : List Text) (n : Nat) (path : List Level),
      (t.entries closes block q seen n path).map Entry.number = t.numbers n
  | .nil, _, _, _, _, _ => rfl
  | .branch head body more, block, q, seen, n, path => by
    simp only [Branches.entries, List.map_append, Outline.map_number_entries closes body,
      Outline.map_number_placeholder, Branches.map_number_entries closes more]
    rfl

end

/-- The numbers are in order, from `low` on and below `high`. -/
structure Within (low high : Nat) (numbers : List Nat) : Prop where
  sorted : numbers.Pairwise (· < ·)
  range : ∀ i ∈ numbers, low ≤ i ∧ i < high

namespace Within

theorem nil (low high : Nat) : Within low high [] := ⟨.nil, by simp⟩

theorem singleton (n : Nat) : Within n (n + 1) [n] := ⟨by simp, by simp⟩

theorem append {low mid high : Nat} {a b : List Nat} (ha : Within low mid a)
    (hb : Within mid high b) (hlow : low ≤ mid) (hhigh : mid ≤ high) :
    Within low high (a ++ b) := by
  refine ⟨List.pairwise_append.mpr ⟨ha.sorted, hb.sorted, fun i hi j hj => ?_⟩, fun i hi => ?_⟩
  · have hi := ha.range i hi
    have hj := hb.range j hj
    omega
  · rcases List.mem_append.mp hi with hi | hi
    · have hi := ha.range i hi
      omega
    · have hi := hb.range i hi
      omega

theorem mono {low high low' high' : Nat} {a : List Nat} (h : Within low high a) (hlow : low' ≤ low)
    (hhigh : high ≤ high') : Within low' high' a := by
  refine ⟨h.sorted, fun i hi => ?_⟩
  have hi := h.range i hi
  omega

/-- A line that may have an entry. -/
theorem hole (n : Nat) (c : Bool) : Within n (n + 1) (if c = true then [n] else []) := by
  cases c
  · exact nil n (n + 1)
  · exact singleton n

end Within

mutual

/-- The entries of an outline are numbered in order, by its lines. -/
theorem Outline.within_numbers : ∀ (t : Outline) (n : Nat), Within n (n + t.size) (t.numbers n)
  | .nil, n => .nil n _
  | .line l rest, n => by
    rw [Outline.size_line]
    refine (Within.singleton n).append (b := rest.numbers (n + 1)) ?_ (by omega) (by omega)
    exact (Outline.within_numbers rest (n + 1)).mono (by omega) (by omega)
  | .block head first more close rest, n => by
    have hfirst := Outline.within_numbers first (n + 1)
    have hmore := Branches.within_numbers more (n + 1 + first.size)
    have hrest := Outline.within_numbers rest (n + 1 + first.size + more.size + 1)
    have hall : Within (n + 1) (n + 1 + first.size + more.size + 1 + rest.size)
        (Outline.numbers n (.block head first more close rest)) := by
      refine hfirst.append ((Within.hole _ first.isNil).append (hmore.append hrest ?_ ?_) ?_ ?_)
        ?_ ?_ <;> omega
    rw [Outline.size_block]
    exact hall.mono (by omega) (by omega)

/-- The entries of some branches are numbered in order, by the lines behind the first header and
the line that ends the last branch. -/
theorem Branches.within_numbers : ∀ (t : Branches) (n : Nat),
    Within (n + 1) (n + t.size + 1) (t.numbers n)
  | .nil, n => .nil _ _
  | .branch head body more, n => by
    have hbody := Outline.within_numbers body (n + 1)
    have hmore := Branches.within_numbers more (n + 1 + body.size)
    have hall : Within (n + 1) (n + 1 + body.size + more.size + 1)
        (Branches.numbers n (.branch head body more)) := by
      refine hbody.append ((Within.hole _ body.isNil).append hmore ?_ ?_) ?_ ?_ <;> omega
    rw [Branches.size_branch]
    exact hall.mono (by omega) (by omega)

end

/-! ## Headers for branches that are gone -/

/-- What the header of a branch asks about. -/
def BranchLine.question (q : Question) (b : BranchLine) : Question :=
  match b.header? with
  | some h => h.question
  | none => q

theorem BranchLine.question_of_none {b : BranchLine} (h : b.header? = none) (q : Question) :
    b.question q = q := by rw [question, h]

theorem BranchLine.question_of_some {b : BranchLine} {header : Header} (h : b.header? = some header)
    (q : Question) : b.question q = header.question := by rw [question, h]

/-- The names that a header lists which is made of names used before: the first of those with a
token only if there are no others. -/
def Question.listing (q : Question) (seen : List Text) : List Text :=
  (Scope.negationOf q.kind seen false q.qualifier).alternatives

/-- The command of a header that asks the question. -/
def Question.command (q : Question) : Text :=
  match q.kind with
  | .userVariable => "If Variable " ++ q.qualifier.getD []
  | kind => "If " ++ kind.label

/-- The header of a block of which the first branches are gone, which used the names `seen`. -/
def OpeningLine.made (q : Question) (seen : List Text) : OpeningLine :=
  let names := Text.join " | " (q.listing seen)
  ⟨⟨q.command ++ " == " ++ names, some q.command, some names, none,
    .opening ⟨q.kind, names, q.qualifier⟩⟩, ⟨q.kind, names, q.qualifier⟩, rfl⟩

/-- The line as it is read after it is written: a blank line is empty. -/
def Line.cleared (l : Line) : Line := if l.isBlankLine then ⟨[], none, none, none, .none⟩ else l

/-- The line of content as it is read after it is written. -/
def ContentLine.cleared (l : ContentLine) : ContentLine where
  line := l.line.cleared
  plain := by
    rw [Line.cleared]
    split
    · rfl
    · exact l.plain

theorem ContentLine.written_cleared (depth : Nat) (l : ContentLine) :
    l.cleared.line.written depth = l.line.written depth := by
  show l.line.cleared.written depth = _
  rw [Line.cleared]
  split
  · rename_i hblank
    rw [Line.written, Line.written, if_pos hblank]
    rfl
  · rfl

/-! ## Pruning -/

/-- Some entry of the branch is left. -/
def Outline.live (keep : Nat → Bool) (n : Nat) (body : Outline) : Bool :=
  (body.branchNumbers n).any keep

mutual

/-- What is left of an outline. -/
def Outline.pruned (keep : Nat → Bool) (n : Nat) : Outline → Outline
  | .nil => .nil
  | .line l rest =>
    if keep n then .line l.cleared (rest.pruned keep (n + 1)) else rest.pruned keep (n + 1)
  | .block head first more close rest =>
    let next := n + 1 + first.size
    let after := rest.pruned keep (next + more.size + 1)
    if first.live keep (n + 1) then
      .block head (first.pruned keep (n + 1)) (more.pruned keep next) close after
    else more.reopened keep head.header.question head.header.nameList next close after

/-- What is left of the further branches of a block. -/
def Branches.pruned (keep : Nat → Bool) (n : Nat) : Branches → Branches
  | .nil => .nil
  | .branch head body more =>
    let next := n + 1 + body.size
    if body.live keep (n + 1) then
      .branch head (body.pruned keep (n + 1)) (more.pruned keep next)
    else more.pruned keep next

/-- What is left of a block whose branches so far are gone, and used the names `seen`; behind the
block stands `after`. -/
def Branches.reopened (keep : Nat → Bool) (q : Question) (seen : List Text) (n : Nat)
    (close : ClosingLine) (after : Outline) : Branches → Outline
  | .nil => after
  | .branch head body more =>
    let next := n + 1 + body.size
    if body.live keep (n + 1) then
      .block (.made (head.question q) seen) .nil
        (.branch head (body.pruned keep (n + 1)) (more.pruned keep next)) close after
    else more.reopened keep q (seen ++ head.nameList) next close after

end

end ControlFiles
