import ControlFiles.Proofs.Block.Outline

/-!
# Reading an outline

The stack of open blocks takes a text apart in the way its outline says. `Outline.steps_eq` follows
the lines of a valid outline from any reading on: the entries of the outline are added, and the
stack is what it was, with the closing lines of the blocks noted. `completes_of_steps` goes the
other way: lines that are read without a fault, and leave no block open, are those of a valid
outline.
-/

namespace ControlFiles

/-! ## Readings -/

namespace Reading

/-- The reading with the statement of an entry added. -/
def addEntry (o : ReadOptions) (r : Reading) (e : Entry) : Reading := r.add e.text (e.statement o)

/-- The reading with the statements of some entries added. -/
def addAll (o : ReadOptions) (r : Reading) (es : List Entry) : Reading := es.foldl (addEntry o) r

/-- The reading with another stack. -/
def withStack (r : Reading) (s : BlockStack) : Reading := { r with stack := s }

variable {o : ReadOptions} {r : Reading}

@[simp] theorem stack_withStack (s : BlockStack) : (r.withStack s).stack = s := rfl

@[simp] theorem addAll_nil : r.addAll o [] = r := rfl

theorem addAll_cons (e : Entry) (es : List Entry) :
    r.addAll o (e :: es) = (r.addEntry o e).addAll o es := rfl

theorem addAll_append (es es' : List Entry) :
    r.addAll o (es ++ es') = (r.addAll o es).addAll o es' := List.foldl_append

theorem steps_cons (l : Line) (ls : List Line) (n : Nat) :
    steps o r (l :: ls) n =
      match r.step o l n with
      | .error fault => .error fault
      | .ok r => steps o r ls (n + 1) := rfl

/-- Reading some lines and then others is reading all of them. -/
theorem steps_append {ls ls' : List Line} {n : Nat} {r₁ r₂ : Reading}
    (h₁ : steps o r ls n = .ok r₁) (h₂ : steps o r₁ ls' (n + ls.length) = .ok r₂) :
    steps o r (ls ++ ls') n = .ok r₂ := by
  induction ls generalizing r n with
  | nil =>
    obtain rfl := Except.ok.inj h₁
    exact h₂
  | cons l ls ih =>
    rw [List.cons_append, steps_cons]
    rw [steps_cons] at h₁
    cases hstep : r.step o l n with
    | error fault => simp [hstep] at h₁
    | ok r' =>
      simp only [hstep] at h₁ ⊢
      rw [List.length_cons, Nat.add_comm ls.length, ← Nat.add_assoc] at h₂
      exact ih h₁ h₂

theorem steps_of_step {l : Line} {ls : List Line} {n : Nat} {r₁ r₂ : Reading}
    (h₁ : r.step o l n = .ok r₁) (h₂ : steps o r₁ ls (n + 1) = .ok r₂) :
    steps o r (l :: ls) n = .ok r₂ := by
  rw [steps_cons, h₁]
  exact h₂

end Reading

/-! ## Stacks -/

namespace OpenBlock

/-- What the block asks about. -/
def question (b : OpenBlock) : Question := ⟨b.kind, b.qualifier⟩

/-- The block with its next branch open. -/
def next (b : OpenBlock) (line : BranchLine) (n : Nat) : OpenBlock :=
  match line.header? with
  | some h => BlockStack.elseIfBlock b h line.line.text n
  | none => BlockStack.elseBlock b line.line.text n

/-- Why the block cannot go on with a branch. -/
def cause? (b : OpenBlock) (line : BranchLine) : Option Cause :=
  match line.header? with
  | some h => BlockStack.elseIfCause? b h
  | none => BlockStack.branchCause? .otherwise b

theorem branchCause?_eq_none {word : BranchWord} {b : OpenBlock} :
    BlockStack.branchCause? word b = none ↔ b.kind.canBranch = true ∧ b.hasElse = false := by
  cases hk : b.kind.canBranch <;> cases he : b.hasElse <;> simp [BlockStack.branchCause?, hk, he]

/-- A block goes on with the branches that its question admits, as long as there is no `Else`. -/
theorem cause?_eq_none {b : OpenBlock} {line : BranchLine} :
    b.cause? line = none ↔ b.hasElse = false ∧ b.question.Admits b.seen line := by
  rw [cause?, Question.Admits, question]
  cases line.header? with
  | none => simp [branchCause?_eq_none, and_comm]
  | some h =>
    simp only [BlockStack.elseIfCause?, Option.mem_def, Option.some.injEq, forall_eq']
    cases hc : BlockStack.branchCause? .elseIf b with
    | some cause =>
      have hsome : BlockStack.branchCause? .elseIf b ≠ none := by simp [hc]
      have hnot := mt branchCause?_eq_none.mpr hsome
      simp only [reduceCtorEq, false_iff]
      exact fun hall => hnot ⟨hall.2.1, hall.1⟩
    | none =>
      obtain ⟨hkind, helse⟩ := branchCause?_eq_none.mp hc
      by_cases hk : h.kind = b.kind
      · cases Text.alike? b.qualifier h.qualifier <;>
          simp [hk, hkind, helse, Header.nameList, List.find?_eq_none]
      · simp [hk, Ne.symm hk]

section

variable (b : OpenBlock) (line : BranchLine) (n : Nat)

@[simp] theorem question_next : (b.next line n).question = b.question := by
  rw [next]; split <;> rfl

@[simp] theorem seen_next : (b.next line n).seen = b.seen ++ line.nameList := by
  rw [next, BranchLine.nameList]
  split
  · rename_i h hh
    simp [hh, BlockStack.elseIfBlock, Header.nameList]
  · rename_i hh
    simp [hh, BlockStack.elseBlock]

@[simp] theorem line_next : (b.next line n).line = b.line := by
  rw [next]; split <;> rfl

@[simp] theorem closing_next : (b.next line n).closing = b.closing := by
  rw [next]; split <;> rfl

@[simp] theorem hasContent_next : (b.next line n).hasContent = false := by
  rw [next]; split <;> rfl

theorem hasElse_next {b : OpenBlock} (h : b.hasElse = false) :
    (b.next line n).hasElse = line.header?.isNone := by
  rw [next]
  split
  · rename_i hh
    simp [hh, BlockStack.elseIfBlock, h]
  · rename_i hh
    simp [hh, BlockStack.elseBlock]

end

/-- A line in the branch that is being read. -/
def mark (b : OpenBlock) : OpenBlock := { b with hasContent := true }

@[simp] theorem mark_mark (b : OpenBlock) : b.mark.mark = b.mark := rfl

/-- The block after the lines of an outline in the branch that is being read. -/
def after (b : OpenBlock) (t : Outline) : OpenBlock := if t.isNil then b else b.mark

section

variable (b : OpenBlock) (t : Outline)

@[simp] theorem question_after : (b.after t).question = b.question := by
  rw [after]; split <;> rfl

@[simp] theorem seen_after : (b.after t).seen = b.seen := by
  rw [after]; split <;> rfl

@[simp] theorem hasElse_after : (b.after t).hasElse = b.hasElse := by
  rw [after]; split <;> rfl

@[simp] theorem line_after : (b.after t).line = b.line := by
  rw [after]; split <;> rfl

@[simp] theorem closing_after : (b.after t).closing = b.closing := by
  rw [after]; split <;> rfl

@[simp] theorem branch_after : (b.after t).branch = b.branch := by
  rw [after]; split <;> rfl

end

end OpenBlock

namespace BlockStack

/-- The scopes in force are those of some levels. -/
def Inside (s : BlockStack) (path : List Level) : Prop := s.current = Level.scopeList path

theorem markContent_blocks (s : BlockStack) :
    s.markContent.blocks = s.blocks.map OpenBlock.mark := rfl

theorem inside_empty (file : Text) : (BlockStack.empty file).Inside [] := rfl

theorem inside_iff {s : BlockStack} {path : List Level} :
    s.Inside path ↔ s.blocks.reverse.flatMap (·.branch) = path.flatMap Level.scopes := by
  simp [Inside, current, Level.scopeList]

theorem Inside.markContent {s : BlockStack} {path : List Level} (h : s.Inside path) :
    s.markContent.Inside path := by
  rw [inside_iff] at h ⊢
  rw [markContent_blocks, ← List.map_reverse, List.flatMap_map]
  exact h

/-- What is in force depends on the open blocks alone. -/
theorem Inside.of_blocks {s s' : BlockStack} {path : List Level} (h : s.Inside path)
    (hb : s'.blocks = s.blocks) : s'.Inside path := by
  rw [inside_iff] at h ⊢
  rw [hb, h]

/-- One more block that is open adds the level of its branch. -/
theorem Inside.push {s : BlockStack} {path : List Level} {b : OpenBlock} {lv : Level}
    {file : Text} {closes : List (Nat × Text)} (h : s.Inside path) (hb : b.branch = lv.scopes) :
    (⟨file, b :: s.blocks, closes⟩ : BlockStack).Inside (path ++ [lv]) := by
  rw [inside_iff] at h ⊢
  simp only [List.reverse_cons, List.flatMap_append, h, List.flatMap_cons, List.flatMap_nil,
    List.append_nil, hb]

/-- The stack after the lines of an outline, the first of which has the number `n`. -/
def through (s : BlockStack) (n : Nat) (t : Outline) : BlockStack :=
  ⟨s.file, if t.isNil then s.blocks else s.markContent.blocks, s.closes ++ t.closes n⟩

theorem markContent_markContent (s : BlockStack) : s.markContent.markContent = s.markContent := by
  simp [markContent]

/-- A line of content counts as such for all blocks around it. -/
theorem through_line (s : BlockStack) (n : Nat) (l : ContentLine) (rest : Outline) :
    s.through n (.line l rest) = s.markContent.through (n + 1) rest := by
  simp only [through, Outline.isNil_line, Outline.closes, markContent_markContent, ite_self]
  rfl

/-- A block counts as content for all blocks around it. -/
theorem through_block (s : BlockStack) (n : Nat) (head : OpeningLine) (first : Outline)
    (more : Branches) (close : ClosingLine) (rest : Outline) :
    s.through n (.block head first more close rest) =
      BlockStack.through
        ⟨s.file, s.markContent.blocks, s.closes ++ first.closes (n + 1) ++
          (more.closes (n + 1 + first.size) ++ [(n, close.line.text)])⟩
        (n + 1 + first.size + more.size + 1) rest := by
  have hmark : s.markContent.blocks.map OpenBlock.mark = s.markContent.blocks := by
    simp [markContent_blocks]
  simp only [through, Outline.isNil_block, Outline.closes, markContent_blocks] at hmark ⊢
  simp [hmark]

/-- An outline in the innermost block leaves the blocks around it open. -/
theorem through_cons {s : BlockStack} {b : OpenBlock} {outer : List OpenBlock} (n : Nat)
    (t : Outline) (hs : s.blocks = b :: outer) (hmark : outer.map OpenBlock.mark = outer) :
    s.through n t = ⟨s.file, b.after t :: outer, s.closes ++ t.closes n⟩ := by
  simp only [through, OpenBlock.after, markContent_blocks, hs, List.map_cons, hmark]
  split <;> rfl

/-- The placeholder of the innermost branch, which is that of the level `lv`, when the line `n` ends
it. -/
def pending (b : OpenBlock) (n : Nat) (path : List Level) (lv : Level) : List Entry :=
  if b.hasContent then [] else [⟨n, path ++ [lv], none⟩]

theorem pending_after {b : OpenBlock} (h : b.hasContent = false) (n : Nat) (path : List Level)
    (lv : Level) (t : Outline) :
    pending (b.after t) n path lv = t.placeholder n (path ++ [lv]) := by
  rw [pending, Outline.placeholder, OpenBlock.after]
  cases t.isNil <;> simp [h, OpenBlock.mark]

end BlockStack

/-! ## Single lines -/

/-- The closing lines are not known while a text is read. -/
def Closes.unknown : Closes := fun _ => none

namespace BlockStack

variable {s : BlockStack} {b : OpenBlock} {outer : List OpenBlock}

theorem process_content (s : BlockStack) (l : ContentLine) (n : Nat) :
    s.process l.line n = (s.markContent, .ok (.content s.current)) := by
  simp only [process, l.plain]

theorem process_opening (s : BlockStack) {head : OpeningLine} {closing : Closing} (n : Nat)
    (h : head.header.kind.closing? = some closing) :
    s.process head.line n = ({ s with
      blocks := openBlock head.header closing head.line.text n :: s.markContent.blocks },
      .ok (.structural none)) := by
  simp only [process, head.opens, h]

theorem process_branch {line : BranchLine} (n : Nat) (hs : s.blocks = b :: outer)
    (hcause : b.cause? line = none) :
    s.process line.line n =
      ({ s with blocks := b.next line n :: outer }, .ok (.structural s.placeholder?)) := by
  have hb := line.branches
  cases hh : line.header? with
  | none =>
    simp only [hh, Option.map_none, Option.getD_none] at hb
    simp only [OpenBlock.cause?, hh] at hcause
    simp only [process, hb, hs, hcause, OpenBlock.next, hh]
  | some header =>
    simp only [hh, Option.map_some, Option.getD_some] at hb
    simp only [OpenBlock.cause?, hh] at hcause
    simp only [process, hb, hs, hcause, OpenBlock.next, hh]

theorem process_closing {line : ClosingLine} (n : Nat) (hs : s.blocks = b :: outer)
    (hclosing : b.closing = line.closing) :
    s.process line.line n =
      ({ s with blocks := outer, closes := s.closes ++ [(b.line, line.line.text)] },
        .ok (.structural s.placeholder?)) := by
  simp only [process, line.closes, close, hs, if_pos hclosing]

end BlockStack

namespace Reading

variable {o : ReadOptions} {r : Reading} {s : BlockStack}

theorem step_content (l : ContentLine) (n : Nat) {path : List Level} (h : s.Inside path) :
    (r.withStack s).step o l.line n =
      .ok ((r.addEntry o ⟨n, path, some l.line⟩).withStack s.markContent) := by
  simp only [step, stack_withStack, s.process_content l n, show s.current = _ from h]
  rfl

theorem step_opening {head : OpeningLine} {closing : Closing} (n : Nat)
    (h : head.header.kind.closing? = some closing) :
    (r.withStack s).step o head.line n =
      .ok (r.withStack ⟨s.file,
        BlockStack.openBlock head.header closing head.line.text n :: s.markContent.blocks,
        s.closes⟩) := by
  simp only [step, stack_withStack, s.process_opening n h]
  rfl

variable {file : Text} {b : OpenBlock} {outer : List OpenBlock} {closes : List (Nat × Text)}
  {path : List Level} {lv : Level}

theorem placeholder?_eq (h : (⟨file, b :: outer, closes⟩ : BlockStack).Inside path) :
    (⟨file, b :: outer, closes⟩ : BlockStack).placeholder? =
      if b.hasContent then none else some (Level.scopeList path) := by
  simp only [BlockStack.placeholder?]
  rw [show BlockStack.current _ = _ from h]

theorem step_branch {line : BranchLine} (n : Nat)
    (h : (⟨file, b :: outer, closes⟩ : BlockStack).Inside (path ++ [lv]))
    (hcause : b.cause? line = none) :
    (r.withStack ⟨file, b :: outer, closes⟩).step o line.line n =
      .ok ((r.addAll o (BlockStack.pending b n path lv)).withStack
        ⟨file, b.next line n :: outer, closes⟩) := by
  have hprocess := BlockStack.process_branch (s := ⟨file, b :: outer, closes⟩) n rfl hcause
  simp only [step, stack_withStack, hprocess, placeholder?_eq h, BlockStack.pending]
  cases b.hasContent <;> rfl

theorem step_closing {line : ClosingLine} (n : Nat)
    (h : (⟨file, b :: outer, closes⟩ : BlockStack).Inside (path ++ [lv]))
    (hclosing : b.closing = line.closing) :
    (r.withStack ⟨file, b :: outer, closes⟩).step o line.line n =
      .ok ((r.addAll o (BlockStack.pending b n path lv)).withStack
        ⟨file, outer, closes ++ [(b.line, line.line.text)]⟩) := by
  have hprocess := BlockStack.process_closing (s := ⟨file, b :: outer, closes⟩) n rfl hclosing
  simp only [step, stack_withStack, hprocess, placeholder?_eq h, BlockStack.pending]
  cases b.hasContent <;> rfl

end Reading

/-! ## Whole outlines -/

theorem OpenBlock.branch_next (b : OpenBlock) (line : BranchLine) (n : Nat) :
    (b.next line n).branch =
      (Level.later b.question b.seen (Closes.unknown.source b.line n line.line.text)
        line.header?).scopes := by
  rw [next]
  split
  · rename_i hh
    rw [hh]
    rfl
  · rename_i hh
    rw [hh]
    rfl

mutual

/-- The lines of a valid outline are read without a fault, and add its entries. -/
theorem Outline.steps_eq (o : ReadOptions) : ∀ (t : Outline), t.Valid → ∀ (r : Reading)
    (s : BlockStack) (n : Nat) (path : List Level), s.Inside path →
      Reading.steps o (r.withStack s) t.lines n =
        .ok ((r.addAll o (t.entries .unknown n path)).withStack (s.through n t))
  | .nil, _, r, s, n, path, _ => by
    simp only [Outline.lines, Reading.steps, Outline.entries, Reading.addAll_nil,
      BlockStack.through, Outline.isNil_nil, Outline.closes, List.append_nil, if_true]
  | .line l rest, hv, r, s, n, path, hin => by
    have h₁ := Reading.step_content (o := o) (r := r) l n hin
    have h₂ := Outline.steps_eq o rest hv (r.addEntry o ⟨n, path, some l.line⟩) s.markContent
      (n + 1) path hin.markContent
    rw [BlockStack.through_line]
    exact Reading.steps_of_step h₁ h₂
  | .block head first more close rest, hv, r, s, n, path, hin => by
    obtain ⟨hclosing, hfirst, hmore, hrest⟩ := hv
    let b := BlockStack.openBlock head.header close.closing head.line.text n
    let outer := s.markContent.blocks
    let lv := Level.opening head.header (Closes.unknown.source n n head.line.text)
    have hmark : outer.map OpenBlock.mark = outer := by
      simp [outer, BlockStack.markContent_blocks]
    have houter : ∀ closes, (⟨s.file, outer, closes⟩ : BlockStack).Inside path :=
      fun closes => hin.markContent.of_blocks rfl
    have hvalid : more.Valid (b.after first).question (b.after first).seen
        (b.after first).hasElse := by
      rw [OpenBlock.question_after, OpenBlock.seen_after, OpenBlock.hasElse_after]
      exact hmore
    have hblocks := BlockStack.through_cons (s := ⟨s.file, b :: outer, s.closes⟩) (n + 1) first rfl
      hmark
    have h₁ := Reading.step_opening (o := o) (r := r) (s := s) n hclosing
    have h₂ := Outline.steps_eq o first hfirst r ⟨s.file, b :: outer, s.closes⟩ (n + 1)
      (path ++ [lv]) ((houter s.closes).push rfl)
    have h₃ := Branches.steps_eq o more (b.after first) hvalid
      (r.addAll o (first.entries .unknown (n + 1) (path ++ [lv]))) s.file outer
      (s.closes ++ first.closes (n + 1)) (n + 1 + first.size) path lv close hmark (houter _)
      (OpenBlock.branch_after _ _) (OpenBlock.closing_after _ _)
    have h₄ := Outline.steps_eq o rest hrest
      ((r.addAll o (first.entries .unknown (n + 1) (path ++ [lv]))).addAll o
        (BlockStack.pending (b.after first) (n + 1 + first.size) path lv ++
          more.entries .unknown (b.after first).line (b.after first).question (b.after first).seen
            (n + 1 + first.size) path))
      ⟨s.file, outer, s.closes ++ first.closes (n + 1) ++
        (more.closes (n + 1 + first.size) ++ [((b.after first).line, close.line.text)])⟩
      (n + 1 + first.size + more.size + 1) path (houter _)
    have hlines : (Outline.block head first more close rest).lines =
        head.line :: (first.lines ++ ((more.lines ++ [close.line]) ++ rest.lines)) := by
      simp [Outline.lines]
    have hlen : n + 1 + first.lines.length + (more.lines ++ [close.line]).length =
        n + 1 + first.size + more.size + 1 := by
      simp [Outline.size, Branches.size, Nat.add_assoc]
    rw [hblocks] at h₂
    rw [← hlen] at h₄
    rw [hlines]
    have hsteps := Reading.steps_append h₂ (Reading.steps_append h₃ h₄)
    refine (Reading.steps_of_step h₁ hsteps).trans ?_
    rw [BlockStack.through_block, OpenBlock.line_after, OpenBlock.question_after,
      OpenBlock.seen_after, BlockStack.pending_after rfl, hlen, ← Reading.addAll_append,
      ← Reading.addAll_append]
    simp only [Outline.entries, List.append_assoc]
    rfl

/-- The lines of further branches and the closing line behind them are read without a fault in the
block that they belong to. -/
theorem Branches.steps_eq (o : ReadOptions) : ∀ (t : Branches) (b : OpenBlock),
    t.Valid b.question b.seen b.hasElse → ∀ (r : Reading) (file : Text) (outer : List OpenBlock)
    (closes : List (Nat × Text)) (n : Nat) (path : List Level) (lv : Level) (close : ClosingLine),
      outer.map OpenBlock.mark = outer → (⟨file, outer, closes⟩ : BlockStack).Inside path →
      b.branch = lv.scopes → b.closing = close.closing →
      Reading.steps o (r.withStack ⟨file, b :: outer, closes⟩) (t.lines ++ [close.line]) n =
        .ok ((r.addAll o (BlockStack.pending b n path lv ++
            t.entries .unknown b.line b.question b.seen n path)).withStack
          ⟨file, outer, closes ++ (t.closes n ++ [(b.line, close.line.text)])⟩)
  | .nil, b, _, r, file, outer, closes, n, path, lv, close, _, hin, hb, hclosing => by
    have hin' : (⟨file, b :: outer, closes⟩ : BlockStack).Inside (path ++ [lv]) := hin.push hb
    have h := Reading.step_closing (o := o) (r := r) n hin' hclosing
    simp only [Branches.lines, List.nil_append, Reading.steps_cons, h, Reading.steps,
      Branches.entries, Branches.closes, List.append_nil]
  | .branch head body more, b, hv, r, file, outer, closes, n, path, lv, close, hmark, hin, hb,
      hclosing => by
    obtain ⟨helse, hadmits, hbody, hmore⟩ := hv
    let b' := b.next head n
    let lv' := Level.later b.question b.seen (Closes.unknown.source b.line n head.line.text)
      head.header?
    have hvalid : more.Valid (b'.after body).question (b'.after body).seen
        (b'.after body).hasElse := by
      rw [OpenBlock.question_after, OpenBlock.seen_after, OpenBlock.hasElse_after,
        OpenBlock.question_next, OpenBlock.seen_next, OpenBlock.hasElse_next head n helse]
      exact hmore
    have hblocks :=
      BlockStack.through_cons (s := ⟨file, b' :: outer, closes⟩) (n + 1) body rfl hmark
    have hin' : (⟨file, b :: outer, closes⟩ : BlockStack).Inside (path ++ [lv]) := hin.push hb
    have h₁ := Reading.step_branch (o := o) (r := r) n hin'
      (OpenBlock.cause?_eq_none.mpr ⟨helse, hadmits⟩)
    have h₂ := Outline.steps_eq o body hbody (r.addAll o (BlockStack.pending b n path lv))
      ⟨file, b' :: outer, closes⟩ (n + 1) (path ++ [lv']) (hin.push (b.branch_next head n))
    have h₃ := Branches.steps_eq o more (b'.after body) hvalid
      ((r.addAll o (BlockStack.pending b n path lv)).addAll o
        (body.entries .unknown (n + 1) (path ++ [lv']))) file outer
      (closes ++ body.closes (n + 1)) (n + 1 + body.size) path lv' close hmark (hin.of_blocks rfl)
      ((OpenBlock.branch_after _ _).trans (b.branch_next head n))
      (by rw [OpenBlock.closing_after, OpenBlock.closing_next, hclosing])
    have hlines : (Branches.branch head body more).lines ++ [close.line] =
        head.line :: (body.lines ++ (more.lines ++ [close.line])) := by
      simp [Branches.lines]
    rw [hblocks] at h₂
    rw [hlines]
    refine (Reading.steps_of_step h₁ (Reading.steps_append h₂ h₃)).trans ?_
    rw [OpenBlock.line_after, OpenBlock.question_after, OpenBlock.seen_after, OpenBlock.line_next,
      OpenBlock.question_next, OpenBlock.seen_next,
      BlockStack.pending_after (OpenBlock.hasContent_next b head n), ← Reading.addAll_append,
      ← Reading.addAll_append]
    simp only [Branches.entries, Branches.closes, List.append_assoc]
    rfl

end

/-! ## From lines to an outline -/

/-- What a line that is not refused can do: each kind of line to the open blocks. -/
theorem BlockStack.process_ok {s s' : BlockStack} {l : Line} {n : Nat} {tracked : Tracked}
    (h : s.process l n = (s', .ok tracked)) :
    (∃ line : ContentLine, line.line = l ∧ s' = s.markContent) ∨
    (∃ (line : OpeningLine) (closing : Closing), line.line = l ∧
      line.header.kind.closing? = some closing ∧
      s'.blocks = openBlock line.header closing l.text n :: s.markContent.blocks) ∨
    (∃ (line : BranchLine) (b : OpenBlock) (outer : List OpenBlock), line.line = l ∧
      s.blocks = b :: outer ∧ b.cause? line = none ∧ s'.blocks = b.next line n :: outer) ∨
    ∃ (line : ClosingLine) (b : OpenBlock) (outer : List OpenBlock), line.line = l ∧
      s.blocks = b :: outer ∧ b.closing = line.closing ∧ s'.blocks = outer := by
  cases hd : l.directive with
  | none =>
    simp only [process, hd, Prod.mk.injEq] at h
    exact .inl ⟨⟨l, hd⟩, rfl, h.1.symm⟩
  | malformed flaw => simp [process, hd, refuse] at h
  | opening header =>
    cases hc : header.kind.closing? with
    | none => simp [process, hd, hc, refuse] at h
    | some closing =>
      simp only [process, hd, hc, Prod.mk.injEq] at h
      obtain ⟨rfl, -⟩ := h
      exact .inr (.inl ⟨⟨l, header, hd⟩, closing, rfl, hc, rfl⟩)
  | elseIf header =>
    cases hs : s.blocks with
    | nil => simp [process, hd, hs, refuse] at h
    | cons b outer =>
      cases hc : elseIfCause? b header with
      | some cause => simp [process, hd, hs, hc, refuse] at h
      | none =>
        simp only [process, hd, hs, hc, Prod.mk.injEq] at h
        obtain ⟨rfl, -⟩ := h
        exact .inr (.inr (.inl ⟨⟨l, some header, hd⟩, b, outer, rfl, rfl, hc, rfl⟩))
  | otherwise =>
    cases hs : s.blocks with
    | nil => simp [process, hd, hs, refuse] at h
    | cons b outer =>
      cases hc : branchCause? .otherwise b with
      | some cause => simp [process, hd, hs, hc, refuse] at h
      | none =>
        simp only [process, hd, hs, hc, Prod.mk.injEq] at h
        obtain ⟨rfl, -⟩ := h
        exact .inr (.inr (.inl ⟨⟨l, none, hd⟩, b, outer, rfl, rfl, hc, rfl⟩))
  | close closing =>
    cases hs : s.blocks with
    | nil => simp [process, hd, close, hs, refuse] at h
    | cons b outer =>
      by_cases hc : b.closing = closing
      · simp only [process, hd, close, hs, if_pos hc, Prod.mk.injEq] at h
        obtain ⟨rfl, -⟩ := h
        exact .inr (.inr (.inr ⟨⟨l, closing, hd⟩, b, outer, rfl, rfl, hc, rfl⟩))
      · simp [process, hd, close, hs, hc, refuse] at h

theorem Reading.process_of_step {o : ReadOptions} {r r' : Reading} {l : Line} {n : Nat}
    (h : r.step o l n = .ok r') : ∃ tracked, r.stack.process l n = (r'.stack, .ok tracked) := by
  cases hp : r.stack.process l n with
  | mk s result =>
    simp only [step, hp] at h
    split at h
    · cases h
    · cases h; exact ⟨_, rfl⟩
    · cases h; exact ⟨_, rfl⟩
    · cases h; exact ⟨_, rfl⟩

/-- Lines that finish some open blocks, the innermost first: for each block the rest of the branch
that is being read, further branches and the closing line; and behind them all a valid outline. -/
def Completes : List OpenBlock → List Line → Prop
  | [], ls => ∃ t : Outline, t.Valid ∧ t.lines = ls
  | b :: outer, ls => ∃ (t : Outline) (more : Branches) (close : ClosingLine) (rest : List Line),
      t.Valid ∧ more.Valid b.question b.seen b.hasElse ∧ b.closing = close.closing ∧
        Completes outer rest ∧ t.lines ++ (more.lines ++ close.line :: rest) = ls

namespace Completes

variable {blocks outer : List OpenBlock} {b : OpenBlock} {ls : List Line}

/-- Whether a branch holds a line does not count for what may follow. -/
theorem of_map_mark (h : Completes (blocks.map OpenBlock.mark) ls) : Completes blocks ls := by
  induction blocks generalizing ls with
  | nil => exact h
  | cons b outer ih =>
    obtain ⟨t, more, close, rest, ht, hmore, hclose, hrest, hls⟩ := h
    exact ⟨t, more, close, rest, ht, hmore, hclose, ih hrest, hls⟩

/-- Lines that can stand in front of every valid outline can stand in front of what finishes open
blocks. -/
theorem prepend (front : List Line)
    (hfront : ∀ t : Outline, t.Valid → ∃ t' : Outline, t'.Valid ∧ t'.lines = front ++ t.lines)
    (h : Completes blocks ls) : Completes blocks (front ++ ls) := by
  cases blocks with
  | nil =>
    obtain ⟨t, ht, rfl⟩ := h
    exact hfront t ht
  | cons b outer =>
    obtain ⟨t, more, close, rest, ht, hmore, hclose, hrest, rfl⟩ := h
    obtain ⟨t', ht', hlines⟩ := hfront t ht
    exact ⟨t', more, close, rest, ht', hmore, hclose, hrest, by simp [hlines]⟩

theorem content (line : ContentLine) (h : Completes blocks ls) :
    Completes blocks (line.line :: ls) :=
  prepend [line.line] (fun t ht => ⟨.line line t, ht, rfl⟩) h

theorem opening {line : OpeningLine} {closing : Closing} {n : Nat}
    (hclosing : line.header.kind.closing? = some closing)
    (h : Completes (BlockStack.openBlock line.header closing line.line.text n :: outer) ls) :
    Completes outer (line.line :: ls) := by
  obtain ⟨t, more, close, rest, ht, hmore, hclose, hrest, rfl⟩ := h
  have hblock : ∀ t' : Outline, t'.Valid → (Outline.block line t more close t').Valid :=
    fun t' ht' => ⟨hclosing.trans (congrArg some hclose), ht, hmore, ht'⟩
  have := prepend (line.line :: (t.lines ++ (more.lines ++ [close.line])))
    (fun t' ht' => ⟨.block line t more close t', hblock t' ht', by simp [Outline.lines]⟩) hrest
  simpa using this

theorem branch {line : BranchLine} {n : Nat} (hcause : b.cause? line = none)
    (h : Completes (b.next line n :: outer) ls) : Completes (b :: outer) (line.line :: ls) := by
  obtain ⟨helse, hadmits⟩ := OpenBlock.cause?_eq_none.mp hcause
  obtain ⟨t, more, close, rest, ht, hmore, hclose, hrest, rfl⟩ := h
  rw [OpenBlock.question_next, OpenBlock.seen_next, OpenBlock.hasElse_next line n helse] at hmore
  rw [OpenBlock.closing_next] at hclose
  exact ⟨.nil, .branch line t more, close, rest, trivial, ⟨helse, hadmits, ht, hmore⟩, hclose,
    hrest, by simp [Outline.lines, Branches.lines]⟩

theorem closing {line : ClosingLine} (hclosing : b.closing = line.closing)
    (h : Completes outer ls) : Completes (b :: outer) (line.line :: ls) :=
  ⟨.nil, .nil, line, ls, trivial, trivial, hclosing, h, rfl⟩

end Completes

/-- Lines that are read without a fault, and leave no block open, finish the blocks that were open
before them. -/
theorem completes_of_steps {o : ReadOptions} {ls : List Line} {r r' : Reading} {n : Nat}
    (h : Reading.steps o r ls n = .ok r') (hend : r'.stack.blocks = []) :
    Completes r.stack.blocks ls := by
  induction ls generalizing r n with
  | nil =>
    obtain rfl := Except.ok.inj h
    rw [hend]
    exact ⟨.nil, trivial, rfl⟩
  | cons l ls ih =>
    rw [Reading.steps_cons] at h
    cases hstep : r.step o l n with
    | error fault => simp [hstep] at h
    | ok r₁ =>
      simp only [hstep] at h
      have hrest := ih h
      obtain ⟨tracked, hp⟩ := Reading.process_of_step hstep
      obtain ⟨line, rfl, hs⟩ | ⟨line, closing, rfl, hclosing, hs⟩ |
        ⟨line, b, outer, rfl, hblocks, hcause, hs⟩ | ⟨line, b, outer, rfl, hblocks, hclosing, hs⟩ :=
        BlockStack.process_ok hp
      · rw [hs, BlockStack.markContent_blocks] at hrest
        exact hrest.of_map_mark.content line
      · rw [hs, BlockStack.markContent_blocks] at hrest
        exact (Completes.opening hclosing hrest).of_map_mark
      · rw [hs] at hrest
        rw [hblocks]
        exact .branch hcause hrest
      · rw [hs] at hrest
        rw [hblocks]
        exact .closing hclosing hrest

end ControlFiles
