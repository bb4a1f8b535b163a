import ControlFiles.Proofs.Block.Reading

/-!
# Lines that are refused

A line that is refused leaves the stack of open blocks as it was, but for one case: a closing line
of the wrong sort takes the innermost block with it (`BlockStack.process_of_error`). The stack then
shows other scopes in force than before, since every open block has a scope
(`BlockStack.Reachable.branch_ne_nil`), so this is the only line that is refused with an effect
(`BlockStack.unchanged_iff_of_error`).
-/

namespace ControlFiles.BlockStack

/-- Lines lead to the stack from the start of a file; some of them may have been refused. -/
inductive Reachable (file : Text) : BlockStack → Prop where
  | empty : Reachable file (.empty file)
  | process {s : BlockStack} (hs : Reachable file s) (l : Line) (n : Nat) :
      Reachable file (s.process l n).1

/-- The line closes a block of another sort than the innermost one. -/
def closesWrongly (s : BlockStack) (l : Line) : Bool :=
  match l.directive, s.blocks with
  | .close closing, b :: _ => b.closing ≠ closing
  | _, _ => false

/-- The stack without its innermost block. -/
def dropInnermost (s : BlockStack) : BlockStack := { s with blocks := s.blocks.tail }

/-- All that can be asked of a stack is the same of the second one: the scopes in force, the closing
lines so far, and whether a file may end here. -/
structure Unchanged (s s' : BlockStack) : Prop where
  current : s'.current = s.current
  closes : s'.closes = s.closes
  finish : s'.finish = s.finish

variable {file : Text} {s s' : BlockStack} {l : Line} {n : Nat} {fault : Fault}

/-! ## One line -/

theorem branchCause?_ne_neverClosed {word : BranchWord} {b : OpenBlock} {cause : Cause}
    (hcause : branchCause? word b = some cause) (kind : ScopeKind) (closing : Closing) :
    cause ≠ .neverClosed kind closing := by
  rintro rfl
  rw [branchCause?] at hcause
  split_ifs at hcause <;> cases hcause

theorem elseIfCause?_ne_neverClosed {b : OpenBlock} {h : Header} {cause : Cause}
    (hcause : elseIfCause? b h = some cause) (kind : ScopeKind) (closing : Closing) :
    cause ≠ .neverClosed kind closing := by
  rw [elseIfCause?] at hcause
  split at hcause
  · rename_i hbranch
    obtain rfl := Option.some.inj hcause
    exact branchCause?_ne_neverClosed hbranch kind closing
  · split_ifs at hcause
    · obtain rfl := Option.some.inj hcause
      simp
    · obtain ⟨name, -, rfl⟩ := Option.map_eq_some_iff.mp hcause
      simp

theorem of_refuse {s₁ : BlockStack} {cause : Cause}
    (h : s₁.refuse n cause = (s', .error fault)) : s' = s₁ ∧ fault = ⟨s₁.file, n, cause⟩ := by
  obtain ⟨hs, hfault⟩ := Prod.mk.inj h
  exact ⟨hs.symm, (Except.error.inj hfault).symm⟩

/-- What a line that is refused leaves, and what is told of it: its own number, and never that a
block is not closed. -/
theorem process_of_error (h : s.process l n = (s', .error fault)) :
    s' = (if s.closesWrongly l then s.dropInnermost else s) ∧ fault.line = n ∧
      ∀ kind closing, fault.cause ≠ .neverClosed kind closing := by
  rw [closesWrongly]
  cases hd : l.directive with
  | none => simp [process, hd] at h
  | malformed flaw =>
    simp only [process, hd] at h
    obtain ⟨rfl, rfl⟩ := of_refuse h
    exact ⟨rfl, rfl, by simp⟩
  | opening header =>
    simp only [process, hd] at h
    split at h
    · obtain ⟨rfl, rfl⟩ := of_refuse h
      exact ⟨rfl, rfl, by simp⟩
    · simp at h
  | elseIf header =>
    simp only [process, hd] at h
    split at h
    · obtain ⟨rfl, rfl⟩ := of_refuse h
      exact ⟨rfl, rfl, by simp⟩
    · split at h
      · rename_i hcause
        obtain ⟨rfl, rfl⟩ := of_refuse h
        exact ⟨rfl, rfl, elseIfCause?_ne_neverClosed hcause⟩
      · simp at h
  | otherwise =>
    simp only [process, hd] at h
    split at h
    · obtain ⟨rfl, rfl⟩ := of_refuse h
      exact ⟨rfl, rfl, by simp⟩
    · split at h
      · rename_i hcause
        obtain ⟨rfl, rfl⟩ := of_refuse h
        exact ⟨rfl, rfl, branchCause?_ne_neverClosed hcause⟩
      · simp at h
  | close closing =>
    simp only [process, hd, close] at h
    split at h
    · rename_i hs
      rw [hs]
      obtain ⟨rfl, rfl⟩ := of_refuse h
      exact ⟨rfl, rfl, by simp⟩
    · rename_i b outer hs
      split at h
      · simp at h
      · rename_i hclosing
        simp only [hs, ne_eq, hclosing, not_false_eq_true, decide_true, if_true]
        obtain ⟨rfl, rfl⟩ := of_refuse h
        exact ⟨by rw [dropInnermost, hs]; rfl, rfl, by simp⟩

/-- Every block that a line opens or goes on with has a scope. -/
theorem branch_ne_nil_process (hs : ∀ b ∈ s.blocks, b.branch ≠ []) (l : Line) (n : Nat) :
    ∀ b ∈ (s.process l n).1.blocks, b.branch ≠ [] := by
  have hmark : ∀ b ∈ s.markContent.blocks, b.branch ≠ [] := by
    intro b hb
    obtain ⟨b', hb', rfl⟩ := List.mem_map.mp hb
    exact hs b' hb'
  intro b hb
  cases hp : s.process l n with
  | mk s' result =>
    rw [hp] at hb
    cases result with
    | error fault =>
      rw [(process_of_error hp).1] at hb
      split at hb
      · exact hs b (List.mem_of_mem_tail hb)
      · exact hs b hb
    | ok tracked =>
      obtain ⟨line, -, rfl⟩ | ⟨line, closing, -, -, hs'⟩ | ⟨line, c, outer, -, hblocks, -, hs'⟩ |
        ⟨line, c, outer, -, hblocks, -, hs'⟩ := process_ok hp
      · exact hmark b hb
      · rw [hs', List.mem_cons] at hb
        obtain rfl | hb := hb
        · exact List.cons_ne_nil _ _
        · exact hmark b hb
      · rw [hs', List.mem_cons] at hb
        rw [hblocks] at hs
        obtain rfl | hb := hb
        · rw [c.branch_next]
          exact List.append_ne_nil_of_right_ne_nil _ (List.cons_ne_nil _ _)
        · exact hs b (List.mem_cons_of_mem c hb)
      · rw [hs'] at hb
        rw [hblocks] at hs
        exact hs b (List.mem_cons_of_mem c hb)

theorem Reachable.branch_ne_nil (h : Reachable file s) : ∀ b ∈ s.blocks, b.branch ≠ [] := by
  induction h with
  | empty => nofun
  | process _ l n ih => exact branch_ne_nil_process ih l n

theorem exists_innermost (h : s.closesWrongly l = true) : ∃ b outer, s.blocks = b :: outer := by
  refine List.exists_cons_of_ne_nil fun hs => ?_
  rw [closesWrongly, hs] at h
  cases hd : l.directive <;> simp [hd] at h

/-- The scopes in force are those of the outer blocks and then those of the innermost one. -/
theorem current_eq_append {b : OpenBlock} {outer : List OpenBlock} (hs : s.blocks = b :: outer) :
    s.current = s.dropInnermost.current ++ b.branch := by
  simp [current, dropInnermost, hs]

/-! ## Lines that are refused -/

/-- A line that is refused changes nothing that can be asked of the stack exactly if it is no
closing line of the wrong sort; then the stack is the same, and otherwise it has lost its innermost
block. -/
theorem unchanged_iff_of_error (hs : Reachable file s)
    (hrefused : (s.process l n).2 = .error fault) :
    (Unchanged s (s.process l n).1 ↔ s.closesWrongly l = false) ∧
      (s.process l n).1 = if s.closesWrongly l then s.dropInnermost else s := by
  have hleft : (s.process l n).1 = if s.closesWrongly l then s.dropInnermost else s :=
    (process_of_error (Prod.ext rfl hrefused)).1
  refine ⟨⟨fun hsame => ?_, fun hright => ?_⟩, hleft⟩
  · by_contra hwrong
    rw [Bool.not_eq_false] at hwrong
    obtain ⟨b, outer, hblocks⟩ := exists_innermost hwrong
    have hcurrent := hsame.current
    rw [hleft, if_pos hwrong, current_eq_append hblocks] at hcurrent
    exact hs.branch_ne_nil b (hblocks ▸ List.mem_cons_self) (List.self_eq_append_right.mp hcurrent)
  · rw [hleft, hright, if_neg (by decide)]
    exact ⟨rfl, rfl, rfl⟩

/-- In two blocks, a branch that the inner one cannot have, and the closing line of the outer
one. -/
theorem unchanged_iff_of_error_nested :
    let line := Line.classify Line.commentMarks
    let outer := ((empty "t.tcf").process (line "If Scenario == A") 1).1
    let inner := (outer.process (line "Define Event == Q") 2).1
    (∃ fault, (inner.process (line "Else") 3).2 = .error fault ∧
      Unchanged inner (inner.process (line "Else") 3).1) ∧
    ∃ fault, (inner.process (line "end if ! Q") 3).2 = .error fault ∧
      ¬ Unchanged inner (inner.process (line "end if ! Q") 3).1 := by
  intro line outer inner
  have hreachable : Reachable "t.tcf" inner := .process (.process .empty _ _) _ _
  have hbranch : (inner.process (line "Else") 3).2 =
      .error ⟨"t.tcf", 3, .noBranches .otherwise .eventVariable 2⟩ := by decide +kernel
  have hclose : (inner.process (line "end if ! Q") 3).2 =
      .error ⟨"t.tcf", 3, .wrongClose .endIf .eventVariable 2 .endDefine⟩ := by decide +kernel
  refine ⟨⟨_, hbranch, (unchanged_iff_of_error hreachable hbranch).1.mpr (by decide +kernel)⟩,
    _, hclose, fun hsame => ?_⟩
  have hright := (unchanged_iff_of_error hreachable hclose).1.mp hsame
  exact absurd hright (by decide +kernel)

/-- It does not hold that a line that is refused changes nothing. -/
theorem not_forall_unchanged : ¬ ∀ (file : Text) (s : BlockStack), Reachable file s →
    ∀ (marks line : Text) (n : Nat) (fault : Fault),
      (s.process (Line.classify marks line) n).2 = .error fault →
        Unchanged s (s.process (Line.classify marks line) n).1 := by
  intro h
  have hsame := h "t.tcf" _ (.process .empty (.classify Line.commentMarks "If Scenario == A") 1)
    Line.commentMarks "End Define" 2
    ⟨"t.tcf", 2, .wrongClose .endDefine .scenario 1 .endIf⟩ (by decide +kernel)
  exact absurd hsame.finish (by decide +kernel)

end ControlFiles.BlockStack
