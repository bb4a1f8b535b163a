import ControlFiles.Proofs.Block.Refusing
import ControlFiles.Proofs.ControlFile.Mirroring

/-!
# The block grammar

`IsBody` is the grammar of block structure, as rules on the directives of lines: which headers and
closing lines may stand in which block. The stack of open blocks accepts exactly the texts that it
derives, and refuses a line as soon as no text that begins so is derived (`accepts_iff_isBody`).

The rules are those of a valid outline (`Outline.isBody`, `IsBody.exists_outline`). What is read
without a fault can be completed by the closing lines of the blocks that are open
(`ReadOptions.exists_accepts_of_steps`), unless the comment marks hide these lines.
-/

namespace ControlFiles

/-! ## The grammar -/

mutual

/-- A body: lines of content and whole blocks in any order. -/
inductive IsBody : List Directive → Prop where
  | nil : IsBody []
  | content {rest : List Directive} (hrest : IsBody rest) : IsBody (.none :: rest)
  | block {h : Header} {closing : Closing} {first more rest : List Directive}
      (hclosing : h.kind.closing? = some closing) (hfirst : IsBody first)
      (hmore : IsContinuation h.question h.nameList more) (hrest : IsBody rest) :
      IsBody (.opening h :: (first ++ (more ++ .close closing :: rest)))

/-- What follows the first body of a block with the question `q`, of which the headers so far list
the names `seen`: `Else If` headers, each with a body, and at the end at most one `Else` with a
body. -/
inductive IsContinuation : Question → List Text → List Directive → Prop where
  | nil {q : Question} {seen : List Text} : IsContinuation q seen []
  | elseIf {q : Question} {seen : List Text} {h : Header} {body more : List Directive}
      (hbranch : q.kind.canBranch = true) (hkind : h.kind = q.kind)
      (hqualifier : Text.alike? q.qualifier h.qualifier = true)
      (hnew : ∀ name ∈ h.nameList, Text.listed seen name = false) (hbody : IsBody body)
      (hmore : IsContinuation q (seen ++ h.nameList) more) :
      IsContinuation q seen (.elseIf h :: (body ++ more))
  | otherwise {q : Question} {seen : List Text} {body : List Directive}
      (hbranch : q.kind.canBranch = true) (hbody : IsBody body) :
      IsContinuation q seen (.otherwise :: body)

end

/-- The directives of some lines. -/
def directives (ls : List Line) : List Directive := ls.map Line.directive

@[simp] theorem directives_nil : directives [] = [] := rfl

@[simp] theorem directives_cons (l : Line) (ls : List Line) :
    directives (l :: ls) = l.directive :: directives ls := rfl

@[simp] theorem directives_append (a b : List Line) :
    directives (a ++ b) = directives a ++ directives b := List.map_append

theorem Branches.eq_nil_of_valid_true {q : Question} {seen : List Text} :
    ∀ {t : Branches}, t.Valid q seen true → t = .nil
  | .nil, _ => rfl
  | .branch _ _ _, h => by cases h.1

mutual

/-- The lines of a valid outline are a body. -/
theorem Outline.isBody : ∀ (t : Outline), t.Valid → IsBody (directives t.lines)
  | .nil, _ => .nil
  | .line l rest, hv => by
    rw [Outline.lines, directives_cons, l.plain]
    exact .content (Outline.isBody rest hv)
  | .block head first more close rest, hv => by
    obtain ⟨hclosing, hfirst, hmore, hrest⟩ := hv
    rw [Outline.lines, directives_cons, directives_append, directives_append, directives_cons,
      head.opens, close.closes]
    exact .block hclosing (Outline.isBody first hfirst) (Branches.isContinuation more hmore)
      (Outline.isBody rest hrest)

theorem Branches.isContinuation : ∀ (t : Branches) {q : Question} {seen : List Text},
    t.Valid q seen false → IsContinuation q seen (directives t.lines)
  | .nil, _, _, _ => .nil
  | .branch head body more, q, seen, hv => by
    obtain ⟨-, ⟨hbranch, hadmits⟩, hbody, hmore⟩ := hv
    have hdirective := head.branches
    have hnames : head.nameList = (head.header?.map Header.nameList).getD [] := rfl
    rw [Branches.lines, directives_cons, directives_append, hdirective]
    cases hh : head.header? with
    | none =>
      rw [hh] at hmore
      obtain rfl := Branches.eq_nil_of_valid_true hmore
      simpa [Branches.lines] using .otherwise hbranch (Outline.isBody body hbody)
    | some h =>
      obtain ⟨hkind, hqualifier, hnew⟩ := hadmits h hh
      rw [hh, hnames, hh] at hmore
      exact .elseIf hbranch hkind hqualifier hnew (Outline.isBody body hbody)
        (Branches.isContinuation more hmore)

end

mutual

theorem IsBody.exists_outline : ∀ {ds : List Directive}, IsBody ds → ∀ {ls : List Line},
    directives ls = ds → ∃ t : Outline, t.Valid ∧ t.lines = ls
  | _, .nil, ls, hls => ⟨.nil, trivial, (List.map_eq_nil_iff.mp hls).symm⟩
  | _, .content hrest, ls, hls => by
    obtain ⟨l, ls, rfl, hl, hls⟩ := List.map_eq_cons_iff.mp hls
    obtain ⟨t, ht, rfl⟩ := IsBody.exists_outline hrest hls
    exact ⟨.line ⟨l, hl⟩ t, ht, rfl⟩
  | _, .block hclosing hfirst hmore hrest, ls, hls => by
    obtain ⟨l, inner, rfl, hl, hinner⟩ := List.map_eq_cons_iff.mp hls
    obtain ⟨a, later, rfl, ha, hlater⟩ := List.map_eq_append_iff.mp hinner
    obtain ⟨b, last, rfl, hb, hlast⟩ := List.map_eq_append_iff.mp hlater
    obtain ⟨k, c, rfl, hk, hc⟩ := List.map_eq_cons_iff.mp hlast
    obtain ⟨first, hfirst, rfl⟩ := IsBody.exists_outline hfirst ha
    obtain ⟨more, hmore, rfl⟩ := IsContinuation.exists_branches hmore hb
    obtain ⟨rest, hrest, rfl⟩ := IsBody.exists_outline hrest hc
    exact ⟨.block ⟨l, _, hl⟩ first more ⟨k, _, hk⟩ rest, ⟨hclosing, hfirst, hmore, hrest⟩, rfl⟩

theorem IsContinuation.exists_branches : ∀ {q : Question} {seen : List Text} {ds : List Directive},
    IsContinuation q seen ds → ∀ {ls : List Line}, directives ls = ds →
      ∃ t : Branches, t.Valid q seen false ∧ t.lines = ls
  | _, _, _, .nil, ls, hls => ⟨.nil, trivial, (List.map_eq_nil_iff.mp hls).symm⟩
  | q, seen, _, .elseIf (h := h) hbranch hkind hqualifier hnew hbody hmore, ls, hls => by
    obtain ⟨l, ls, rfl, hl, hls⟩ := List.map_eq_cons_iff.mp hls
    obtain ⟨a, b, rfl, ha, hb⟩ := List.map_eq_append_iff.mp hls
    obtain ⟨body, hbody, rfl⟩ := IsBody.exists_outline hbody ha
    obtain ⟨more, hmore, rfl⟩ := IsContinuation.exists_branches hmore hb
    refine ⟨.branch ⟨l, some h, hl⟩ body more, ⟨rfl, ⟨hbranch, fun h' hh => ?_⟩, hbody, hmore⟩, rfl⟩
    obtain rfl := Option.mem_some.mp hh
    exact ⟨hkind, hqualifier, hnew⟩
  | q, seen, _, .otherwise hbranch hbody, ls, hls => by
    obtain ⟨l, ls, rfl, hl, hls⟩ := List.map_eq_cons_iff.mp hls
    obtain ⟨body, hbody, rfl⟩ := IsBody.exists_outline hbody hls
    exact ⟨.branch ⟨l, none, hl⟩ body .nil, ⟨rfl, ⟨hbranch, nofun⟩, hbody, trivial⟩,
      by simp [Branches.lines]⟩

end

/-! ## First lines -/

namespace ReadOptions

variable (o : ReadOptions)

theorem linesOf_of_split {t last : Text} {ended : List Text}
    (h : Text.split '\n' t = ended ++ [last]) :
    o.linesOf t = (ended ++ (Text.nonempty? last).toList).map (Line.classify o.marks) := by
  have hdrop : ∀ l : Text, Line.classify o.marks (Text.dropReturn l) = Line.classify o.marks l :=
    fun l => by simp only [Line.classify, Text.trim_dropReturn]
  rw [linesOf, Text.lines_of_split h, List.map_append, List.map_append, List.map_map]
  exact congrArg (· ++ _) (List.map_congr_left fun l _ => hdrop l)

/-- What stands behind the first lines of a text does not change how they are read. -/
theorem linesOf_firstLines_append {n : Nat} {t : Text} (hn : n ≤ (o.linesOf t).length)
    (rest : Text) :
    o.linesOf (Text.firstLines n t ++ rest) = (o.linesOf t).take n ++ o.linesOf rest := by
  obtain ⟨ended, last, ht⟩ := Text.exists_split t
  obtain ⟨ended', last', hrest⟩ := Text.exists_split rest
  have hfeed : ∀ l ∈ (ended ++ [last]).take n, '\n' ∉ l := fun l hl =>
    Text.not_mem_of_mem_split (ht ▸ List.mem_of_mem_take hl)
  have htake : (ended ++ [last]).take n = (ended ++ (Text.nonempty? last).toList).take n := by
    rw [o.linesOf_of_split ht, List.length_map] at hn
    rw [Text.nonempty?] at hn ⊢
    split at hn
    · rename_i hlast
      rw [if_pos hlast, List.take_append_of_le_length (by simpa using hn)]
      simp
    · rename_i hlast
      rw [if_neg hlast]
      rfl
  have hsplit := Text.split_unlines_append hfeed rest
  rw [hrest, ← List.append_assoc, htake] at hsplit
  rw [Text.firstLines, ht, htake, o.linesOf_of_split hsplit, o.linesOf_of_split ht,
    o.linesOf_of_split hrest]
  simp only [List.map_append, List.map_take, List.append_assoc]

end ReadOptions

/-! ## Refusal -/

namespace Fault

/-- Every line was read, and a block is left open. -/
def IsOfEnd (e : Fault) : Prop := ∃ kind closing, e.cause = .neverClosed kind closing

end Fault

namespace Reading

variable {o : ReadOptions} {r : Reading} {fault : Fault}

theorem step_error {l : Line} {n : Nat} (h : r.step o l n = .error fault) :
    fault.line = n ∧ ¬ fault.IsOfEnd := by
  cases hp : r.stack.process l n with
  | mk s tracked =>
    simp only [step, hp] at h
    split at h
    · obtain rfl := Except.error.inj h
      obtain ⟨-, hline, hcause⟩ := BlockStack.process_of_error hp
      refine ⟨hline, ?_⟩
      rintro ⟨kind, closing, hend⟩
      exact hcause kind closing hend
    all_goals cases h

/-- Reading stops at the first line that is refused. -/
theorem steps_error {ls : List Line} {n : Nat} (h : steps o r ls n = .error fault) :
    ∃ before l after r', ls = before ++ l :: after ∧ steps o r before n = .ok r' ∧
      r'.step o l (n + before.length) = .error fault := by
  induction ls generalizing r n with
  | nil => cases h
  | cons l ls ih =>
    rw [steps_cons] at h
    cases hstep : r.step o l n with
    | error e =>
      simp only [hstep] at h
      obtain rfl := Except.error.inj h
      exact ⟨[], l, ls, r, rfl, rfl, hstep⟩
    | ok r₁ =>
      simp only [hstep] at h
      obtain ⟨before, l', after, r', rfl, hbefore, hl'⟩ := ih h
      refine ⟨l :: before, l', after, r', rfl, steps_of_step hstep hbefore, ?_⟩
      rwa [List.length_cons, Nat.add_comm before.length, ← Nat.add_assoc]

/-- No line behind one that is refused is looked at. -/
theorem steps_append_error {before : List Line} {l : Line} {n : Nat} {r' : Reading}
    (hbefore : steps o r before n = .ok r')
    (hl : r'.step o l (n + before.length) = .error fault) (after : List Line) :
    steps o r (before ++ l :: after) n = .error fault := by
  induction before generalizing r n with
  | nil =>
    obtain rfl := Except.ok.inj hbefore
    rw [List.nil_append, steps_cons, show r.step o l n = _ from hl]
  | cons b before ih =>
    rw [steps_cons] at hbefore
    rw [List.cons_append, steps_cons]
    cases hstep : r.step o b n with
    | error e => simp [hstep] at hbefore
    | ok r₁ =>
      simp only [hstep] at hbefore ⊢
      rw [List.length_cons, Nat.add_comm before.length, ← Nat.add_assoc] at hl
      exact ih hbefore hl

theorem exists_steps_of_append {before after : List Line} {n : Nat} {r' : Reading}
    (h : steps o r (before ++ after) n = .ok r') : ∃ r₁, steps o r before n = .ok r₁ := by
  cases hb : steps o r before n with
  | ok r₁ => exact ⟨r₁, rfl⟩
  | error fault =>
    obtain ⟨front, l, later, r₁, rfl, hfront, hl⟩ := steps_error hb
    rw [List.append_assoc, List.cons_append, steps_append_error hfront hl] at h
    cases h

end Reading

/-! ## Completion -/

namespace ReadOptions

/-- The text is read without a fault. -/
def Accepts (o : ReadOptions) (text : Text) : Prop := ∃ ss, readStatements o text = .ok ss

/-- No comment mark hides a closing line. -/
def CanClose (o : ReadOptions) : Prop :=
  ∀ closing : Closing, (Line.classify o.marks closing.text).directive = .close closing

theorem canClose_commentMarks (file idFile : Text) :
    CanClose ⟨Line.commentMarks, file, idFile⟩ := fun closing => closing.readAs.2

variable {o : ReadOptions} {text : Text}

theorem accepts_iff : o.Accepts text ↔
    ∃ r, Reading.steps o ⟨.empty o.file, [], []⟩ (o.linesOf text) 1 = .ok r ∧
      r.stack.blocks = [] := by
  constructor
  · rintro ⟨ss, h⟩
    obtain ⟨r, hsteps, hblocks, -⟩ := readStatements_eq_ok.mp h
    exact ⟨r, hsteps, hblocks⟩
  · rintro ⟨r, hsteps, hblocks⟩
    exact ⟨_, readStatements_eq_ok.mpr ⟨r, hsteps, hblocks, rfl⟩⟩

end ReadOptions

/-- The closing lines of the open blocks, the innermost first, close them all. -/
theorem Reading.exists_steps_closing {o : ReadOptions} (ho : o.CanClose) {r : Reading} (n : Nat)
    {blocks : List OpenBlock} (hblocks : r.stack.blocks = blocks) :
    ∃ r', Reading.steps o r (blocks.map fun b => Line.classify o.marks b.closing.text) n = .ok r' ∧
      r'.stack.blocks = [] := by
  induction blocks generalizing r n with
  | nil => exact ⟨r, rfl, hblocks⟩
  | cons b outer ih =>
    let line : ClosingLine := ⟨Line.classify o.marks b.closing.text, b.closing, ho b.closing⟩
    have hprocess : r.stack.process line.line n = _ := BlockStack.process_closing n hblocks rfl
    obtain ⟨r₁, hstep, hstack, -⟩ := Reading.step_structural (o := o) hprocess
    have hr₁ : r₁.stack.blocks = outer := by rw [hstack]
    obtain ⟨r', hsteps, hr'⟩ := ih (n + 1) hr₁
    exact ⟨r', Reading.steps_of_step hstep hsteps, hr'⟩

theorem Closing.isLine_text (closing : Closing) : Text.IsLine closing.text := closing.readAs.1

/-- Lines that are read without a fault begin a text that is accepted. -/
theorem ReadOptions.exists_accepts_of_steps {o : ReadOptions} (ho : o.CanClose) {text : Text}
    {n : Nat} {r : Reading} (hn : n ≤ (o.linesOf text).length)
    (h : Reading.steps o ⟨.empty o.file, [], []⟩ ((o.linesOf text).take n) 1 = .ok r) :
    ∃ rest, o.Accepts (Text.firstLines n text ++ rest) := by
  let closings := r.stack.blocks.map fun b => b.closing.text
  obtain ⟨r', hsteps, hr'⟩ :=
    r.exists_steps_closing ho (1 + ((o.linesOf text).take n).length) rfl
  have hclosings : o.linesOf (Text.unlines closings) =
      r.stack.blocks.map fun b => Line.classify o.marks b.closing.text := by
    rw [linesOf, Text.lines_unlines, List.map_map]
    · rfl
    · intro l hl
      obtain ⟨b, -, rfl⟩ := List.mem_map.mp hl
      exact b.closing.isLine_text
  refine ⟨Text.unlines closings, accepts_iff.mpr ⟨r', ?_, hr'⟩⟩
  rw [o.linesOf_firstLines_append hn, hclosings]
  exact Reading.steps_append h hsteps

/-- The block that a fault at the end names was opened on a line of the text. -/
theorem BlockStack.process_opened_lt {s s' : BlockStack} {l : Line} {n : Nat} {tracked : Tracked}
    (h : s.process l n = (s', .ok tracked)) (hs : ∀ b ∈ s.blocks, b.line < n) :
    ∀ b ∈ s'.blocks, b.line < n + 1 := by
  have hmark : ∀ b ∈ s.markContent.blocks, b.line < n := by
    intro b hb
    obtain ⟨b', hb', rfl⟩ := List.mem_map.mp hb
    exact hs b' hb'
  intro b hb
  obtain ⟨line, -, rfl⟩ | ⟨line, closing, -, -, hs'⟩ | ⟨line, c, outer, -, hblocks, -, hs'⟩ |
    ⟨line, c, outer, -, hblocks, -, hs'⟩ := process_ok h
  · exact Nat.lt_succ_of_lt (hmark b hb)
  · rw [hs', List.mem_cons] at hb
    obtain rfl | hb := hb
    · exact Nat.lt_succ_self n
    · exact Nat.lt_succ_of_lt (hmark b hb)
  · rw [hs', List.mem_cons] at hb
    rw [hblocks] at hs
    obtain rfl | hb := hb
    · have hline : (c.next line n).line = c.line := by
        rw [OpenBlock.next]
        split <;> rfl
      rw [hline]
      exact Nat.lt_succ_of_lt (hs c List.mem_cons_self)
    · exact Nat.lt_succ_of_lt (hs b (List.mem_cons_of_mem c hb))
  · rw [hs'] at hb
    rw [hblocks] at hs
    exact Nat.lt_succ_of_lt (hs b (List.mem_cons_of_mem c hb))

theorem Reading.steps_opened_lt {o : ReadOptions} {ls : List Line} {r r' : Reading} {n : Nat}
    (h : steps o r ls n = .ok r') (hr : ∀ b ∈ r.stack.blocks, b.line < n) :
    ∀ b ∈ r'.stack.blocks, b.line < n + ls.length := by
  induction ls generalizing r n with
  | nil =>
    obtain rfl := Except.ok.inj h
    exact hr
  | cons l ls ih =>
    rw [steps_cons] at h
    cases hstep : r.step o l n with
    | error fault => simp [hstep] at h
    | ok r₁ =>
      simp only [hstep] at h
      obtain ⟨tracked, hp⟩ := process_of_step hstep
      rw [List.length_cons, Nat.add_comm ls.length, ← Nat.add_assoc]
      exact ih h (BlockStack.process_opened_lt hp hr)

/-- What a text that is not accepted is refused for: a line, behind lines that are read without a
fault, or a block that is open at the end. -/
theorem ReadOptions.refused_cases {o : ReadOptions} {text : Text} {fault : Fault}
    (h : readStatements o text = .error fault) :
    (∃ before l after r, o.linesOf text = before ++ l :: after ∧
      Reading.steps o ⟨.empty o.file, [], []⟩ before 1 = .ok r ∧
        r.step o l (1 + before.length) = .error fault) ∨
    ∃ r b outer, Reading.steps o ⟨.empty o.file, [], []⟩ (o.linesOf text) 1 = .ok r ∧
      r.stack.blocks = b :: outer ∧
        fault = ⟨r.stack.file, b.line, .neverClosed b.kind b.closing⟩ := by
  rw [readStatements] at h
  cases hr : Reading.steps o ⟨.empty o.file, [], []⟩ (o.linesOf text) 1 with
  | error e =>
    simp only [hr] at h
    obtain rfl := Except.error.inj h
    exact .inl (Reading.steps_error hr)
  | ok r =>
    cases hblocks : r.stack.blocks with
    | nil => simp [hr, BlockStack.finish, hblocks] at h
    | cons b outer =>
      simp only [hr, BlockStack.finish, hblocks] at h
      exact .inr ⟨r, b, outer, rfl, hblocks, (Except.error.inj h).symm⟩

/-- A text is accepted exactly if its directives are a body of the block grammar. The lines before
the one that a fault names begin a text that is accepted; together with this line they do so only
if the fault is that the block is open at the end. -/
theorem accepts_iff_isBody (o : ReadOptions) (text : Text) :
    (o.Accepts text ↔ IsBody (directives (o.linesOf text))) ∧
    (o.CanClose → ∀ fault, readStatements o text = .error fault →
      (∃ rest, o.Accepts (Text.firstLines (fault.line - 1) text ++ rest)) ∧
        ((∃ rest, o.Accepts (Text.firstLines fault.line text ++ rest)) ↔ fault.IsOfEnd)) := by
  refine ⟨⟨fun ⟨ss, h⟩ => ?_, fun h => ?_⟩, fun ho fault h => ?_⟩
  · obtain ⟨t, ht, hlines⟩ := exists_valid_of_readStatements h
    rw [← hlines]
    exact t.isBody ht
  · obtain ⟨t, ht, hlines⟩ := h.exists_outline rfl
    obtain ⟨ss, hss, -⟩ := readStatements_of_valid ht hlines
    exact ⟨ss, hss⟩
  obtain ⟨before, l, after, r, hls, hbefore, hl⟩ | ⟨r, b, outer, hsteps, hblocks, rfl⟩ :=
    ReadOptions.refused_cases h
  · obtain ⟨hline, hend⟩ := Reading.step_error hl
    have hlen : (o.linesOf text).length = before.length + after.length + 1 := by
      rw [hls, List.length_append, List.length_cons, Nat.add_assoc]
    rw [hline]
    refine ⟨?_, iff_of_false (fun ⟨rest, haccepts⟩ => ?_) hend⟩
    · rw [Nat.add_sub_cancel_left]
      refine ReadOptions.exists_accepts_of_steps ho (by omega) (r := r) ?_
      rwa [hls, List.take_left]
    · obtain ⟨r', hr', -⟩ := ReadOptions.accepts_iff.mp haccepts
      have hlines : o.linesOf (Text.firstLines (1 + before.length) text ++ rest) =
          before ++ l :: o.linesOf rest := by
        rw [o.linesOf_firstLines_append (by omega), hls, Nat.add_comm, List.take_add_one,
          List.take_left]
        simp
      rw [hlines, Reading.steps_append_error hbefore hl] at hr'
      cases hr'
  · have hline : b.line < 1 + (o.linesOf text).length :=
      Reading.steps_opened_lt hsteps (by simp [BlockStack.empty]) b (by simp [hblocks])
    -- Reading went through the first lines too, on its way to the end.
    have hfirst : ∀ n ≤ (o.linesOf text).length,
        ∃ rest, o.Accepts (Text.firstLines n text ++ rest) := by
      intro n hn
      rw [← List.take_append_drop n (o.linesOf text)] at hsteps
      obtain ⟨r', hr'⟩ := Reading.exists_steps_of_append hsteps
      exact ReadOptions.exists_accepts_of_steps ho hn hr'
    exact ⟨hfirst (b.line - 1) (by omega), iff_of_true (hfirst b.line (by omega)) ⟨_, _, rfl⟩⟩

/-- A closing line of the wrong sort is refused, and a right one in its place is not. -/
theorem accepts_iff_isBody_wrongClose :
    let o : ReadOptions := ⟨Line.commentMarks, "m.tcf", "m.tcf"⟩
    let text : Text := "If Scenario == A\nX\nEnd Define\n"
    readStatements o text = .error ⟨"m.tcf", 3, .wrongClose .endDefine .scenario 1 .endIf⟩ ∧
      (∃ rest, o.Accepts (Text.firstLines 2 text ++ rest)) ∧
      ¬ ∃ rest, o.Accepts (Text.firstLines 3 text ++ rest) := by
  intro o text
  have h : readStatements o text =
      .error ⟨"m.tcf", 3, .wrongClose .endDefine .scenario 1 .endIf⟩ := by rfl
  obtain ⟨hbefore, hrefused⟩ :=
    (accepts_iff_isBody o text).2 (ReadOptions.canClose_commentMarks _ _) _ h
  exact ⟨h, hbefore, mt hrefused.mp (by rintro ⟨kind, closing, hcause⟩; cases hcause)⟩

end ControlFiles
