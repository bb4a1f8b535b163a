import ControlFiles.Proofs.Block.Reopening
import ControlFiles.Proofs.ControlFile.Moving
import ControlFiles.Proofs.ControlFile.RoundTrip

/-!
# Reading what the writer writes

While generated text is read, the stack of open blocks mirrors the blocks that the writer had open
when it wrote the text (`Reading.Mirrors`). Each piece that the writer writes keeps the two together
(`Layout.Reads`): lines that close blocks, headers that open them, headers of branches, and
statements. So everything that is written for some entries is read without a fault, and the
statements come back (`Layout.reads_place`).
-/

namespace ControlFiles

theorem Text.ReadAs.indent {t : Text} {d : Directive} (h : t.ReadAs d) (depth : Nat) :
    (Layout.indent depth t).ReadAs d := by
  refine ⟨Layout.isLine_indent h.1 depth, ?_⟩
  rw [Line.classify_congr _ (Line.trim_indent depth t)]
  exact h.2

/-! ## States that mirror each other -/

/-- The block that is being read is the open block of the writer. -/
structure OpenLevel.Mirrors (o : OpenLevel) (b : OpenBlock) : Prop where
  source : o.level.leaf.source = none
  kind : b.kind = o.level.leaf.kind
  qualifier : b.qualifier.map Text.lower = o.level.leaf.qualifier.map Text.lower
  closing : o.level.leaf.kind.closing? = some b.closing
  seen : b.seen = o.seen
  hasElse : b.hasElse = o.level.isElse
  branch : ScopeList.Identical b.branch o.level.scopes

/-- The statement is that of the entry again: the text may have been blank, and the scopes agree. -/
structure Entry.Returns (e : Entry) (s : Statement) : Prop where
  kind : ∃ l ∈ e.line?, s.kind = l.statementKind
  raw : s.kind ≠ .blank → s.raw = e.text
  scope : ScopeList.Identical e.scope s.scope

namespace Reading

/-- The statements so far that are no placeholders. -/
def contents (r : Reading) : List Statement :=
  r.statements.reverse.filter fun s => s.kind ≠ .placeholder

/-- The blocks that are open are those of the writer, and the statements so far are those of the
entries `done`. -/
structure Mirrors (r : Reading) (blocks : List OpenLevel) (done : List Entry) : Prop where
  blocks : List.Forall₂ OpenLevel.Mirrors blocks.reverse r.stack.blocks
  contents : List.Forall₂ Entry.Returns done r.contents

/-- Block structure changes the stack, and adds nothing but a placeholder. -/
theorem step_structural {o : ReadOptions} {r : Reading} {l : Line} {n : Nat} {s : BlockStack}
    {placeholder : Option ScopeList}
    (h : r.stack.process l n = (s, .ok (.structural placeholder))) :
    ∃ r', r.step o l n = .ok r' ∧ r'.stack = s ∧ r'.contents = r.contents := by
  cases placeholder with
  | none => exact ⟨{ r with stack := s }, by simp only [step, h], rfl, rfl⟩
  | some scope =>
    refine ⟨_, by simp only [step, h]; rfl, rfl, ?_⟩
    simp [contents, add, Statement.placeholder]

/-- A line of content adds its statement under the scopes in force. -/
theorem step_statement (o : ReadOptions) (r : Reading) (l : ContentLine) (n : Nat) :
    ∃ r' id, r.step o l.line n = .ok r' ∧ r'.stack = r.stack.markContent ∧
      r'.contents = r.contents ++ [Statement.ofLine id l.line r.stack.current o.file n] := by
  refine ⟨_, .compute o.idFile l.line.text (r.texts.count l.line.text),
    by simp only [step, BlockStack.process_content]; rfl, rfl, ?_⟩
  simp [contents, add, Statement.ofLine, l.line.statementKind_ne_placeholder]

theorem steps_line {o : ReadOptions} {r r' : Reading} {t : Text} {n : Nat}
    (h : r.step o (Line.classify Line.commentMarks t) n = .ok r') :
    steps o r ([t].map (Line.classify Line.commentMarks)) n = .ok r' := by
  rw [List.map_singleton, steps_cons, h]
  rfl

namespace Mirrors

variable {r : Reading} {blocks : List OpenLevel} {o : OpenLevel} {done : List Entry}

/-- The innermost block that is being read is the innermost one of the writer. -/
theorem innermost (h : r.Mirrors (blocks ++ [o]) done) : ∃ b outer, r.stack.blocks = b :: outer ∧
    o.Mirrors b ∧ List.Forall₂ OpenLevel.Mirrors blocks.reverse outer := by
  have hblocks := h.blocks
  rw [List.reverse_append, List.reverse_singleton, List.singleton_append] at hblocks
  obtain ⟨b, outer, hb, houter, heq⟩ := List.forall₂_cons_left_iff.mp hblocks
  exact ⟨b, outer, heq, hb, houter⟩

/-- Another innermost block. -/
theorem push {r' : Reading} {b : OpenBlock} {outer : List OpenBlock} (ho : o.Mirrors b)
    (houter : List.Forall₂ OpenLevel.Mirrors blocks.reverse outer)
    (hblocks : r'.stack.blocks = b :: outer)
    (hdone : List.Forall₂ Entry.Returns done r'.contents) : r'.Mirrors (blocks ++ [o]) done := by
  refine ⟨?_, hdone⟩
  rw [List.reverse_append, List.reverse_singleton, List.singleton_append, hblocks]
  exact .cons ho houter

end Mirrors

end Reading

theorem OpenLevel.forall₂_mirrors_mark {blocks : List OpenLevel} {bs : List OpenBlock}
    (h : List.Forall₂ OpenLevel.Mirrors blocks bs) :
    List.Forall₂ OpenLevel.Mirrors blocks (bs.map OpenBlock.mark) :=
  List.forall₂_map_right_iff.mpr (h.imp fun _ _ ho =>
    ⟨ho.source, ho.kind, ho.qualifier, ho.closing, ho.seen, ho.hasElse, ho.branch⟩)

/-! ## Pieces of text -/

namespace Layout

/-- The lines are read without a fault, and take the mirrored state along. -/
def Reads (texts : List Text) (blocks : List OpenLevel) (done : List Entry)
    (blocks' : List OpenLevel) (done' : List Entry) : Prop :=
  ∀ (o : ReadOptions) (r : Reading) (n : Nat), r.Mirrors blocks done →
    (∀ t ∈ texts, Text.IsLine t) ∧
      ∃ r', Reading.steps o r (texts.map (Line.classify Line.commentMarks)) n = .ok r' ∧
        r'.Mirrors blocks' done'

namespace Reads

variable {texts texts' : List Text} {blocks blocks' blocks'' : List OpenLevel}
  {done done' done'' : List Entry}

theorem nil (blocks : List OpenLevel) (done : List Entry) : Reads [] blocks done blocks done :=
  fun _ r _ hr => ⟨by simp, r, rfl, hr⟩

theorem append (h : Reads texts blocks done blocks' done')
    (h' : Reads texts' blocks' done' blocks'' done'') :
    Reads (texts ++ texts') blocks done blocks'' done'' := by
  intro o r n hr
  obtain ⟨hlines, r', hsteps, hr'⟩ := h o r n hr
  obtain ⟨hlines', r'', hsteps', hr''⟩ :=
    h' o r' (n + (texts.map (Line.classify Line.commentMarks)).length) hr'
  refine ⟨fun t ht => ?_, r'', ?_, hr''⟩
  · rcases List.mem_append.mp ht with ht | ht
    · exact hlines t ht
    · exact hlines' t ht
  · rw [List.map_append]
    exact Reading.steps_append hsteps hsteps'

end Reads

/-! ## Closing blocks -/

theorem reads_close (depth : Nat) (blocks : List OpenLevel) (o : OpenLevel) (done : List Entry) :
    Reads (o.level.closeTexts.map (indent depth)) (blocks ++ [o]) done blocks done := by
  intro opts r n hr
  obtain ⟨b, outer, hblocks, ho, houter⟩ := hr.innermost
  have htexts : o.level.closeTexts = [b.closing.text] := by
    rw [Level.closeTexts, ho.closing, ho.source]
    rfl
  rw [htexts, List.map_singleton]
  obtain ⟨hline, hdirective⟩ := b.closing.readAs.indent depth
  let line : ClosingLine := ⟨Line.classify Line.commentMarks _, b.closing, hdirective⟩
  have hprocess := BlockStack.process_closing n hblocks (show b.closing = line.closing from rfl)
  obtain ⟨r', hstep, hstack, hcontents⟩ := Reading.step_structural (o := opts) hprocess
  refine ⟨by simpa using hline, r', Reading.steps_line hstep, ?_, ?_⟩
  · rw [hstack]
    exact houter
  · rw [hcontents]
    exact hr.contents

/-- The lines that close blocks leave those open that are around them. -/
theorem reads_closeAll (depth : Nat) (blocks inner : List OpenLevel) (done : List Entry) :
    Reads (closeAll depth inner) (blocks ++ inner) done blocks done := by
  induction inner generalizing depth blocks with
  | nil =>
    rw [List.append_nil]
    exact .nil blocks done
  | cons o inner ih =>
    rw [List.append_cons]
    exact (ih (depth + 1) (blocks ++ [o])).append (reads_close depth blocks o done)

/-! ## Opening blocks -/

theorem exists_closing {kind : ScopeKind} (h : kind ≠ .global) :
    ∃ closing, kind.closing? = some closing := by
  cases kind with
  | global => exact absurd rfl h
  | _ => exact ⟨_, rfl⟩

theorem mirrors_openBlock {q : Question} {names : List Text} (hq : q.Openable)
    (hnames : Listing names) (hne : names = [] ↔ q.kind.isAnonymous = true) {closing : Closing}
    (hclosing : q.kind.closing? = some closing) (text : Text) (n : Nat) :
    (OpenLevel.ofLevel ⟨none, .asking q names⟩).Mirrors
      (BlockStack.openBlock (q.header names) closing text n) where
  source := rfl
  kind := rfl
  qualifier := rfl
  closing := hclosing
  seen := by
    show (q.header names).nameList = _
    rw [q.nameList_header hnames]
    simp [OpenLevel.ofLevel, Level.uses]
  hasElse := rfl
  branch := by
    have h := Level.identical_withoutSource
      (.opening (q.header names) (BlockStack.sourceAt n n text))
    rw [Level.withoutSource_opening (Question.writable_header hq hnames hne),
      q.nameList_header hnames, hnames.addNew_eq] at h
    exact h

theorem reads_open (depth : Nat) (blocks : List OpenLevel) {l : Level} (hl : l.IsFirst)
    (done : List Entry) :
    Reads (l.openingTexts.map (indent depth)) blocks done (blocks ++ [.ofLevel l]) done := by
  intro opts r n hr
  obtain ⟨closing, hclosing⟩ := exists_closing hl.formed.kind
  cases hl with
  | @asking q names hq hnames hne =>
    have htexts : Level.openingTexts ⟨none, .asking q names⟩ =
        [Level.openText (.asking q names)] := rfl
    rw [htexts, List.map_singleton]
    obtain ⟨hline, hdirective⟩ := (Scope.readAs_openText hq hnames.isListed hne).indent depth
    let line : OpeningLine := ⟨Line.classify Line.commentMarks _, q.header names, hdirective⟩
    have hprocess := r.stack.process_opening n
      (show line.header.kind.closing? = some closing from hclosing)
    obtain ⟨r', hstep, hstack, hcontents⟩ := Reading.step_structural (o := opts) hprocess
    refine ⟨by simpa using hline, r', Reading.steps_line hstep,
      .push (mirrors_openBlock hq hnames hne hclosing _ n) ?_ (by rw [hstack]) ?_⟩
    · exact OpenLevel.forall₂_mirrors_mark hr.blocks
    · rw [hcontents]
      exact hr.contents

/-- The headers of levels that are opened open blocks for them. -/
theorem reads_openAll (depth : Nat) (blocks : List OpenLevel) {levels : List Level}
    (hlevels : ∀ l ∈ levels, l.IsFirst) (done : List Entry) :
    Reads (openAll depth levels) blocks done (blocks ++ levels.map .ofLevel) done := by
  induction levels generalizing depth blocks with
  | nil =>
    rw [List.map_nil, List.append_nil]
    exact .nil blocks done
  | cons l levels ih =>
    obtain ⟨hl, hlevels⟩ := List.forall_mem_cons.mp hlevels
    rw [List.map_cons, List.append_cons]
    exact (reads_open depth blocks hl done).append (ih (depth + 1) _ hlevels)

/-! ## Going on with a branch -/

/-- A name that comes behind those that were used is not among those that the block has seen. -/
theorem not_listed_of_listing {used seen names : List Text} (h : Listing (used ++ names))
    (hseen : used.map Text.lower = seen.map Text.lower) :
    ∀ name ∈ names, Text.listed seen name = false := by
  intro name hname
  have hdistinct := h.distinct
  rw [List.map_append, List.nodup_append] at hdistinct
  rw [Text.listed_eq_false_iff, ← hseen]
  exact fun hmem => hdistinct.2.2 _ hmem _ (List.mem_map_of_mem hname) rfl

section
variable {o : OpenLevel} {b : OpenBlock} {l k : Level} {q : Question} {used names : List Text}
  {line : BranchLine}

/-- What an open block asks is asked by the header of its next branch. -/
theorem question_of_mirrors (hb : o.Mirrors b) (ho : o.Holds l) (hk : l.Precedes k) :
    b.kind = k.leaf.kind ∧ Text.alike? b.qualifier k.leaf.qualifier = true := by
  have hsame := ho.sameBlock hk
  simp only [Scope.sameBlock, Bool.and_eq_true, beq_iff_eq, Text.alike?_iff] at hsame ⊢
  exact ⟨hb.kind.trans hsame.1, hb.qualifier.trans hsame.2⟩

theorem hasElse_of_mirrors (hb : o.Mirrors b) (ho : o.Holds l) (hk : l.Precedes k) :
    b.hasElse = false := hb.hasElse.trans (ho.notElse hk)

/-- The block that is being read goes on as that of the writer, if the scopes of its branch agree,
and it has seen the same names. -/
theorem mirrors_next (hb : o.Mirrors b) (ho : o.Holds l) (hk : l.Precedes k) (n : Nat)
    (hseen : b.seen ++ line.nameList = (o.advance k).seen)
    (helse : line.header?.isNone = k.isElse)
    (hbranch : ScopeList.Identical (b.next line n).branch k.scopes) :
    (o.advance k).Mirrors (b.next line n) := by
  obtain ⟨hkind, hqualifier⟩ := question_of_mirrors hb ho hk
  have hquestion := b.question_next line n
  have hkind' : (b.next line n).kind = b.kind := congrArg Question.kind hquestion
  have hqualifier' : (b.next line n).qualifier = b.qualifier :=
    congrArg Question.qualifier hquestion
  exact
    { source := hk.isLater.source
      kind := hkind'.trans hkind
      qualifier := by rw [hqualifier']; exact Text.alike?_iff.mp hqualifier
      closing := by
        rw [OpenBlock.closing_next, ← hb.closing, ← hb.kind, hkind]
        rfl
      seen := by rw [OpenBlock.seen_next, hseen]
      hasElse := by rw [OpenBlock.hasElse_next line n (hasElse_of_mirrors hb ho hk), helse]; rfl
      branch := hbranch }

/-- The scopes that reading makes for the next branch. -/
theorem identical_branch_next (b : OpenBlock) (line : BranchLine) (n : Nat) :
    ScopeList.Identical (b.next line n).branch
      (Level.later b.question b.seen (Closes.unknown.source b.line n line.line.text)
        line.header?).withoutSource.scopes := by
  rw [b.branch_next]
  exact Level.identical_withoutSource _

theorem identical_excluding {q q' : Question} {names names' : List Text} (fromElse : Bool)
    (hkind : q.kind = q'.kind) (hqualifier : Text.alike? q.qualifier q'.qualifier = true)
    (hnames : names.map Text.lower = names'.map Text.lower) :
    (Scope.excluding q names fromElse).identical (.excluding q' names' fromElse) = true :=
  Scope.identical_iff.mpr ⟨hkind, rfl, rfl, Text.alike?_iff.mp hqualifier, rfl, hnames⟩

/-- The block goes on with an `Else If` branch. -/
theorem mirrors_elseIf (hb : o.Mirrors b) (ho : o.Holds l)
    (hk : l.Precedes ⟨some (.excluding q used false), .asking q names⟩)
    (hused : used.map Text.lower = o.seen.map Text.lower) (hq : q.Readable)
    (hnames : Listing (used ++ names)) (hne : names ≠ [])
    (hline : line.header? = some (q.header names)) (n : Nat) : b.cause? line = none ∧
      (o.advance ⟨some (.excluding q used false), .asking q names⟩).Mirrors (b.next line n) := by
  obtain ⟨hkind, hqualifier⟩ := question_of_mirrors hb ho hk
  have hlisting := hnames.of_append_right
  have hlist : line.nameList = names := by
    rw [BranchLine.nameList, hline]
    exact q.nameList_header hlisting
  have hwritable := Question.writable_header hq.openable hlisting
    (by simp [hne, ScopeKind.isAnonymous_of_canBranch hq.canBranch])
  refine ⟨OpenBlock.cause?_eq_none.mpr ⟨hasElse_of_mirrors hb ho hk, ?_, ?_⟩,
    mirrors_next hb ho hk n ?_ ?_ ?_⟩
  · show b.kind.canBranch = true
    rw [hkind]
    exact hq.canBranch
  · intro h hh
    obtain rfl : q.header names = h := by simpa [hline] using hh
    rw [q.nameList_header hlisting, show b.question = ⟨b.kind, b.qualifier⟩ from rfl, hb.seen]
    exact ⟨hkind.symm, hqualifier, not_listed_of_listing hnames hused⟩
  · rw [hlist, hb.seen]
    simp [OpenLevel.advance]
  · rw [hline]
    rfl
  · refine (identical_branch_next b line n).trans ?_
    have hseen : Listing b.seen := hb.seen ▸ ho.listing
    rw [hline, Level.withoutSource_elseIf hseen.isListed hseen.plain hwritable, hseen.addNew_eq,
      q.nameList_header hlisting, hlisting.addNew_eq]
    refine .cons (identical_excluding false rfl (Text.alike?_refl _) ?_) (.cons ?_ .nil)
    · rw [hb.seen, hused]
    · exact Scope.identical_self _

/-- The block goes on with its `Else` branch. -/
theorem mirrors_else (hb : o.Mirrors b) (ho : o.Holds l)
    (hk : l.Precedes ⟨none, .excluding q used true⟩)
    (hused : used.map Text.lower = o.seen.map Text.lower) (hq : q.Readable)
    (hline : line.header? = none) (n : Nat) : b.cause? line = none ∧
      (o.advance ⟨none, .excluding q used true⟩).Mirrors (b.next line n) := by
  obtain ⟨hkind, hqualifier⟩ := question_of_mirrors hb ho hk
  refine ⟨OpenBlock.cause?_eq_none.mpr ⟨hasElse_of_mirrors hb ho hk, ?_, ?_⟩,
    mirrors_next hb ho hk n ?_ ?_ ?_⟩
  · show b.kind.canBranch = true
    rw [hkind]
    exact hq.canBranch
  · simp [hline]
  · rw [BranchLine.nameList, hline, hb.seen]
    simp [OpenLevel.advance]
  · rw [hline]
    rfl
  · refine (identical_branch_next b line n).trans ?_
    have hseen : Listing b.seen := hb.seen ▸ ho.listing
    rw [hline, Level.withoutSource_else hseen.isListed hseen.plain, hseen.addNew_eq]
    refine .cons (identical_excluding true hkind hqualifier ?_) .nil
    rw [hb.seen, hused]

end

/-- The header of the next branch is read as that of the block that stands for the one before. -/
theorem reads_branch (depth : Nat) (blocks : List OpenLevel) {o : OpenLevel} {l k : Level}
    (ho : o.Holds l) (hk : l.Precedes k) (done : List Entry) :
    Reads [indent depth k.branchText] (blocks ++ [o]) done (blocks ++ [o.advance k]) done := by
  intro opts r n hr
  obtain ⟨b, outer, hblocks, hb, houter⟩ := hr.innermost
  have hused := ho.map_lower_seen
  have hlater := hk.isLater
  generalize l.uses = used at hused hlater
  suffices h : ∃ line : BranchLine,
      line.line = Line.classify Line.commentMarks (indent depth k.branchText) ∧
        (indent depth k.branchText).IsLine ∧ b.cause? line = none ∧
          (o.advance k).Mirrors (b.next line n) by
    obtain ⟨line, hline, hisLine, hcause, hmirrors⟩ := h
    have hprocess := BlockStack.process_branch n hblocks hcause
    rw [hline] at hprocess
    obtain ⟨r', hstep, hstack, hcontents⟩ := Reading.step_structural (o := opts) hprocess
    refine ⟨by simpa using hisLine, r', Reading.steps_line hstep,
      .push hmirrors houter (by rw [hstack]) ?_⟩
    rw [hcontents]
    exact hr.contents
  cases hlater with
  | @elseIf q _ names hq hnames hne =>
    obtain ⟨hisLine, hdirective⟩ :=
      (Scope.readAs_elseText hq hnames.of_append_right.isListed hne).indent depth
    exact ⟨⟨_, some (q.header names), hdirective⟩, rfl, hisLine,
      mirrors_elseIf hb ho hk hused hq hnames hne rfl n⟩
  | @otherwise q _ hq _ =>
    obtain ⟨hisLine, hdirective⟩ := Text.readAs_else.indent depth
    exact ⟨⟨_, none, hdirective⟩, rfl, hisLine, mirrors_else hb ho hk hused hq rfl n⟩

theorem reads_move {p p' : List Level} (h : Level.Follows p p') {blocks : List OpenLevel}
    (hblocks : List.Forall₂ OpenLevel.Holds blocks p) (done : List Entry) :
    Reads (move blocks p').2 blocks done (move blocks p').1 done := by
  obtain ⟨kept, closed, path, opened, rfl, rfl, hcommon, hkept, hopened | hnext⟩ :=
    exists_common h hblocks
  · rw [move_isFirst hkept hcommon hopened]
    exact (reads_closeAll _ kept closed done).append (reads_openAll _ kept hopened done)
  · obtain ⟨o, inner, l, k, deep, rfl, rfl, ho, hk, hdeep⟩ := hnext
    rw [move_next hkept hcommon ho hk]
    have hclose := reads_closeAll (kept.length + 1) (kept ++ [o]) inner done
    have hbranch := reads_branch kept.length kept ho hk done
    have hopen := reads_openAll (kept.length + 1) (kept ++ [o.advance k]) hdeep done
    have := hclose.append (hbranch.append hopen)
    simpa only [List.append_assoc, List.singleton_append] using this

/-! ## Statements -/

/-- The scopes in force while the text is read are those of the levels that the writer is inside. -/
theorem identical_current {blocks : List OpenLevel} {s : BlockStack} {path : List Level}
    (hs : List.Forall₂ OpenLevel.Mirrors blocks.reverse s.blocks)
    (hpath : List.Forall₂ OpenLevel.Holds blocks path) :
    ScopeList.Identical (Level.scopeList path) s.current := by
  have hs' : List.Forall₂ OpenLevel.Mirrors blocks s.blocks.reverse := by
    have := List.rel_reverse hs
    rwa [List.reverse_reverse] at this
  refine .cons (Scope.identical_self _) ?_
  clear hs
  generalize s.blocks.reverse = bs at hs'
  induction hs' generalizing path with
  | nil =>
    cases hpath
    exact .nil
  | cons hb _ ih =>
    cases hpath with
    | cons ho hpath =>
      rw [List.flatMap_cons, List.flatMap_cons]
      exact List.rel_append (ho.agrees.symm.trans hb.branch.symm) (ih hpath)

end Layout

namespace Line

variable {l : Line}

theorem reread_eq_cleared (hplain : l.directive = .none) (h : l.Sound) : l.reread = l.cleared := by
  have hwritten := ContentLine.written_cleared 0 ⟨l, hplain⟩
  rw [← h.returns]
  show classify commentMarks (l.written 0) = classify commentMarks (l.cleared.written 0)
  exact congrArg _ hwritten.symm

end Line

namespace Layout

/-- A line of content is read as a statement under the scopes of its entry. -/
theorem reads_entry (depth : Nat) {blocks : List OpenLevel} {e : Entry}
    (hblocks : List.Forall₂ OpenLevel.Holds blocks e.path)
    (hline : ∀ l ∈ e.line?, l.directive = .none ∧ l.Sound) (done : List Entry) :
    Reads (entryLines depth e) blocks done blocks
      (done ++ [e].filter fun e => e.line?.isSome) := by
  cases hl : e.line? with
  | none =>
    simp only [entryLines, hl, Option.map_none, Option.toList_none, List.filter_cons,
      Option.isSome_none, Bool.false_eq_true, if_false, List.filter_nil, List.append_nil]
    exact .nil blocks done
  | some l =>
    obtain ⟨hplain, hsound⟩ := hline l hl
    have hcleared := Line.reread_eq_cleared hplain hsound
    intro opts r n hr
    let line : ContentLine := ⟨l.reread, by
      rw [hcleared]
      exact (ContentLine.cleared ⟨l, hplain⟩).plain⟩
    obtain ⟨r', id, hstep, hstack, hcontents⟩ := Reading.step_statement opts r line n
    have hstep' : r.step opts (Line.classify Line.commentMarks (l.written depth)) n = .ok r' := by
      rw [Line.classify_written]
      exact hstep
    simp only [entryLines, hl, Option.map_some, Option.toList_some, List.filter_cons,
      Option.isSome_some, if_true, List.filter_nil]
    refine ⟨by simpa using isLine_written hsound.isLine depth, r', Reading.steps_line hstep', ?_,
      ?_⟩
    · rw [hstack]
      exact OpenLevel.forall₂_mirrors_mark hr.blocks
    · rw [hcontents]
      refine List.rel_append hr.contents (.cons ⟨⟨l, hl, ?_⟩, fun hkind => ?_, ?_⟩ .nil)
      · show l.reread.statementKind = l.statementKind
        rw [hcleared, Line.statementKind_cleared]
      · have hkind' : l.reread.statementKind ≠ .blank := hkind
        rw [hcleared, Line.statementKind_cleared] at hkind'
        show l.reread.text = e.text
        rw [hcleared, Line.cleared_of_statementKind hkind', Entry.text, hl]
        rfl
      · exact identical_current hr.blocks hblocks

/-- Everything that is written for some entries is read, and all blocks are closed behind it. -/
theorem reads_place {es : List Entry} {blocks : List OpenLevel} {p p' : List Level}
    (h : Walks p' p es) (hblocks : List.Forall₂ OpenLevel.Holds blocks p)
    (hlines : ∀ e ∈ es, ∀ l ∈ e.line?, l.directive = .none ∧ l.Sound) (done : List Entry) :
    Reads (place blocks es) blocks done [] (done ++ es.filter fun e => e.line?.isSome) := by
  induction es generalizing blocks p done with
  | nil =>
    rw [List.filter_nil, List.append_nil]
    exact reads_closeAll 0 [] blocks done
  | cons e es ih =>
    obtain ⟨hfollows, hwalks⟩ := h
    obtain ⟨hline, hlines⟩ := List.forall_mem_cons.mp hlines
    have hmoved := holds_move hfollows hblocks
    have hmove := reads_move hfollows hblocks done
    have hentry := reads_entry (move blocks e.path).1.length hmoved hline done
    have hrest := ih hwalks hmoved hlines (done ++ [e].filter fun e => e.line?.isSome)
    have hfilter : (e :: es).filter (fun e => e.line?.isSome) =
        ([e].filter fun e => e.line?.isSome) ++ es.filter fun e => e.line?.isSome :=
      List.filter_append [e] es
    rw [place_cons, hfilter, ← List.append_assoc done]
    exact hmove.append (hentry.append hrest)

end Layout

end ControlFiles
