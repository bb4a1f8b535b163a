import ControlFiles.ControlFile.Edit
import ControlFiles.Proofs.ControlFile.Findings
import ControlFiles.Proofs.ControlFile.Regenerated
import ControlFiles.Proofs.ControlFile.Undoing
import ControlFiles.Proofs.Line.Composing
import ControlFiles.Run.Resolve

/-!
# Statements with another text

To comment a statement out, to make a statement of a comment and to change a value is to give the
statement another text (`Statement.withText`), which is then read like any line. A statement that
was read from a line is what its own text says, but for what was loaded for it
(`Statement.IsRead`), and a parsed file holds such statements and placeholders
(`ControlFile.IsParsed.isRead_or`). So a statement that is commented out and back is the same again,
but what was loaded for it is gone (`ControlFile.uncomment_commentOut`).
-/

namespace ControlFiles

/-! ## Statements that were read -/

/-- The statement is read from its own text: this is one line and no block structure, and says all
that the statement says. -/
structure Statement.IsRead (s : Statement) : Prop where
  no_feed : '\n' ∉ s.raw
  plain : (Line.classify Line.commentMarks s.raw).directive = .none
  again : s.withText s.raw = s.alone

/-- The file is that of a text, read with the usual comment marks, with what was loaded for its
statements. -/
def ControlFile.IsParsed (f : ControlFile) : Prop :=
  ∃ text, readStatements (.ofPath Line.commentMarks f.path) text =
    .ok (f.statements.map Statement.alone)

namespace Statement

variable {s : Statement}

theorem withText_withText (s : Statement) (a b : Text) :
    (s.withText a).withText b = s.withText b := rfl

theorem isRead_alone : s.alone.IsRead ↔ s.IsRead :=
  ⟨fun h => ⟨h.no_feed, h.plain, h.again⟩, fun h => ⟨h.no_feed, h.plain, h.again⟩⟩

/-- What is read from a line is read again from its text. -/
theorem isRead_ofText {line : Text} (hfeed : '\n' ∉ line)
    (hplain : (Line.classify Line.commentMarks line).directive = .none) (id : StatementId)
    (scope : ScopeList) (file : Text) (lineNo : Nat) :
    (ofText id line scope file lineNo).IsRead := by
  have hraw : Line.classify Line.commentMarks (ofText id line scope file lineNo).raw =
      Line.classify Line.commentMarks line := Line.classify_congr _ (Text.trim_trim line)
  refine ⟨fun h => hfeed (Text.mem_of_mem_trim h), by rw [hraw]; exact hplain, ?_⟩
  rw [withText, ofText, hraw]
  rfl

namespace IsRead

theorem trim_raw (h : s.IsRead) : Text.trim s.raw = s.raw := congrArg Statement.raw h.again

theorem command_eq (h : s.IsRead) :
    (Line.classify Line.commentMarks s.raw).command = s.command :=
  congrArg Statement.command h.again

theorem comment_eq (h : s.IsRead) :
    (Line.classify Line.commentMarks s.raw).comment = s.comment :=
  congrArg Statement.comment h.again

end IsRead

end Statement

namespace ControlFile.IsParsed

variable {f : ControlFile}

/-- A statement was read from a line, and can be read again, or it is a placeholder. -/
theorem isRead_or (hf : f.IsParsed) {s : Statement} (hs : s ∈ f.statements) :
    s.IsRead ∨ s.kind = .placeholder ∧ s.command = none := by
  obtain ⟨text, hread⟩ := hf
  obtain ⟨t, hv, hlines, hgives⟩ := exists_outline_of_readStatements hread
  obtain ⟨e, he, id, halone⟩ := exists_gives_of_mem hgives (List.mem_map_of_mem hs)
  rw [Entry.statement] at halone
  cases hl : e.line? with
  | none =>
    rw [hl] at halone
    exact .inr ⟨congrArg Statement.kind halone, congrArg Statement.command halone⟩
  | some l =>
    have hplain : l.directive = .none := (t.inside_entries _ 1 [] hv e he).plain l hl
    obtain ⟨line, hline, rfl⟩ := List.mem_map.mp
      (hlines ▸ Outline.mem_lines_of_mem_allEntries he (Option.mem_def.mpr hl))
    rw [hl] at halone
    change s.alone = Statement.ofText id line e.scope f.path.text e.number at halone
    left
    rw [← Statement.isRead_alone, halone]
    exact Statement.isRead_ofText (Text.no_feed_of_mem_lines hline) hplain _ _ _ _

theorem isRead_of_isContent (hf : f.IsParsed) {s : Statement} (hs : s ∈ f.statements)
    (hcontent : s.isContent = true) : s.IsRead :=
  (hf.isRead_or hs).resolve_right fun ⟨hkind, _⟩ => Statement.kind_ne hcontent rfl hkind

theorem isRead_of_command (hf : f.IsParsed) {s : Statement} (hs : s ∈ f.statements)
    {command : Text} (hcommand : s.command = some command) : s.IsRead := by
  refine (hf.isRead_or hs).resolve_right fun ⟨_, hnone⟩ => ?_
  cases hcommand.symm.trans hnone

end ControlFile.IsParsed

theorem map_alone_of_readStatements {o : ReadOptions} {text : Text} {ss : List Statement}
    (h : readStatements o text = .ok ss) : ss.map Statement.alone = ss := by
  rw [List.map_congr_left fun s hs => s.alone_of_children (children_of_readStatements h s hs),
    List.map_id']

theorem ControlFile.path_of_ofText {path : Path} {text : Text} {f : ControlFile}
    (h : ofText path text = .ok f) : f.path = path := by
  rw [ofText, readStatements_of_ofText h] at h
  exact congrArg ControlFile.path (Except.ok.inj h).symm

theorem ControlFile.isParsed_of_ofText {path : Path} {text : Text} {f : ControlFile}
    (h : ofText path text = .ok f) : f.IsParsed := by
  have hread := readStatements_of_ofText h
  exact ⟨text, by rw [path_of_ofText h, map_alone_of_readStatements hread, hread]⟩

/-- A loaded file says what is read from its text. -/
theorem Load.IsLoaded.exists_read {files : Files Id} {o : LoadOptions} {c : Candidates}
    {budget : Nat} {chain : List Path} {path : Path} {kind : FileKind} {f : ControlFile}
    (h : IsLoaded files o c budget chain path kind f) :
    ∃ text, files.read f.path = .ok text ∧
      readStatements (.ofPath o.marks f.path) text = .ok (f.statements.map Statement.alone) := by
  obtain ⟨opened, hopened, hpath, -, hstatements, -⟩ := h.exists_opened
  obtain ⟨real, text, ss, -, -, htext, hread, rfl⟩ := openFile_ok hopened
  have halone : f.statements.map Statement.alone = ss := by
    conv_rhs => rw [← map_alone_of_readStatements hread]
    rw [hstatements, List.map_map]
    exact List.map_congr_left fun s _ => follow_alone
  exact ⟨text, by rw [hpath, htext], by rw [hpath, halone, hread]⟩

/-- All files of a loaded tree say what is read from their texts. -/
theorem ControlFile.exists_read_of_load {files : Files Id} {o : LoadOptions} {root : Path}
    {tree f : ControlFile} (h : load files o root = .ok tree) (hf : f ∈ tree.all) :
    ∃ text, files.read f.path = .ok text ∧
      readStatements (.ofPath o.marks f.path) text = .ok (f.statements.map Statement.alone) := by
  obtain ⟨c, hloaded⟩ := isLoaded_of_load h
  -- a file below another is loaded with one reference fewer left to follow
  generalize o.maxDepth = budget at hloaded
  generalize ([] : List Path) = chain, FileKind.ofPath root = kind at hloaded
  clear h
  induction budget using Nat.strong_induction_on generalizing chain root kind tree with
  | _ budget ih =>
    rw [all_eq, List.mem_cons, List.mem_flatMap] at hf
    obtain rfl | ⟨g, hg, hf⟩ := hf
    · exact hloaded.exists_read
    · obtain ⟨s, hs, d, hd, hcontent⟩ := mem_children.mp hg
      obtain ⟨_, budget', _, -, -, rfl, hchild⟩ := hloaded.child hs hd hcontent
      exact ih budget' (Nat.lt_succ_self budget') hf _ _ hchild

/-- All files of a loaded tree are parsed. -/
theorem ControlFile.isParsed_of_load {files : Files Id} {o : LoadOptions} {root : Path}
    {tree f : ControlFile} (h : load files o root = .ok tree) (hmarks : o.marks = Line.commentMarks)
    (hf : f ∈ tree.all) : f.IsParsed := by
  obtain ⟨text, -, hread⟩ := exists_read_of_load h hf
  exact ⟨text, hmarks ▸ hread⟩

/-! ## Commenting out and back -/

namespace Statement.IsRead

variable {s : Statement}

theorem kind_eq (h : s.IsRead) :
    (Line.classify Line.commentMarks s.raw).statementKind = s.kind :=
  congrArg Statement.kind h.again

theorem raw_ne_nil (h : s.IsRead) (hcontent : s.isContent = true) : s.raw ≠ [] := by
  intro hnil
  have hkind := h.kind_eq
  rw [hnil] at hkind
  exact kind_ne hcontent (by decide) hkind.symm

/-- The text of a comment that was made of a statement. -/
theorem trim_comment (h : s.IsRead) (hcontent : s.isContent = true) :
    Text.trim ("! " ++ s.raw) = "! " ++ s.raw := by
  refine Text.trim_append (s := ['!']) (t := ' ' :: s.raw) (by decide) (by decide) ?_ (by simp)
  intro c hc
  rw [List.getLast?_cons_of_ne_nil (h.raw_ne_nil hcontent)] at hc
  exact (Text.trim_eq_self_iff.mp h.trim_raw).2 c hc

end Statement.IsRead

theorem Line.classify_comment (text : Text) :
    Line.classify Line.commentMarks ("! " ++ text) =
      ⟨Text.trim ("! " ++ text), none, none, some (Text.trim text), .none⟩ := by
  have hparts : Line.parts ("! " ++ text) = (none, none, some (Text.trim text)) := by
    have hsplit : Line.splitComment Line.commentMarks ("! " ++ text) =
        ([], some (Text.trim text)) := by
      rw [← Text.trim_cons_blank (c := ' ') (by decide) text]
      exact Line.splitComment_cons (by decide) _
    rw [Line.parts, hsplit]
    rfl
  rw [Line.classify_eq, hparts]

theorem Statement.kind_comment (s : Statement) (text : Text) :
    (s.withText ("! " ++ text)).kind = .comment := by
  rw [withText, ofText, Line.classify_comment]
  rfl

namespace Edit

variable {s : Statement}

theorem commented_eq (hcontent : s.isContent = true) :
    commented s = .ok (s.withText ("! " ++ s.raw)) := by
  rw [commented, if_neg (Statement.kind_ne hcontent rfl), if_neg (by simp [hcontent])]

/-- The comment that was made of a statement becomes that statement again. -/
theorem uncommented_eq (h : s.IsRead) (hcontent : s.isContent = true) :
    uncommented (s.withText ("! " ++ s.raw)) = .ok s.alone := by
  have hkind := s.kind_comment s.raw
  have hraw : (s.withText ("! " ++ s.raw)).raw = "! " ++ s.raw := h.trim_comment hcontent
  have htext : Text.trim ((("! " : Text) ++ s.raw).dropWhile fun c => c = '!' || c = '#') = s.raw :=
    (Text.trim_cons_blank (by decide) s.raw).trans h.trim_raw
  have hheader : rejectHeader s.raw = .ok () := by
    rw [rejectHeader, h.plain]
    rfl
  rw [uncommented, if_neg (not_not.mpr hkind), hraw, htext]
  simp only [hheader, Except.map, Statement.withText_withText, h.again]

theorem mem_of_lookup {statements : List Statement} {id : StatementId} {s : Statement}
    (hs : lookup statements id = .ok s) : s ∈ statements ∧ s.id = id := by
  obtain ⟨before, after, rfl, rfl, -⟩ := exists_append_of_lookup hs
  exact ⟨by simp, rfl⟩

theorem lookup_replace {statements : List Statement} {id : StatementId} {s t : Statement}
    (hs : lookup statements id = .ok s) (ht : t.id = id) :
    lookup (replace statements id t) id = .ok t := by
  obtain ⟨before, after, rfl, rfl, hbefore⟩ := exists_append_of_lookup hs
  rw [replace_append hbefore, ← ht]
  exact lookup_append (by rwa [ht])

theorem replace_replace {statements : List Statement} {id : StatementId} {s t u : Statement}
    (hs : lookup statements id = .ok s) (ht : t.id = id) :
    replace (replace statements id t) id u = replace statements id u := by
  obtain ⟨before, after, rfl, rfl, hbefore⟩ := exists_append_of_lookup hs
  rw [replace_append hbefore, replace_append hbefore, ← ht]
  exact replace_append (by rwa [ht])

/-- A statement takes the place of the one with its identity, and the list is as before exactly if
it is that statement. -/
theorem replace_eq_self_iff {statements : List Statement} {id : StatementId} {s t : Statement}
    (hs : lookup statements id = .ok s) : replace statements id t = statements ↔ t = s := by
  obtain ⟨before, after, rfl, rfl, hbefore⟩ := exists_append_of_lookup hs
  rw [replace_append hbefore]
  simp

end Edit

/-- The file with a statement in the place of the one with an identity. -/
def ControlFile.withStatement (f : ControlFile) (id : StatementId) (s : Statement) : ControlFile :=
  { f with statements := Edit.replace f.statements id s }

theorem ControlFile.withStatement_eq_self_iff {f : ControlFile} {id : StatementId}
    {s t : Statement} (hs : Edit.lookup f.statements id = .ok s) :
    f.withStatement id t = f ↔ t = s := by
  rw [← Edit.replace_eq_self_iff hs]
  obtain ⟨path, kind, statements, findings⟩ := f
  simp [withStatement]

theorem ControlFile.withStatement_withStatement {f : ControlFile} {id : StatementId}
    {s t u : Statement} (hs : Edit.lookup f.statements id = .ok s) (ht : t.id = id) :
    (f.withStatement id t).withStatement id u = f.withStatement id u := by
  simp only [withStatement, Edit.replace_replace hs ht]

/-- An edit that changes one statement puts the changed one in its place. -/
theorem Session.apply_of_change {change : Statement → Except Cause Statement} {edit : Edit}
    {session : Session} {id : StatementId} {s t : Statement}
    (hedit : edit.apply session.file.statements session.file.path.fileName =
      Edit.change session.file.statements id change)
    (hs : Edit.lookup session.file.statements id = .ok s) (ht : change s = .ok t) :
    session.apply edit = .ok (⟨session.file.withStatement id t,
      (edit, .restore s) :: session.history⟩, .restore s) := by
  rw [Session.apply, hedit, Edit.change_eq_ok_iff.mpr ⟨s, t, hs, ht, rfl⟩]
  rfl

/-- The session in which a statement was commented out and made of the comment again. -/
theorem ControlFile.IsParsed.apply_commentOut_uncomment {f : ControlFile} (hf : f.IsParsed)
    {id : StatementId} {s : Statement} (hs : Edit.lookup f.statements id = .ok s)
    (hcontent : s.isContent = true) : ∃ commented back undo₁ undo₂,
      (Session.start f).apply (.commentOut id) = .ok (commented, undo₁) ∧
      commented.apply (.uncomment id) = .ok (back, undo₂) ∧
      back.file = f.withStatement id s.alone := by
  obtain ⟨hmem, hid⟩ := Edit.mem_of_lookup hs
  have hread := hf.isRead_of_isContent hmem hcontent
  have hcomment : Edit.lookup (f.withStatement id (s.withText ("! " ++ s.raw))).statements id =
      .ok (s.withText ("! " ++ s.raw)) := Edit.lookup_replace hs hid
  refine ⟨_, _, _, _, Session.apply_of_change rfl hs (Edit.commented_eq hcontent),
    Session.apply_of_change rfl hcomment (Edit.uncommented_eq hread hcontent), ?_⟩
  exact withStatement_withStatement hs hid

/-- A statement of a loaded file that says something is commented out and then made of the comment
again. The file is as before then, but for what was loaded for the statement: that is gone. So the
file is as before exactly if nothing was loaded for it, and then it comes to the same in every
run. -/
theorem ControlFile.uncomment_commentOut {files : Files Id} {o : LoadOptions} {root : Path}
    {tree f : ControlFile} (hload : load files o root = .ok tree)
    (hmarks : o.marks = Line.commentMarks) (hf : f ∈ tree.all) {id : StatementId} {s : Statement}
    (hs : Edit.lookup f.statements id = .ok s) (hcontent : s.isContent = true) :
    ∃ commented back undo₁ undo₂,
      (Session.start f).apply (.commentOut id) = .ok (commented, undo₁) ∧
      commented.apply (.uncomment id) = .ok (back, undo₂) ∧
      back.file = f.withStatement id s.alone ∧
      (back.file = f ↔ s.children = []) ∧
      (s.children = [] → ∀ (files : Files Id) (c : Context),
        back.file.resolve files c = f.resolve files c) := by
  obtain ⟨commented, back, undo₁, undo₂, hout, hin, hfile⟩ :=
    (isParsed_of_load hload hmarks hf).apply_commentOut_uncomment hs hcontent
  have hsame : back.file = f ↔ s.children = [] := by
    rw [hfile, withStatement_eq_self_iff hs]
    exact ⟨fun h => congrArg Statement.children h.symm, s.alone_of_children⟩
  exact ⟨commented, back, undo₁, undo₂, hout, hin, hfile, hsame, fun h _ _ => by rw [hsame.mpr h]⟩

/-- A line with a comment, in a block of a file that refers to another. -/
theorem ControlFile.uncomment_commentOut_noted :
    let store := Store.ofList [(⟨"/m/m.tcf"⟩, Text.unlines ["If Scenario == A",
      " Set Variable x == = 1 ! #2", "End If", "Geometry Control File == g.tgc"]),
      (⟨"/m/g.tgc"⟩, "Y == 3\n")]
    let id := StatementId.compute "m.tcf" "Set Variable x == = 1 ! #2" 0
    ∃ tree commented back undo₁ undo₂, load store.files .standard ⟨"/m/m.tcf"⟩ = .ok tree ∧
      tree.children ≠ [] ∧
      (Session.start tree).apply (.commentOut id) = .ok (commented, undo₁) ∧
      commented.apply (.uncomment id) = .ok (back, undo₂) ∧ back.file = tree := by
  intro store id
  have hcheck : ((load store.files .standard ⟨"/m/m.tcf"⟩).toOption.any fun tree =>
      !tree.children.isEmpty && (Edit.lookup tree.statements id).toOption.any fun s =>
        s.isContent && s.children.isEmpty) = true := by
    decide +kernel
  obtain ⟨tree, hload, hcheck⟩ := Except.toOption_any_iff.mp hcheck
  obtain ⟨hchildren, hcheck⟩ := Bool.and_eq_true_iff.mp hcheck
  obtain ⟨s, hs, hcheck⟩ := Except.toOption_any_iff.mp hcheck
  obtain ⟨hcontent, hnone⟩ := Bool.and_eq_true_iff.mp hcheck
  have hmem : tree ∈ tree.all := by rw [all_eq]; exact List.mem_cons_self
  obtain ⟨commented, back, undo₁, undo₂, hout, hin, -, hsame, -⟩ :=
    uncomment_commentOut hload rfl hmem hs hcontent
  refine ⟨tree, commented, back, undo₁, undo₂, hload, ?_, hout, hin, ?_⟩
  · simpa using hchildren
  · exact hsame.mpr (List.isEmpty_iff.mp hnone)

/-- What was loaded for a statement does not come back with it. -/
theorem ControlFile.not_forall_uncomment_commentOut :
    ¬ ∀ (store : Store) (root : Path) (tree : ControlFile),
      load store.files .standard root = .ok tree → ∀ s ∈ tree.statements, s.isContent = true →
        ∃ commented back undo₁ undo₂,
          (Session.start tree).apply (.commentOut s.id) = .ok (commented, undo₁) ∧
          commented.apply (.uncomment s.id) = .ok (back, undo₂) ∧
          back.file.statements = tree.statements := by
  intro h
  let store := Store.ofList [(⟨"/m/m.tcf"⟩, "Geometry Control File == g.tgc\n"),
    (⟨"/m/g.tgc"⟩, "Y == 3\n")]
  let id := StatementId.compute "m.tcf" "Geometry Control File == g.tgc" 0
  have hcheck : ((load store.files .standard ⟨"/m/m.tcf"⟩).toOption.any fun tree =>
      (Edit.lookup tree.statements id).toOption.any fun s =>
        s.isContent && !s.children.isEmpty) = true := by
    decide +kernel
  obtain ⟨tree, hload, hcheck⟩ := Except.toOption_any_iff.mp hcheck
  obtain ⟨s, hs, hcheck⟩ := Except.toOption_any_iff.mp hcheck
  obtain ⟨hcontent, hsome⟩ := Bool.and_eq_true_iff.mp hcheck
  have hmem : tree ∈ tree.all := by rw [all_eq]; exact List.mem_cons_self
  obtain ⟨hs', hid⟩ := Edit.mem_of_lookup hs
  rw [← hid] at hs
  obtain ⟨commented, back, undo₁, undo₂, hout, hin, hstatements⟩ :=
    h store _ tree hload s hs' hcontent
  obtain ⟨commented', back', undo₁', undo₂', hout', hin', hfile⟩ :=
    (isParsed_of_load hload rfl hmem).apply_commentOut_uncomment hs hcontent
  obtain ⟨rfl, -⟩ := Prod.mk.inj (Except.ok.inj (hout.symm.trans hout'))
  obtain ⟨rfl, -⟩ := Prod.mk.inj (Except.ok.inj (hin.symm.trans hin'))
  have hback : Edit.replace tree.statements s.id s.alone = tree.statements :=
    (congrArg statements hfile).symm.trans hstatements
  have halone := (Edit.replace_eq_self_iff hs).mp hback
  rw [← halone] at hsome
  cases hsome

end ControlFiles
