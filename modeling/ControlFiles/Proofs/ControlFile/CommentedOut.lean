import ControlFiles.Proofs.ControlFile.Exchanging
import ControlFiles.Proofs.ControlFile.Rewording

/-!
# Commenting out

A statement that is commented out changes on its own line, and the text is read as before around it
(`ControlFile.CommentsOut`). An edit finds its statement by identity, so this holds of a statement
exactly if no other one of its identity stands before it (`ControlFile.commentsOut_iff`). A line
that begins with the character that marks the identity of a placeholder can have the identity of a
placeholder.
-/

namespace ControlFiles

/-! ## One line of a layout -/

namespace Layout

/-- A line of content is written at the same depth as another one in its place, and all other lines
are written as before. -/
theorem ofLines_set {ls : List Line} {i : Nat} {l c : Line} (h : ls[i]? = some l)
    (hl : l.directive = .none) (hc : c.directive = .none) (depth : Nat) :
    ∃ here, (ofLines depth ls)[i]? = some (l.written here) ∧
      ofLines depth (ls.set i c) = (ofLines depth ls).set i (c.written here) := by
  induction ls generalizing i depth with
  | nil => cases h
  | cons m ls ih =>
    cases i with
    | zero =>
      obtain rfl := Option.some.inj h
      refine ⟨depth, ?_⟩
      simp only [List.set_cons_zero, ofLines, hl, hc]
      exact ⟨rfl, trivial⟩
    | succ i =>
      rw [List.set_cons_succ, ofLines, ofLines]
      split <;>
      · obtain ⟨here, hwas, his⟩ := ih h _
        exact ⟨here, hwas, by rw [his, List.set_cons_succ]⟩

theorem written_of_not_blank {l : Line} (hblank : l.isBlankLine = false) (hne : l.text ≠ [])
    (depth : Nat) : l.written depth = indentation depth ++ l.text := by
  rw [Line.written, hblank, if_neg (by decide), indent, if_neg (by simpa using hne)]

end Layout

/-! ## One statement of a file -/

/-- Commenting the statement out succeeds. The line of the statement is written with the same
indentation, and `! ` in front of its text; all other lines are written as before. Read again, all
other statements come back, and this one as the comment. -/
def ControlFile.CommentsOut (f : ControlFile) (s : Statement) : Prop :=
  ∃ session undo lines depth g,
    let written := Text.unlines
      (lines.set (s.line - 1) (Layout.indentation depth ++ ("! " ++ s.raw)))
    (Session.start f).apply (.commentOut s.id) = .ok (session, undo) ∧
    f.toText = .ok (Text.unlines lines) ∧ (∀ line ∈ lines, Text.IsLine line) ∧
    0 < s.line ∧ lines[s.line - 1]? = some (Layout.indentation depth ++ s.raw) ∧
    session.file.toText = .ok written ∧ ofText f.path written = .ok g ∧
    ∃ before after before' t after',
      f.statements = before ++ s :: after ∧ g.statements = before' ++ t :: after' ∧
      List.Forall₂ Statement.ComesBack before before' ∧
      (s.withText ("! " ++ s.raw)).ComesBack t ∧ List.Forall₂ Statement.ComesBack after after'

/-- The comment that is made of a statement, as a line. -/
theorem Statement.IsRead.classify_comment {s : Statement} (h : s.IsRead)
    (hcontent : s.isContent = true) : Line.classify Line.commentMarks ("! " ++ s.raw) =
      ⟨"! " ++ s.raw, none, none, some s.raw, .none⟩ := by
  rw [Line.classify_comment, h.trim_comment hcontent, h.trim_raw]

/-- The line of a statement and that of the comment made of it are written at the same depth. -/
theorem exists_ofLines_exchanged {path : Path} {text : Text} {ss : List Statement} {s : Statement}
    (hread : readStatements (.ofPath Line.commentMarks path) text = .ok ss) (hs : s ∈ ss)
    (hcontent : s.isContent = true) (hisread : s.IsRead) : ∃ depth,
      let lines := Layout.ofLines 0 ((ReadOptions.ofPath Line.commentMarks path).linesOf text)
      0 < s.line ∧ lines[s.line - 1]? = some (Layout.indentation depth ++ s.raw) ∧
      Layout.ofLines 0 (exchanged path text s ("! " ++ s.raw)) =
        lines.set (s.line - 1) (Layout.indentation depth ++ ("! " ++ s.raw)) := by
  have hcomment := hisread.classify_comment hcontent
  obtain ⟨i, l, hline, hl, hlplain, hblank, hraw⟩ := exists_line_of_isContent hread hs hcontent
  obtain ⟨depth, hwas, his⟩ := Layout.ofLines_set hl hlplain (congrArg Line.directive hcomment) 0
  have hi : s.line - 1 = i := by omega
  have hne : l.text ≠ [] := hraw ▸ hisread.raw_ne_nil hcontent
  refine ⟨depth, by omega, ?_, ?_⟩
  · rw [hi, hwas, Layout.written_of_not_blank hblank hne, hraw]
  · rw [exchanged, hi, his, hcomment]
    exact congrArg _ (Layout.written_of_not_blank rfl (by simp) depth)

/-- The statement that its identity names is commented out. -/
theorem ControlFile.commentsOut_of_lookup {path : Path} {text : Text} {f : ControlFile}
    (hf : ofText path text = .ok f) {s : Statement}
    (hs : Edit.lookup f.statements s.id = .ok s) (hcontent : s.isContent = true) :
    f.CommentsOut s := by
  obtain ⟨before, after, hsplit, -, hbefore⟩ := Edit.exists_append_of_lookup hs
  have hread := readStatements_of_ofText hf
  rw [hsplit] at hread
  have hisread := (isParsed_of_ofText hf).isRead_of_isContent (Edit.mem_of_lookup hs).1 hcontent
  have hplain := congrArg Line.directive (hisread.classify_comment hcontent)
  have hfeed : '\n' ∉ ("! " : Text) ++ s.raw := fun h => by
    rcases List.mem_append.mp h with h | h
    · exact absurd h (by decide)
    · exact hisread.no_feed h
  obtain ⟨depth, hpos, hline, hexchanged⟩ :=
    exists_ofLines_exchanged hread (by simp) hcontent hisread
  have hwritten := writeStatements_exchanged hread hcontent hfeed hplain f.path.text
  obtain ⟨before', t, after', hback, hbefore', ht, hafter'⟩ :=
    readStatements_exchanged hread hcontent hfeed hplain
  rw [hexchanged] at hwritten hback
  refine ⟨_, _, _, depth, ⟨path, .ofPath path, before' ++ t :: after', []⟩,
    Session.apply_of_change rfl hs (Edit.commented_eq hcontent), ?_,
    Layout.isLine_of_mem_ofLines ReadOptions.isLine_of_mem_linesOf 0, hpos, hline, ?_, ?_,
    before, after, before', t, after', hsplit, rfl, hbefore', ht, hafter'⟩
  · rw [toText, hsplit, writeStatements_of_readStatements hread]
  · rw [← hwritten, toText]
    simp only [withStatement, Session.start, hsplit, Edit.replace_append hbefore]
  · rw [path_of_ofText hf, ofText, hback]
    rfl

theorem Edit.isContent_of_commented {s t : Statement} (h : commented s = .ok t) :
    s.isContent = true := by
  rw [commented] at h
  split at h
  · cases h
  · split at h
    · cases h
    · rename_i hcontent
      simpa using hcontent

/-- After a statement was commented out, the statements are read as before, but for this one. -/
theorem ControlFile.CommentsOut.exists_forall₂ {f : ControlFile} {s : Statement}
    (h : f.CommentsOut s) : ∃ session undo written g,
      (Session.start f).apply (.commentOut s.id) = .ok (session, undo) ∧
      session.file.toText = .ok written ∧ ofText f.path written = .ok g ∧
      List.Forall₂ (fun u t => u = s ∨ u.ComesBack t) f.statements g.statements := by
  obtain ⟨session, undo, lines, depth, g, happly, -, -, -, -, hwritten, hg, before, after, before',
    t, after', hf, hgs, hbefore, -, hafter⟩ := h
  refine ⟨session, undo, _, g, happly, hwritten, hg, ?_⟩
  rw [hf, hgs]
  exact List.rel_append (hbefore.imp fun _ _ h => .inr h)
    (.cons (.inl rfl) (hafter.imp fun _ _ h => .inr h))

/-- A statement of a text that says something is commented out as it should be exactly if it is the
first one of its identity. -/
theorem ControlFile.commentsOut_iff {path : Path} {text : Text} {f : ControlFile}
    (hf : ofText path text = .ok f) {s : Statement} (hcontent : s.isContent = true) :
    f.CommentsOut s ↔ Edit.lookup f.statements s.id = .ok s := by
  refine ⟨fun h => ?_, fun h => commentsOut_of_lookup hf h hcontent⟩
  obtain ⟨session, undo, lines, depth, g, happly, -, -, -, -, hwritten, hg, before, after, before',
    t, after', hsplit, hgs, hbefore, ht, -⟩ := h
  -- the edit has changed the first statement of this identity
  obtain ⟨out, hedit, -⟩ := Session.apply_ok happly
  obtain ⟨u, v, hu, hv, -⟩ := Edit.change_eq_ok_iff.mp hedit
  have hid := (Edit.mem_of_lookup hu).2
  obtain ⟨session', undo', written', g', happly', hwritten', hg', hback⟩ :=
    (commentsOut_of_lookup hf (hid.symm ▸ hu) (Edit.isContent_of_commented hv)).exists_forall₂
  rw [hid] at happly'
  obtain ⟨rfl, -⟩ := Prod.mk.inj (Except.ok.inj (happly.symm.trans happly'))
  obtain rfl := Except.ok.inj (hwritten.symm.trans hwritten')
  obtain rfl := Except.ok.inj (hg.symm.trans hg')
  -- all others come back as they were, and this one did not
  rw [hsplit] at hback
  obtain ⟨a, y, b, hgs', ha, hy, -⟩ := exists_of_forall₂_append_cons hback
  obtain ⟨-, hty⟩ := List.append_inj (hgs.symm.trans hgs')
    (hbefore.length_eq.symm.trans ha.length_eq)
  obtain ⟨rfl, -⟩ := List.cons.inj hty
  obtain rfl | hcomesBack := hy
  · exact hu
  · have hkind := hcomesBack.kind.symm.trans (ht.kind.trans (s.kind_comment s.raw))
    exact absurd hkind (Statement.kind_ne hcontent rfl)

/-- A line in a block inside of another one, behind a line that is a value alone. -/
theorem ControlFile.commentsOut_iff_nested :
    let text := Text.unlines ["If Scenario == A", " == 5", "x == 1 ! note", "Else",
      "  If Event == Q", "\tx == 1 ! note", "", "  End If", "End If ! A"]
    ∃ f s, ofText ⟨"/m/m.tcf"⟩ text = .ok f ∧ s ∈ f.statements ∧ s.line = 6 ∧ s.isContent = true ∧
      f.CommentsOut s := by
  intro text
  let id := StatementId.compute "m.tcf" "x == 1 ! note" 1
  have hcheck : ((ofText ⟨"/m/m.tcf"⟩ text).toOption.any fun f =>
      (Edit.lookup f.statements id).toOption.any fun s => s.isContent && s.line == 6) = true := by
    decide +kernel
  obtain ⟨f, hf, hcheck⟩ := Except.toOption_any_iff.mp hcheck
  obtain ⟨s, hs, hcheck⟩ := Except.toOption_any_iff.mp hcheck
  obtain ⟨hcontent, hline⟩ := Bool.and_eq_true_iff.mp hcheck
  obtain ⟨hmem, hid⟩ := Edit.mem_of_lookup hs
  rw [← hid] at hs
  exact ⟨f, s, hf, hmem, beq_iff_eq.mp hline, hcontent, (commentsOut_iff hf hcontent).mpr hs⟩

/-- The second statement has the identity of the placeholder before it, and cannot be commented
out. -/
theorem ControlFile.not_forall_commentsOut :
    ¬ ∀ (path : Path) (text : Text) (f : ControlFile), ofText path text = .ok f →
      ∀ s ∈ f.statements, s.isContent = true → f.CommentsOut s := by
  intro h
  have hcheck : ((ofText ⟨"/m/m.tcf"⟩ (Text.unlines ["If Scenario == A", "End If",
      "\x00placeholder Global & Scenario(A)"])).toOption.any fun f =>
        f.statements.any fun s => s.isContent &&
          ((Session.start f).apply (.commentOut s.id)).toOption.isNone) = true := by
    decide +kernel
  obtain ⟨f, hf, hcheck⟩ := Except.toOption_any_iff.mp hcheck
  obtain ⟨s, hs, hcheck⟩ := List.any_eq_true.mp hcheck
  obtain ⟨hcontent, hnone⟩ := Bool.and_eq_true_iff.mp hcheck
  obtain ⟨session, undo, -, -, happly, -⟩ := (h _ _ f hf s hs hcontent).exists_forall₂
  rw [happly] at hnone
  cases hnone

end ControlFiles
