import ControlFiles.Proofs.ControlFile.Rewording

/-!
# Values that are changed

A statement with another value is the line that is composed of its command, the value and its
comment, read again. The command is always read again; the value is what stands in front of the
first comment mark, and whatever follows that mark is the comment. No value is refused, so a value
with a comment mark is cut, and one with a line feed makes two lines of one:
`ControlFile.updateValue_spec` says which values are read as they were given.
-/

namespace ControlFiles

/-! ## Composed lines -/

namespace Text

/-- What stands behind a trimmed text does not change it. -/
theorem prefix_trim_append {a : Text} (ha : trim a = a) (hne : a ≠ []) (b : Text) :
    a <+: trim (a ++ b) := by
  cases a with
  | nil => exact absurd rfl hne
  | cons c a =>
    obtain ⟨hfirst, hlast⟩ := trim_eq_self_iff.mp ha
    have hc := hfirst c rfl
    refine ⟨trimEnd b, ?_⟩
    rw [← trimEnd_append hne hlast, List.cons_append, trim_cons_of_not_blank hc,
      trimEnd_cons_of_not_blank hc]

theorem unmarked_iff {t : Text} :
    t.Unmarked ↔ (∀ c ∈ t, Line.commentMarks.contains c = false) ∧ '\n' ∉ t := by
  refine ⟨fun h => ⟨fun c hc => (h c hc).1, fun hc => (h _ hc).2 rfl⟩, fun h c hc => ⟨h.1 c hc, ?_⟩⟩
  rintro rfl
  exact h.2 hc

theorem lines_of_no_feed {t : Text} (hfeed : '\n' ∉ t) (hne : t ≠ []) : lines t = [t] := by
  simp [lines, split_of_not_mem hfeed, nonempty?_of_ne_nil hne]

end Text

namespace Line

theorem classify_comment_subset {line comment : Text}
    (h : (classify commentMarks line).comment = some comment) : comment ⊆ line := by
  have hcomment : (splitComment commentMarks (Text.trim line)).2 = some comment := h
  unfold splitComment at hcomment
  simp only at hcomment
  split at hcomment
  · cases hcomment
  · rename_i m rest hdrop
    obtain rfl := Option.some.inj hcomment
    intro c hc
    have hrest : c ∈ m :: rest := List.mem_cons_of_mem m (Text.mem_of_mem_trim hc)
    exact Text.mem_of_mem_trim ((List.drop_subset _ _) (hdrop ▸ hrest))

/-- A composed line is one line exactly if the value is. -/
theorem IsCommand.lines_compose_iff {command : Text} {comment : Option Text}
    (h : IsCommand command) (hcommand : '\n' ∉ command) (hcomment : ∀ c ∈ comment, '\n' ∉ c)
    (value : Text) :
    (let line := Text.trim (Statement.compose command (some value) comment)
     Text.lines line = [line]) ↔ '\n' ∉ Text.trim value := by
  have hline : Statement.compose command (some value) comment =
      command ++ (" == " ++ (Text.trim value ++ commentText comment)) := by
    rw [compose_some, h.trim_eq]
  constructor
  · intro hone hfeed
    have hne : Text.trim value ≠ [] := List.ne_nil_of_mem hfeed
    have hfront := Text.prefix_trim_append
      (trim_assignment h.trim_eq h.ne_nil (Text.trim_trim value) hne) (by simp [h.ne_nil])
      (commentText comment)
    have hmem := hfront.subset (List.mem_append_right (command ++ (" == " : Text)) hfeed)
    rw [List.append_assoc, List.append_assoc, ← hline] at hmem
    exact Text.no_feed_of_mem_lines (by rw [hone]; exact List.mem_singleton_self _) hmem
  · intro hfeed
    have hbehind : '\n' ∉ commentText comment := by
      cases comment with
      | none => exact List.not_mem_nil
      | some comment =>
        intro hmem
        rcases List.mem_append.mp hmem with hmem | hmem
        · exact absurd hmem (by decide)
        · exact hcomment comment rfl (Text.mem_of_mem_trim hmem)
    have hnone : '\n' ∉
        command ++ ((" == " : Text) ++ (Text.trim value ++ commentText comment)) := by
      simp only [List.mem_append, not_or]
      exact ⟨hcommand, by decide, hfeed, hbehind⟩
    refine Text.lines_of_no_feed (fun hmem => hnone (hline ▸ Text.mem_of_mem_trim hmem)) ?_
    have hfront := Text.prefix_trim_append h.trim_eq h.ne_nil
      (" == " ++ (Text.trim value ++ commentText comment))
    rw [hline]
    exact fun hnil => h.ne_nil (List.prefix_nil.mp (hnil ▸ hfront))

end Line

/-- A statement with a command gets another value. It keeps the command and its place, and the value
and the comment are what is read of the text behind `==`. They are the new value and the old
comment, on one line, exactly if the value has neither a comment mark nor a line feed. No value is
refused. -/
theorem ControlFile.updateValue_spec {f : ControlFile} (hf : f.IsParsed) {id : StatementId}
    {s : Statement} (hs : Edit.lookup f.statements id = .ok s) {command : Text}
    (hcommand : s.command = some command) (value : Text) :
    ∃ updated undo t, (Session.start f).apply (.updateValue id value) = .ok (updated, undo) ∧
      updated.file = f.withStatement id t ∧ t.command = some command ∧
      (t.id, t.scope, t.file, t.line) = (s.id, s.scope, s.file, s.line) ∧
      (let (front, comment) := Line.splitComment Line.commentMarks
        (Text.trim value ++ Line.commentText s.comment)
       t.value = Text.nonempty? (Text.trim front) ∧ t.comment = comment) ∧
      (t.value = Text.nonempty? (Text.trim value) ∧ t.comment = s.comment ∧
        Text.lines t.raw = [t.raw] ↔ (Text.trim value).Unmarked) := by
  have hread := hf.isRead_of_command (Edit.mem_of_lookup hs).1 hcommand
  have hline := hread.command_eq.trans hcommand
  have hiscommand := Line.isCommand_of_classify hline
  have hfeed : '\n' ∉ command := fun h =>
    ((Line.classify_command hread.no_feed hline).1 _ h).2 rfl
  have hfeed' : ∀ c ∈ s.comment, '\n' ∉ c := fun c hc h =>
    hread.no_feed (Line.classify_comment_subset (hread.comment_eq.trans hc) h)
  have hcomment : s.comment.map Text.trim = s.comment := by
    rw [← hread.comment_eq, Line.classify_eq]
    exact Line.comment_of_parts s.raw
  have hupdated : Edit.updated s value =
      .ok (s.withText (Statement.compose command (some value) s.comment)) := by
    rw [Edit.updated, hcommand]
  have hparts := hiscommand.parts_compose_some value s.comment
  refine ⟨_, _, _, Session.apply_of_change rfl hs hupdated, rfl, ?_, rfl, ?_, ?_⟩
  · rw [Statement.withText, Statement.ofText, Line.classify_eq, hparts]
    rfl
  · rw [Statement.withText, Statement.ofText, Line.classify_eq, hparts]
    exact ⟨rfl, rfl⟩
  · have hvalue := Line.splitComment_value_iff value s.comment
    have hlines := hiscommand.lines_compose_iff hfeed hfeed' value
    rw [hcomment] at hvalue
    rw [Statement.withText, Statement.ofText, Line.classify_eq, hparts, Text.unmarked_iff, ← hvalue,
      ← hlines, and_assoc]
    rfl

/-- The value may begin with marks of a value, and the comment may hold marks of a comment. -/
theorem ControlFile.updateValue_spec_marks :
    let id := StatementId.compute "m.tcf" "X == 1 ! a # b" 0
    ∃ f updated undo t, ofText ⟨"/m/m.tcf"⟩ "If Scenario == A\n  X == 1 ! a # b\nEnd If\n" = .ok f ∧
      (Session.start f).apply (.updateValue id " == 2 \t") = .ok (updated, undo) ∧
      updated.file = f.withStatement id t ∧ t.command = some "X" ∧ t.value = some "== 2" ∧
      t.comment = some "a # b" ∧ Text.lines t.raw = [t.raw] := by
  intro id
  have hcheck : ((ofText ⟨"/m/m.tcf"⟩ "If Scenario == A\n  X == 1 ! a # b\nEnd If\n").toOption.any
      fun f => (Edit.lookup f.statements id).toOption.any fun s =>
        s.command == some ("X" : Text) && s.comment == some ("a # b" : Text)) = true := by
    decide +kernel
  obtain ⟨f, hf, hcheck⟩ := Except.toOption_any_iff.mp hcheck
  obtain ⟨s, hs, hcheck⟩ := Except.toOption_any_iff.mp hcheck
  simp only [Bool.and_eq_true, beq_iff_eq] at hcheck
  obtain ⟨hcommand, hcomment⟩ := hcheck
  obtain ⟨updated, undo, t, hupdate, hfile, hcommand', -, -, hiff⟩ :=
    updateValue_spec (isParsed_of_ofText hf) hs hcommand " == 2 \t"
  obtain ⟨hvalue, hcomment', hline⟩ := hiff.mpr (by decide)
  exact ⟨f, updated, undo, t, hf, hupdate, hfile, hcommand', hvalue, hcomment'.trans hcomment,
    hline⟩

/-- A comment mark in the value cuts it, and the rest of it becomes a comment. -/
theorem ControlFile.not_forall_updateValue :
    ¬ ∀ (path : Path) (text : Text) (f : ControlFile), ofText path text = .ok f →
      ∀ s ∈ f.statements, ∀ command, s.command = some command → ∀ value updated undo,
        (Session.start f).apply (.updateValue s.id value) = .ok (updated, undo) →
          ∃ t ∈ updated.file.statements, t.id = s.id ∧ t.command = some command ∧
            t.value = Text.nonempty? (Text.trim value) ∧ t.comment = s.comment ∧
            Text.lines t.raw = [t.raw] := by
  intro h
  have hcheck : ((ofText ⟨"/m/m.tcf"⟩ "X == 1 ! c\n").toOption.any fun f =>
      f.statements.any fun s => s.command == some ("X" : Text) &&
        ((Session.start f).apply (.updateValue s.id "a ! b")).toOption.any fun updated =>
          updated.1.file.statements.all fun t => t.value == some ("a" : Text)) = true := by
    decide +kernel
  obtain ⟨f, hf, hcheck⟩ := Except.toOption_any_iff.mp hcheck
  obtain ⟨s, hs, hcheck⟩ := List.any_eq_true.mp hcheck
  obtain ⟨hcommand, hcheck⟩ := Bool.and_eq_true_iff.mp hcheck
  obtain ⟨⟨updated, undo⟩, hupdate, hcheck⟩ := Except.toOption_any_iff.mp hcheck
  obtain ⟨t, ht, -, -, hvalue, -, -⟩ :=
    h _ _ f hf s hs "X" (beq_iff_eq.mp hcommand) "a ! b" updated undo hupdate
  have hcut := beq_iff_eq.mp (List.all_eq_true.mp hcheck t ht)
  exact absurd (hcut.symm.trans hvalue) (by decide)

end ControlFiles
