import ControlFiles.Proofs.ControlFile.WrittenOutline

/-!
# Reading and writing back

Reading forgets the headers of the blocks, and keeps for every statement only the scopes that it is
under. They are enough: a text that is read and written back has its lines again, each without the
blanks around it and indented by the blocks that it stands in (`toText_ofText`).
-/

namespace ControlFiles

/-! ## Everything is left -/

theorem Outline.branchNumbers_ne_nil (t : Outline) (n : Nat) : t.branchNumbers n ≠ [] := by
  cases t with
  | nil => simp [branchNumbers, numbers]
  | line l rest => simp [branchNumbers, numbers]
  | block head first more close rest =>
    have hfirst := first.branchNumbers_ne_nil (n + 1)
    rw [branchNumbers, isNil_block, if_neg (by decide), List.append_nil, numbers]
    intro hnil
    obtain ⟨hnumbers, hrest⟩ := List.append_eq_nil_iff.mp hnil
    exact hfirst (List.append_eq_nil_iff.mpr ⟨hnumbers, (List.append_eq_nil_iff.mp hrest).1⟩)

theorem Outline.live_all (t : Outline) (n : Nat) : t.live (fun _ => true) n = true := by
  obtain ⟨i, rest, h⟩ := List.exists_cons_of_ne_nil (t.branchNumbers_ne_nil n)
  rw [live, h]
  rfl

mutual

/-- If nothing is gone, the outline is laid out as it was. -/
theorem Outline.text_pruned_all : ∀ (t : Outline) (n depth : Nat),
    (t.pruned (fun _ => true) n).text depth = t.text depth
  | .nil, _, _ => rfl
  | .line l rest, n, depth => by
    rw [Outline.pruned, if_pos rfl, Outline.text, l.written_cleared,
      Outline.text_pruned_all rest (n + 1) depth]
    rfl
  | .block head first more close rest, n, depth => by
    rw [Outline.pruned, if_pos (first.live_all _), Outline.text,
      Outline.text_pruned_all first (n + 1) (depth + 1),
      Branches.text_pruned_all more (n + 1 + first.size) depth, Outline.text_pruned_all rest]
    rfl

theorem Branches.text_pruned_all : ∀ (t : Branches) (n depth : Nat),
    (t.pruned (fun _ => true) n).text depth = t.text depth
  | .nil, _, _ => rfl
  | .branch head body more, n, depth => by
    rw [Branches.pruned, if_pos (body.live_all _), Branches.text,
      Outline.text_pruned_all body (n + 1) (depth + 1), Branches.text_pruned_all more]
    rfl

end

/-! ## The lines that are written -/

namespace Layout

theorem isLine_indent {t : Text} (h : Text.IsLine t) (depth : Nat) :
    Text.IsLine (indent depth t) := by
  rw [indent]
  split
  · exact ⟨by simp, by simp⟩
  · rename_i hne
    obtain ⟨hfeed, hreturn⟩ := h
    refine ⟨?_, ?_⟩
    · simpa [indentation] using hfeed
    · rw [List.getLast?_append_of_ne_nil _ (by simpa using hne)]
      exact hreturn

theorem isLine_written {l : Line} (h : Text.IsLine l.text) (depth : Nat) :
    Text.IsLine (l.written depth) := by
  rw [Line.written]
  split
  · exact ⟨by simp, by simp⟩
  · exact isLine_indent h depth

theorem isLine_of_mem_ofLines {ls : List Line} (h : ∀ l ∈ ls, Text.IsLine l.text) (depth : Nat) :
    ∀ line ∈ ofLines depth ls, Text.IsLine line := by
  induction ls generalizing depth with
  | nil => simp [ofLines]
  | cons l ls ih =>
    have hl := h l List.mem_cons_self
    have hls : ∀ depth, ∀ line ∈ ofLines depth ls, Text.IsLine line :=
      ih fun l' hl' => h l' (List.mem_cons_of_mem _ hl')
    intro line hline
    rw [ofLines] at hline
    split at hline <;> rcases List.mem_cons.mp hline with rfl | hline
    all_goals first
      | exact isLine_written hl _
      | exact hls _ line hline

end Layout

theorem ReadOptions.isLine_of_mem_linesOf {o : ReadOptions} {text : Text} :
    ∀ l ∈ o.linesOf text, Text.IsLine l.text := by
  intro l hl
  obtain ⟨line, hline, rfl⟩ := List.mem_map.mp hl
  exact Text.isLine_trim (Text.no_feed_of_mem_lines hline)

/-- The lines of a text, as they are laid out, are the lines of what is written of them. -/
theorem ReadOptions.lines_unlines_ofLines (o : ReadOptions) (text : Text) :
    Text.lines (Text.unlines (Layout.ofLines 0 (o.linesOf text))) =
      Layout.ofLines 0 (o.linesOf text) :=
  Text.lines_unlines (Layout.isLine_of_mem_ofLines isLine_of_mem_linesOf 0)

/-! ## Whole files -/

/-- What is written for the entries that are left of a text. -/
theorem writeStatements_of_gives {o : ReadOptions} {t : Outline} (hv : t.Valid) (file : Text)
    (keep : Nat → Bool) {ss : List Statement}
    (h : List.Forall₂ (Entry.Gives o) (kept keep t.allEntries) ss) :
    writeStatements file ss = .ok (Text.unlines ((t.pruned keep 1).text 0)) := by
  have hknows : Closes.Knows (.ofList (t.closes 1)) (t.closes 1) := fun b hb =>
    Closes.ofList_of_mem (t.nodup_closes 1) hb
  have hinside : ∀ e ∈ kept keep t.allEntries,
      (∀ l ∈ e.path, l.Formed) ∧ ∀ l ∈ e.line?, l.directive = .none := by
    intro e he
    have hinside := t.inside_entries _ 1 [] hv e (List.mem_of_mem_filter he)
    exact ⟨fun l hl => (hinside.proper (by simp) l hl).toFormed, hinside.plain⟩
  have hbase : Layout.ProperLevels [] := by simp [Layout.ProperLevels]
  obtain ⟨p, ⟨out, hout, htext⟩, -⟩ :=
    t.writes keep (.ofList (t.closes 1)) 1 hv hknows hbase (Layout.fresh_nil 1)
  have hplace : Layout.place [] (kept keep t.allEntries) = out ++ Layout.closeAll 0 p := by
    have hall := hout []
    simp only [List.append_nil] at hall
    exact hall
  have hlines : Layout.lines file [] ss = .ok ((t.pruned keep 1).text 0) := by
    rw [Layout.lines_eq_place file h hinside, hplace]
    exact congrArg Except.ok htext
  rw [writeStatements, hlines]
  rfl

/-- What is written for all entries of an outline. -/
theorem writeStatements_of_allEntries {o : ReadOptions} {t : Outline} (hv : t.Valid) (file : Text)
    {ss : List Statement} (h : List.Forall₂ (Entry.Gives o) t.allEntries ss) :
    writeStatements file ss = .ok (Text.unlines (Layout.ofLines 0 t.lines)) := by
  have hall : kept (fun _ => true) t.allEntries = t.allEntries := by simp [kept]
  rw [writeStatements_of_gives hv file (fun _ => true) (hall.symm ▸ h), t.text_pruned_all,
    ← Layout.ofLines_lines]

/-- What is written for the statements of a text: its lines as the blocks lay them out. -/
theorem writeStatements_of_readStatements {o : ReadOptions} {text : Text} {ss : List Statement}
    (h : readStatements o text = .ok ss) (file : Text) :
    writeStatements file ss = .ok (Text.unlines (Layout.ofLines 0 (o.linesOf text))) := by
  obtain ⟨t, hv, hlines, hgives⟩ := exists_outline_of_readStatements h
  rw [writeStatements_of_allEntries hv file hgives, hlines]

/-- A text that is read and written back has its lines again, each trimmed and indented by the
blocks around it. -/
theorem toText_ofText {path : Path} {text : Text} {f : ControlFile}
    (hf : ControlFile.ofText path text = .ok f) :
    ∃ out, f.toText = .ok out ∧
      out = Text.unlines
        (Layout.ofLines 0 ((ReadOptions.ofPath Line.commentMarks path).linesOf text)) ∧
      Text.lines out =
        Layout.ofLines 0 ((ReadOptions.ofPath Line.commentMarks path).linesOf text) ∧
      (Text.lines out).length = (Text.lines text).length := by
  have hback := (ReadOptions.ofPath Line.commentMarks path).lines_unlines_ofLines text
  refine ⟨_, writeStatements_of_readStatements (ControlFile.readStatements_of_ofText hf) _, rfl,
    hback, ?_⟩
  rw [hback, Layout.length_ofLines]
  exact List.length_map _

/-- An `Else If` branch without lines between two others, and a block inside one of them. -/
theorem toText_ofText_nested :
    let path : Path := ⟨"/m/m.tcf"⟩
    let text := Text.unlines ["If Scenario == A", "Else If Scenario == B ! none", " ",
      "  If Event == Q", "x == 1", "end  if", "Else", "== 5", "End If"]
    ∃ f out, ControlFile.ofText path text = .ok f ∧ f.toText = .ok out ∧
      out = Text.unlines (Layout.ofLines 0 ((ReadOptions.ofPath Line.commentMarks path).linesOf
        text)) ∧
      (Text.lines out).length = (Text.lines text).length := by
  intro path text
  have hok : (ControlFile.ofText path text).isOk = true := by decide +kernel
  obtain ⟨f, hf⟩ := Except.exists_of_isOk hok
  obtain ⟨out, hout, heq, -, hlength⟩ := toText_ofText hf
  exact ⟨f, out, hf, hout, heq, hlength⟩

end ControlFiles
