import ControlFiles.Proofs.Block.Reopening
import ControlFiles.Proofs.ControlFile.RoundTrip

/-!
# Reading what is left of a text

What is written for the statements that are left of a text is read again exactly if every header
that had to be made can be read (`readStatements_pruned_iff`); the statements are then those of the
pruned outline.
-/

namespace ControlFiles

theorem Layout.map_classify_ofLines (depth : Nat) (ls : List Line) :
    (ofLines depth ls).map (Line.classify Line.commentMarks) = ls.map Line.reread := by
  induction ls generalizing depth with
  | nil => rfl
  | cons l ls ih =>
    rw [ofLines, List.map_cons]
    split <;> rw [List.map_cons, Line.classify_written, ih]

/-- The lines of a text are sound. -/
theorem Outline.sound_of_lines {path : Path} {text : Text} {t : Outline}
    (h : t.lines = (ReadOptions.ofPath Line.commentMarks path).linesOf text) : t.Sound := by
  intro l hl
  rw [h] at hl
  obtain ⟨line, hline, rfl⟩ := List.mem_map.mp hl
  exact Line.sound_classify (Text.no_feed_of_mem_lines hline)

section
variable {path : Path} {t : Outline} {keep : Nat → Bool}

/-- The lines of what is left, as they are read. -/
theorem linesOf_pruned (hv : t.Valid) (hs : t.Sound) (path : Path) (keep : Nat → Bool) :
    (ReadOptions.ofPath Line.commentMarks path).linesOf
      (Text.unlines ((t.pruned keep 1).text 0)) = (t.pruned keep 1).lines.map Line.reread := by
  rw [← Layout.ofLines_lines]
  show (Text.lines _).map (Line.classify Line.commentMarks) = _
  have hisLine := Outline.isLine_of_mem_pruned hv hs keep 1
  rw [Text.lines_unlines (Layout.isLine_of_mem_ofLines hisLine 0), Layout.map_classify_ofLines]

/-- What is left of a text has the lines of the pruned outline, if this is read as it stands. -/
theorem lines_pruned (hv : t.Valid) (hs : t.Sound) (hreturns : (t.pruned keep 1).Returns) :
    (t.pruned keep 1).lines = (ReadOptions.ofPath Line.commentMarks path).linesOf
      (Text.unlines ((t.pruned keep 1).text 0)) := by
  have hmap : (t.pruned keep 1).lines.map Line.reread = (t.pruned keep 1).lines.map id :=
    List.map_congr_left hreturns
  rw [linesOf_pruned hv hs, hmap, List.map_id]

/-- If what is left is read, it has the pruned outline. -/
theorem reads_of_readStatements (hv : t.Valid) (hs : t.Sound) {ss : List Statement}
    (h : readStatements (.ofPath Line.commentMarks path)
      (Text.unlines ((t.pruned keep 1).text 0)) = .ok ss) : (t.pruned keep 1).Reads := by
  obtain ⟨t', hv', hlines⟩ := exists_valid_of_readStatements h
  have hreturns : (t.pruned keep 1).Returns := by
    intro l hl
    refine (Outline.returns_or_malformed hv hs keep 1 l hl).resolve_right fun ⟨flaw, hflaw⟩ => ?_
    refine t'.not_malformed l.reread ?_ flaw hflaw
    rw [hlines, linesOf_pruned hv hs]
    exact List.mem_map_of_mem hl
  have hsame : t' = t.pruned keep 1 :=
    Outline.lines_injective (hlines.trans (lines_pruned hv hs hreturns).symm)
  exact ⟨hsame ▸ hv', hreturns⟩

/-- What is left of a text is read exactly if the headers that are made can be read. -/
theorem readStatements_pruned_iff (hv : t.Valid) (hs : t.Sound) :
    (∃ ss, readStatements (.ofPath Line.commentMarks path)
      (Text.unlines ((t.pruned keep 1).text 0)) = .ok ss) ↔ t.reopenable keep 1 = true := by
  rw [← t.reopenable_iff keep 1 hv hs]
  refine ⟨fun ⟨ss, h⟩ => reads_of_readStatements hv hs h, fun ⟨hv', hreturns⟩ => ?_⟩
  obtain ⟨ss, hss, -⟩ := readStatements_of_valid hv' (lines_pruned hv hs hreturns)
  exact ⟨ss, hss⟩

/-- The statements that are read again are those of the pruned outline. -/
theorem gives_of_readStatements_pruned (hv : t.Valid) (hs : t.Sound) {ss : List Statement}
    (h : readStatements (.ofPath Line.commentMarks path)
      (Text.unlines ((t.pruned keep 1).text 0)) = .ok ss) :
    List.Forall₂ (Entry.Gives (.ofPath Line.commentMarks path)) (t.pruned keep 1).allEntries
      ss := by
  obtain ⟨hv', hreturns⟩ := reads_of_readStatements hv hs h
  obtain ⟨ss', hss', hgives⟩ := readStatements_of_valid hv' (lines_pruned hv hs hreturns)
  rw [h] at hss'
  obtain rfl := Except.ok.inj hss'
  exact hgives

end

end ControlFiles
