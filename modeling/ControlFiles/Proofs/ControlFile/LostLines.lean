import ControlFiles.Proofs.Block.Headers
import ControlFiles.Proofs.ControlFile.RoundTrip

/-!
# Lines that are lost

A line that has neither a command nor a comment counts as blank, and is written as an empty line.
It need not be empty: it can have a value behind `==` (`Line.isBlankLine_classify_iff`). All other
lines come out as they were, with other blanks around them (`forall₂_lines_toText`).
-/

namespace ControlFiles

/-- The line is a value alone: it begins with `==`, and no comment follows. -/
def Text.IsValueAlone (line : Text) : Prop :=
  ("==" : Text) <+: trim line ∧ ∀ c ∈ trim line, Line.commentMarks.contains c = false

instance (line : Text) : Decidable line.IsValueAlone :=
  inferInstanceAs (Decidable (("==" : Text) <+: Text.trim line ∧
    ∀ c ∈ Text.trim line, Line.commentMarks.contains c = false))

theorem Text.nonempty?_eq_none_iff {t : Text} : nonempty? t = none ↔ t = [] := by
  rw [nonempty?]
  split <;> simp_all

namespace Line

/-! ## One line -/

theorem splitComment_of_no_mark {marks t : Text} (h : ∀ c ∈ t, marks.contains c = false) :
    splitComment marks t = (t, none) := by
  have hbody : t.takeWhile (fun c => !marks.contains c) = t :=
    List.takeWhile_eq_self_iff.mpr fun c hc => by rw [h c hc]; rfl
  unfold splitComment
  simp only [hbody, List.drop_length]

theorem splitComment_comment_eq_none_iff {marks t : Text} :
    (splitComment marks t).2 = none ↔ ∀ c ∈ t, marks.contains c = false := by
  refine ⟨fun h => ?_, fun h => by rw [splitComment_of_no_mark h]⟩
  unfold splitComment at h
  simp only at h
  split at h
  · rename_i hdrop
    have hbody : t.takeWhile (fun c => !marks.contains c) = t :=
      (List.takeWhile_prefix _).eq_of_length_le (List.drop_eq_nil_iff.mp hdrop)
    simpa using List.takeWhile_eq_self_iff.mp hbody
  · cases h

/-- A trimmed text has no command exactly if nothing stands in front of the value. -/
theorem splitValue_command_eq_none_iff {body : Text} (htrim : Text.trim body = body) :
    (splitValue body).1 = none ↔ body = [] ∨ ("==" : Text) <+: body := by
  unfold splitValue
  cases hcut : Text.cut? "==" body with
  | none =>
    have hmark := Text.cut?_eq_none_iff.mp hcut
    simp only [Text.nonempty?_eq_none_iff, htrim]
    exact ⟨.inl, fun h => h.resolve_right fun hbegins => hmark hbegins.isInfix⟩
  | some parts =>
    obtain ⟨before, after⟩ := parts
    have hbody := Text.cut?_eq_some hcut
    simp only [Text.nonempty?_eq_none_iff]
    constructor
    · intro hblank
      cases before with
      | nil => exact .inr ⟨after, hbody.symm⟩
      | cons c before =>
        -- the text is trimmed, so what stands in front of the value does not begin with a blank
        have hfirst := (Text.trim_eq_self_iff.mp htrim).1 c (by rw [hbody]; rfl)
        rw [Text.trim_cons_of_not_blank hfirst] at hblank
        cases hblank
    · rintro (rfl | ⟨rest, rfl⟩)
      · cases hcut
      · obtain ⟨rfl, -⟩ := Prod.mk.inj (Option.some.inj hcut)
        rfl

/-- Blank are the lines that are empty or a value alone. -/
theorem isBlankLine_classify_iff {line : Text} :
    (classify commentMarks line).isBlankLine = true ↔
      Text.trim line = [] ∨ line.IsValueAlone := by
  have hcomment : (classify commentMarks line).comment = none ↔
      ∀ c ∈ Text.trim line, commentMarks.contains c = false := splitComment_comment_eq_none_iff
  have hblank : (classify commentMarks line).isBlankLine = true ↔
      (classify commentMarks line).command = none ∧
        (classify commentMarks line).comment = none := by
    rw [isBlankLine, Bool.and_eq_true, Bool.and_eq_true, decide_eq_true_iff, classify_directive,
      Option.isNone_iff_eq_none, Option.isNone_iff_eq_none]
    refine ⟨fun h => ⟨h.1.2, h.2⟩, fun h => ⟨⟨?_, h.1⟩, h.2⟩⟩
    rw [h.1]
  have hcommand (hmark : ∀ c ∈ Text.trim line, commentMarks.contains c = false) :
      (classify commentMarks line).command = none ↔
        Text.trim line = [] ∨ ("==" : Text) <+: Text.trim line := by
    rw [← splitValue_command_eq_none_iff (Text.trim_trim line)]
    simp only [classify, splitComment_of_no_mark hmark]
  rw [hblank, hcomment, Text.IsValueAlone]
  constructor
  · rintro ⟨hnone, hmark⟩
    exact ((hcommand hmark).mp hnone).imp_right fun hbegins => ⟨hbegins, hmark⟩
  · rintro (hnil | ⟨hbegins, hmark⟩)
    · have hmark : ∀ c ∈ Text.trim line, commentMarks.contains c = false := by simp [hnil]
      exact ⟨(hcommand hmark).mpr (.inl hnil), hmark⟩
    · exact ⟨(hcommand hmark).mpr (.inr hbegins), hmark⟩

/-- How a line comes out, wherever it stands: empty if it counts as blank, and otherwise as it was
but for the blanks around it. -/
def ComesOut (line written : Text) : Prop :=
  (written = [] ↔ Text.trim line = [] ∨ line.IsValueAlone) ∧
    (written ≠ [] → ∃ depth, written = Layout.indentation depth ++ Text.trim line)

theorem comesOut_written (line : Text) (depth : Nat) :
    ComesOut line ((classify commentMarks line).written depth) := by
  rw [ComesOut, ← isBlankLine_classify_iff, written, classify_text]
  cases hblank : (classify commentMarks line).isBlankLine with
  | true => simp
  | false =>
    have hne : Text.trim line ≠ [] := fun hnil => by
      have := isBlankLine_classify_iff.mpr (.inl hnil)
      exact absurd (hblank.symm.trans this) (by decide)
    have hindent : Layout.indent depth (Text.trim line) =
        Layout.indentation depth ++ Text.trim line := by
      rw [Layout.indent, if_neg (by simpa using hne)]
    rw [if_neg (by decide), hindent]
    exact ⟨by simp [hne], fun _ => ⟨depth, rfl⟩⟩

end Line

/-! ## Whole texts -/

theorem Layout.forall₂_ofLines (depth : Nat) (lines : List Text) :
    List.Forall₂ Line.ComesOut lines
      (ofLines depth (lines.map (Line.classify Line.commentMarks))) := by
  induction lines generalizing depth with
  | nil => exact .nil
  | cons line lines ih =>
    rw [List.map_cons, ofLines]
    split <;> exact .cons (Line.comesOut_written line _) (ih _)

/-- No line is lost: only what is empty is written as an empty line. -/
def LosesNone (lines written : List Text) : Prop :=
  List.Forall₂ (fun line out => out = [] → Text.trim line = []) lines written

theorem losesNone_iff {lines written : List Text} (h : List.Forall₂ Line.ComesOut lines written) :
    LosesNone lines written ↔ ∀ line ∈ lines, ¬ line.IsValueAlone := by
  induction h with
  | nil => simp [LosesNone]
  | @cons line out lines written hline _ ih =>
    have hvalue : (out = [] → Text.trim line = []) ↔ ¬ line.IsValueAlone := by
      rw [hline.1]
      refine ⟨fun hempty halone => ?_, fun halone h => h.resolve_right halone⟩
      have hbegins := halone.1
      rw [hempty (.inr halone), List.prefix_nil] at hbegins
      cases hbegins
    rw [LosesNone, List.forall₂_cons, ← LosesNone, ih, hvalue, List.forall_mem_cons]

/-- A text that is read and written back has as many lines as before. Those that are empty and those
that are a value alone are empty then; all others are as they were but for the blanks around them.
So no line is lost exactly if none is a value alone. -/
theorem forall₂_lines_toText {path : Path} {text : Text} {f : ControlFile}
    (hf : ControlFile.ofText path text = .ok f) :
    ∃ out, f.toText = .ok out ∧
      List.Forall₂ Line.ComesOut (Text.lines text) (Text.lines out) ∧
      (LosesNone (Text.lines text) (Text.lines out) ↔
        ∀ line ∈ Text.lines text, ¬ line.IsValueAlone) := by
  refine ⟨_, writeStatements_of_readStatements (ControlFile.readStatements_of_ofText hf) _, ?_⟩
  rw [ReadOptions.lines_unlines_ofLines]
  have hout := Layout.forall₂_ofLines 0 (Text.lines text)
  exact ⟨hout, losesNone_iff hout⟩

/-- Comments, values, headers, and two lines that come out empty. -/
theorem forall₂_lines_toText_values :
    let path : Path := ⟨"/m/m.tcf"⟩
    let text := Text.unlines ["If Scenario == A", "== 5 ! five", "  === 5 ", "\t", "x ==", "End If"]
    ∃ f out, ControlFile.ofText path text = .ok f ∧ f.toText = .ok out ∧
      List.Forall₂ Line.ComesOut (Text.lines text) (Text.lines out) ∧
      ¬ LosesNone (Text.lines text) (Text.lines out) := by
  intro path text
  obtain ⟨f, hf⟩ := Except.exists_of_isOk
    (show (ControlFile.ofText path text).isOk = true by decide +kernel)
  obtain ⟨out, hout, hlines, hnone⟩ := forall₂_lines_toText hf
  refine ⟨f, out, hf, hout, hlines, fun hkept => ?_⟩
  exact hnone.mp hkept "  === 5 " (by decide +kernel) (by decide +kernel)

/-- A value alone is lost. -/
theorem not_forall_losesNone : ¬ ∀ (path : Path) (text : Text) (f : ControlFile),
    ControlFile.ofText path text = .ok f →
      ∃ out, f.toText = .ok out ∧ LosesNone (Text.lines text) (Text.lines out) := by
  intro h
  obtain ⟨f, hf⟩ := Except.exists_of_isOk
    (show (ControlFile.ofText ⟨"/m/m.tcf"⟩ "== 5").isOk = true by decide +kernel)
  obtain ⟨out, hout, hnone⟩ := h _ _ f hf
  have hwritten : (ControlFile.ofText ⟨"/m/m.tcf"⟩ "== 5").map ControlFile.toText =
      .ok (.ok "\n") := by decide +kernel
  rw [hf, Except.map, hout] at hwritten
  obtain rfl := Except.ok.inj (Except.ok.inj hwritten)
  rw [show Text.lines "== 5" = [("== 5" : Text)] by decide, show Text.lines "\n" = [[]] by decide]
    at hnone
  exact absurd ((List.forall₂_cons.mp hnone).1 rfl) (by decide)

end ControlFiles
