import ControlFiles.Proofs.Run.Tokens
import ControlFiles.Proofs.Run.Visiting

/-!
# Layers and files

A reference to geographic data is cut twice: before a run, its parts are taken for the files that
they name; in the run, the parts of the value that was put together again are taken for databases
with their layers. The two cuts agree on every value (`Resolve.map_fst_segments`), and what is
written back of a part, with a blank in front of the layer, is cut at the same place
(`Layer.split_writtenPart`). So the layers of a reference in a run are, one by one, in its files
(`resolve_layers`).
-/

namespace ControlFiles

namespace Layer

/-- The database of a reference is what stands before the separator, or all of it. -/
theorem split_fst (t : Text) :
    (split t).1 = Text.trim (((Text.cut? separator t).map Prod.fst).getD t) := by
  rw [split]
  cases Text.cut? separator t <;> rfl

theorem split_fst_of_cut? {t file layer : Text}
    (h : Text.cut? separator t = some (file, layer)) : (split t).1 = Text.trim file := by
  rw [split_fst, h]
  rfl

/-- What neither holds the separator nor ends with a part of it is cut off in front of it. -/
theorem cut?_separator_append {file : Text} (h : ¬ separator <:+: file ++ ['>']) (layer : Text) :
    Text.cut? separator (file ++ (separator ++ layer)) = some (file, layer) :=
  Text.cut?_append (by decide) h layer

theorem not_infix_of_cut? {t file layer : Text}
    (h : Text.cut? separator t = some (file, layer)) : ¬ separator <:+: file ++ ['>'] :=
  Text.not_infix_of_cut? h (by decide) ['>'] ⟨['>'], rfl⟩ (by decide)

/-- Blanks around a reference do not count. -/
theorem split_trim (t : Text) : (split (Text.trim t)).1 = (split t).1 := by
  obtain ⟨a, b, ha, hb, ht⟩ := Text.exists_eq_trim t
  cases hcut : Text.cut? separator (Text.trim t) with
  | none =>
    have hnone : Text.cut? separator t = none := by
      rw [Text.cut?_eq_none_iff] at hcut ⊢
      rw [ht]
      exact fun h => hcut (Text.infix_of_infix_blank (by decide) (by decide) ha hb h)
    rw [split_fst, split_fst, hcut, hnone]
    exact Text.trim_trim t
  | some p =>
    obtain ⟨file, layer⟩ := p
    have hfile : ¬ separator <:+: (a ++ file) ++ ['>'] := by
      intro h
      rw [List.append_assoc, ← List.append_nil (file ++ ['>'])] at h
      exact not_infix_of_cut? hcut
        (Text.infix_of_infix_blank (by decide) (by decide) ha (by simp) h)
    have hwhole : t = (a ++ file) ++ (separator ++ (layer ++ b)) := by
      calc t = a ++ (Text.trim t ++ b) := ht
        _ = (a ++ file) ++ (separator ++ (layer ++ b)) := by
            rw [Text.cut?_eq_some hcut]
            simp only [List.append_assoc]
    have hcut' := cut?_separator_append hfile (layer ++ b)
    rw [← hwhole] at hcut'
    rw [split_fst_of_cut? hcut, split_fst_of_cut? hcut', Text.trim_blank_append ha]

/-- A part that was written back is cut where it was cut before. -/
theorem split_writtenPart (part : Text) :
    (split (Resolve.writtenPart part)).1 = (split part).1 := by
  cases hcut : Text.cut? separator part with
  | none => rw [Resolve.writtenPart, hcut]
  | some p =>
    obtain ⟨file, layer⟩ := p
    have hfile : ¬ separator <:+: (Text.trim file ++ [' ']) ++ ['>'] := by
      rw [List.append_assoc]
      intro h
      obtain h | h := Text.infix_of_infix_append_cons (by decide) h
      · have hbefore := h.trans (Text.trim_infix file)
        exact not_infix_of_cut? hcut (hbefore.trans (List.prefix_append file ['>']).isInfix)
      · exact absurd h.length_le (by decide)
    have hwritten : Resolve.writtenPart part =
        (Text.trim file ++ [' ']) ++ (separator ++ layer) := by
      rw [Resolve.writtenPart, hcut]
      simp
    rw [hwritten, split_fst_of_cut? (cut?_separator_append hfile layer), split_fst_of_cut? hcut,
      Text.trim_append_blank (by decide), Text.trim_trim]

end Layer

namespace Resolve

/-! ## The two cuts -/

/-- The files that the parts of a value name are the databases of its layers. -/
theorem map_fst_segments {kind : StatementKind} (hkind : kind.hasChild = false) (value : Text) :
    (segments kind value).map Prod.fst =
      (Text.alternatives value).map fun part => (Layer.split part).1 := by
  simp only [segments, hkind, Bool.false_eq_true, if_false, List.map_map]
  refine List.map_congr_left fun part hpart => ?_
  rw [Function.comp_apply, Layer.split_fst]
  cases Text.cut? Layer.separator part with
  | none => exact (Text.isName_of_mem_alternatives hpart).trimmed.symm
  | some p => rfl

theorem map_resolve_segments {kind : StatementKind} (hkind : kind.hasChild = false) (base : Path)
    (value : Text) :
    (segments kind value).map (fun p => base.resolve p.1) =
      (Text.alternatives value).map fun part => base.resolve (Layer.split part).1 := by
  have hcut := congrArg (List.map base.resolve) (map_fst_segments hkind value)
  rwa [List.map_map, List.map_map] at hcut

/-! ## Values that are written back -/

theorem no_bar_writtenPart {part : Text} (h : '|' ∉ part) : '|' ∉ writtenPart part := by
  cases hcut : Text.cut? Layer.separator part with
  | none => rwa [writtenPart, hcut]
  | some p =>
    obtain ⟨file, layer⟩ := p
    rw [Text.cut?_eq_some hcut] at h
    simp only [List.mem_append, not_or] at h
    simp only [writtenPart, hcut, List.mem_append, not_or]
    exact ⟨fun hbar => h.1 (Text.mem_of_mem_trim hbar), ⟨by decide, h.2.1⟩, h.2.2⟩

theorem trim_writtenPart_ne_nil {part : Text} (h : Text.IsName part) :
    Text.trim (writtenPart part) ≠ [] := by
  cases hcut : Text.cut? Layer.separator part with
  | none =>
    rw [writtenPart, hcut, h.trimmed]
    exact h.nonempty
  | some p =>
    obtain ⟨file, layer⟩ := p
    intro hnil
    obtain ⟨a, b, ha, hb, heq⟩ := Text.exists_eq_trim (writtenPart part)
    -- the separator is no blank, so it is not among those around nothing
    have hmark : '>' ∈ a ++ b := by
      rw [hnil, List.nil_append] at heq
      rw [← heq, writtenPart, hcut]
      simp [Layer.separator]
    obtain hmark | hmark := List.mem_append.mp hmark
    · exact absurd (ha _ hmark) (by decide)
    · exact absurd (hb _ hmark) (by decide)

/-- A part that was written back is one part again. -/
theorem alternatives_writtenPart {part : Text} (h : Text.IsName part) :
    Text.alternatives (writtenPart part) = [Text.trim (writtenPart part)] := by
  rw [Text.alternatives_of_no_bar (no_bar_writtenPart h.noBar), if_neg (trim_writtenPart_ne_nil h)]

/-- A value that was written back names the databases that it named before. -/
theorem map_split_written (value : Text) :
    ((Text.alternatives (written value)).map fun part => (Layer.split part).1) =
      (Text.alternatives value).map fun part => (Layer.split part).1 := by
  have hname : ∀ part ∈ Text.alternatives value, Text.IsName part := fun _ =>
    Text.isName_of_mem_alternatives
  have hbar : ∀ part ∈ (Text.alternatives value).map writtenPart, '|' ∉ part :=
    List.forall_mem_map.mpr fun part hpart => no_bar_writtenPart (hname part hpart).noBar
  rw [written, Text.alternatives_join_of_no_bar hbar, List.flatMap_map,
    List.flatMap_congr fun part hpart => alternatives_writtenPart (hname part hpart),
    ← List.map_eq_flatMap, List.map_map]
  refine List.map_congr_left fun part _ => ?_
  rw [Function.comp_apply, Layer.split_trim, Layer.split_writtenPart]

section
variable {files : Files Id} {base : Path} {c : Context} {s : Statement}

theorem layers_of_runActive {children : List (Text × Runner Id)} {r : RunStatement}
    {found : List Finding} (h : runActive files base s children c = .ok (r, found)) :
    r.layers = layers base s r.value := (runActive_eq_ok h).2.1

/-- The files of a reference to geographic data are the databases of its value. -/
theorem files_of_gisReference {value : Text} {paths : List Path} (hkind : s.kind = .gisReference)
    (h : Resolve.value files base c s = .ok (some value, paths)) :
    paths = (Text.alternatives value).map fun part => base.resolve (Layer.split part).1 := by
  have hchild : s.kind.hasChild = false := by rw [hkind]; rfl
  have hnames : namesFiles s = true := by simp [namesFiles, hkind, StatementKind.referencesFile]
  cases value_eq_ok_iff.mp h with
  | known _ _ =>
    rw [if_pos hnames]
    exact map_resolve_segments hchild base _
  | @searched raw found _ _ _ _ hfound =>
    obtain ⟨hwritten, hpaths⟩ := found_eq_written hchild hfound
    have hback := congrArg (List.map base.resolve) (map_split_written (c.substituteVariables raw))
    rw [List.map_map, List.map_map] at hback
    rw [hwritten, hpaths]
    exact (map_resolve_segments hchild base (c.substituteVariables raw)).trans hback.symm

end

end Resolve

open Resolve

/-- The layers of a reference to geographic data in a run are, one by one, in its files. Its value
names these files also when it is cut as it was before the run: for every text the two cuts are
one. -/
theorem resolve_layers {files : Files Id} {f : ControlFile} {c : Context} {res : Resolution}
    (hres : f.resolve files c = .ok res) {rf : RunFile} (hrf : res.run.Includes rf)
    {r : RunStatement} (hr : r ∈ rf.statements) (hkind : r.kind = .gisReference) {value : Text}
    (hvalue : r.value = some value) :
    r.layers.map Layer.database = r.files ∧
      r.files = (segments .gisReference value).map (fun p => rf.path.directory.resolve p.1) ∧
      ∀ t, (segments .gisReference t).map Prod.fst =
        (Text.alternatives t).map fun part => (Layer.split part).1 := by
  obtain ⟨fs, cf, g, findings, -, hpath, hrun⟩ := Visits.exists_of_includes hres hrf
  obtain ⟨s, -, -, found, hs⟩ := exists_of_mem_runStatements hrun hr
  obtain ⟨hbecomes, -⟩ := runActive_ok hs
  have hsame : s.kind = .gisReference := hbecomes.kind.symm.trans hkind
  have hmeaning := hbecomes.value
  rw [hvalue] at hmeaning
  have hfiles := files_of_gisReference hsame hmeaning
  have hlayers : r.layers = (Text.alternatives value).map (Layer.ofReference g.path.directory) := by
    rw [layers_of_runActive hs, hvalue, layers.eq_def, hsame]
  refine ⟨?_, ?_, map_fst_segments rfl⟩
  · rw [hlayers, hfiles, List.map_map]
    rfl
  · rw [hfiles, hpath, map_resolve_segments rfl]

/-- A reference below the root: a layer of a database, an empty part, a layer of nothing, and a
name with a token that is left, which is cut like a layer. -/
theorem resolve_layers_below :
    let store := Store.ofList [
      (⟨"/m/m.tcf"⟩, "Geometry Control File == g/a.tgc
"),
      (⟨"/m/g/a.tgc"⟩, "Read GIS Code == d.gpkg >> x_R | | >> y_L >> z | c_<<~s1~>>_P.shp
")]
    ∃ t res rf r value, ControlFile.load store.files .standard ⟨"/m/m.tcf"⟩ = .ok t ∧
      t.resolve store.files (.ofChosen ⟨[], []⟩) = .ok res ∧ res.run.Includes rf ∧
      r ∈ rf.statements ∧ r.kind = .gisReference ∧ r.value = some value ∧
      r.files = [⟨"/m/g/d.gpkg"⟩, ⟨"/m/g"⟩, ⟨"/m/g/c_<<~s1~"⟩] ∧
      r.layers.map Layer.database = r.files := by
  intro store
  have hrun : ((ControlFile.load store.files .standard ⟨"/m/m.tcf"⟩).toOption.any fun t =>
      (t.resolve store.files (.ofChosen ⟨[], []⟩)).toOption.any fun res =>
        res.run.children.any fun rf =>
          rf.statements.any fun r => r.kind == .gisReference && r.value.isSome &&
            r.files == [⟨"/m/g/d.gpkg"⟩, ⟨"/m/g"⟩, ⟨"/m/g/c_<<~s1~"⟩]) = true := by
    decide +kernel
  obtain ⟨t, ht, hrun⟩ := Except.toOption_any_iff.mp hrun
  obtain ⟨res, hres, hrun⟩ := Except.toOption_any_iff.mp hrun
  simp only [List.any_eq_true, Bool.and_eq_true, beq_iff_eq] at hrun
  obtain ⟨rf, hrf, r, hr, ⟨hkind, hvalue⟩, hfiles⟩ := hrun
  obtain ⟨value, hvalue⟩ := Option.isSome_iff_exists.mp hvalue
  have hrf : res.run.Includes rf := .child .root hrf
  exact ⟨t, res, rf, r, value, ht, hres, hrf, hr, hkind, hvalue, hfiles,
    (resolve_layers hres hrf hr hkind hvalue).1⟩

end ControlFiles
