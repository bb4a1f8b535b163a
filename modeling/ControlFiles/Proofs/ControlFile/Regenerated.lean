import ControlFiles.Proofs.ControlFile.Mirroring
import ControlFiles.Proofs.ControlFile.Rereading

/-!
# Writing without places and reading back

When the scopes of a text lose the places that they were read from, its headers are lost with them.
The writer makes new ones, and may put what stood in two blocks into one. What it writes is still
read without a fault, and the statements come back in their order with their kinds, texts and scopes
(`ofText_writeStatements_withoutSources`), as long as every header of the text that takes names
lists one, and no name has a wildcard token.
-/

namespace ControlFiles

theorem Walks.formed {p p' : List Level} {es : List Entry} (h : Walks p' p es)
    (hp : ∀ l ∈ p, l.Formed) : ∀ e ∈ es, ∀ l ∈ e.path, l.Formed := by
  induction es generalizing p with
  | nil => simp
  | cons e es ih =>
    obtain ⟨hfollows, hwalks⟩ := h
    have hpath := hfollows.formed hp
    exact List.forall_mem_cons.mpr ⟨hpath, ih hwalks hpath⟩

/-! ## Statements that come back -/

/-- The second statement is the first one again: of the same kind, with the same text unless it is
blank, and under scopes that agree. -/
structure Statement.ComesBack (s t : Statement) : Prop where
  kind : t.kind = s.kind
  raw : s.kind ≠ .blank → t.raw = s.raw
  scope : ScopeList.Identical s.scope t.scope

theorem Scope.identical_withCloses (closes : List (Nat × Text)) {s t : Scope}
    (h : s.identical t = true) : s.identical (t.withCloses closes) = true := by
  induction closes generalizing t with
  | nil => exact h
  | cons p closes ih =>
    refine ih ?_
    have hclose : t.withClose p.1 p.2 = { t with source := (t.withClose p.1 p.2).source } := by
      rw [withClose]
      split
      · split <;> rfl
      · rfl
    show s.identical (t.withClose p.1 p.2) = true
    rw [hclose]
    exact h

theorem ScopeList.Identical.withCloses {l k : List Scope} (h : Identical l k)
    (closes : List (Nat × Text)) :
    Identical l (closes.foldl (fun scope p => ScopeList.withClose scope p.1 p.2) k) := by
  rw [ScopeList.foldl_withClose]
  exact List.forall₂_map_right_iff.mpr (h.imp fun _ _ => Scope.identical_withCloses closes)

/-- What is read for an entry without places is the statement of the entry. -/
theorem Entry.Gives.comesBack {o : ReadOptions} {e : Entry} {s t : Statement} (h : e.Gives o s)
    (ht : e.withoutSources.Returns t) (closes : List (Nat × Text)) :
    s.ComesBack (Reading.withCloses closes t) := by
  obtain ⟨l, hl, hkind⟩ := ht.kind
  have hline : e.line? = some l := hl
  have hs : s.kind = l.statementKind := by
    obtain ⟨id, rfl⟩ := h
    simp [statement, hline, Statement.ofLine]
  have hsame : t.kind = s.kind := hkind.trans hs.symm
  refine ⟨hsame, fun hblank => ?_, ?_⟩
  · rw [h.raw_eq]
    exact ht.raw (hsame ▸ hblank)
  · rw [h.scope_eq]
    have hscope : e.withoutSources.scope = e.scope.map Scope.withoutSource :=
      (Level.map_withoutSource_scopeList e.path).symm
    have hreturns := ht.scope
    rw [hscope] at hreturns
    exact ScopeList.Identical.withCloses (List.forall₂_map_left_iff.mp hreturns) closes

/-- The statements that are no placeholders are those of the entries with a line. -/
theorem filter_of_gives {o : ReadOptions} {es : List Entry} {ss : List Statement}
    (h : List.Forall₂ (Entry.Gives o) es ss) :
    List.Forall₂ (Entry.Gives o) (es.filter fun e => e.line?.isSome)
      (ss.filter fun s => s.kind ≠ .placeholder) := by
  induction h with
  | nil => exact .nil
  | @cons e s es ss hgives _ ih =>
    cases hl : e.line? with
    | none =>
      have hkind := hgives.placeholder_iff.mpr hl
      rw [List.filter_cons_of_neg (by simp [hl]), List.filter_cons_of_neg (by simp [hkind])]
      exact ih
    | some l =>
      have hkind : s.kind ≠ .placeholder := by simp [hgives.placeholder_iff, hl]
      rw [List.filter_cons_of_pos (by simp [hl]), List.filter_cons_of_pos (by simpa using hkind)]
      exact .cons hgives ih

/-! ## Whole texts -/

/-- The headers of a text can be generated again, if they list names, and no name holds a token. -/
theorem Outline.writable_of_lines {path : Path} {text : Text} {t : Outline}
    (hlines : t.lines = (ReadOptions.ofPath Line.commentMarks path).linesOf text)
    (hplain : ∀ l ∈ t.lines, l.PlainHeader) (hnamed : ∀ l ∈ t.lines, l.NamedHeader) :
    t.Writable := by
  intro l hl h hh
  obtain ⟨line, hline, rfl⟩ := List.mem_map.mp (hlines ▸ hl)
  obtain ⟨hopenable, hlisted, hnone⟩ :=
    Line.openable_of_header (Text.no_feed_of_mem_lines hline) hh
  refine ⟨hopenable, hlisted, hplain _ hl h hh, fun hnil => ?_, hnone⟩
  by_contra hanonymous
  exact hnamed _ hl h hh (by simpa using hanonymous) hnil

theorem Outline.mem_lines_of_mem_allEntries {t : Outline} {e : Entry} (he : e ∈ t.allEntries)
    {l : Line} (hl : l ∈ e.line?) : l ∈ t.lines := by
  have hcontent : (l, e.number) ∈ t.allEntries.filterMap Entry.content? :=
    List.mem_filterMap.mpr ⟨e, he, by rw [Entry.content?, Option.mem_def.mp hl]; rfl⟩
  rw [allEntries, filterMap_content_entries, contents, List.mem_filter] at hcontent
  exact (List.mem_zipIdx hcontent.1).2.2 ▸ List.getElem_mem _

/-- Lines that are read in step with the writer, until it has closed all blocks, make up a text that
is read without a fault. -/
theorem readStatements_of_reads {texts : List Text} {done : List Entry}
    (h : Layout.Reads texts [] [] [] done) (path : Path) : ∃ ss contents closes,
      readStatements (.ofPath Line.commentMarks path) (Text.unlines texts) = .ok ss ∧
        (ss.filter fun s => s.kind ≠ .placeholder) =
          contents.map (Reading.withCloses closes) ∧
        List.Forall₂ Entry.Returns done contents := by
  obtain ⟨hisLine, r, hsteps, hr⟩ :=
    h (.ofPath Line.commentMarks path) ⟨.empty path.text, [], []⟩ 1 ⟨.nil, .nil⟩
  have hblocks : r.stack.blocks = [] := List.forall₂_nil_left_iff.mp hr.blocks
  have hlines : (ReadOptions.ofPath Line.commentMarks path).linesOf (Text.unlines texts) =
      texts.map (Line.classify Line.commentMarks) := by
    show (Text.lines _).map _ = _
    rw [Text.lines_unlines hisLine]
    rfl
  have hread : readStatements (.ofPath Line.commentMarks path) (Text.unlines texts) =
      .ok (r.statements.reverse.map (Reading.withCloses r.stack.closes)) := by
    rw [← hlines] at hsteps
    exact readStatements_eq_ok.mpr ⟨r, hsteps, hblocks, rfl⟩
  refine ⟨_, r.contents, r.stack.closes, hread, ?_, hr.contents⟩
  rw [Reading.contents, List.filter_map]
  rfl

/-- The statements of the entries come back, if what is read for the entries without places are
their statements. -/
theorem comesBack_of_returns {o : ReadOptions} {es : List Entry} {ss ts : List Statement}
    (hgives : List.Forall₂ (Entry.Gives o) es ss)
    (hreturns : List.Forall₂ Entry.Returns (es.map Entry.withoutSources) ts)
    (closes : List (Nat × Text)) :
    List.Forall₂ Statement.ComesBack ss (ts.map (Reading.withCloses closes)) := by
  induction hgives generalizing ts with
  | nil =>
    cases hreturns
    exact .nil
  | cons he _ ih =>
    cases hreturns with
    | cons ht hreturns => exact .cons (he.comesBack ht closes) (ih hreturns)

/-- A text of which the scopes lose the places that they were read from is written without a fault,
and what is written is read without a fault: the statements come back in their order, of the same
kinds, with the same texts unless they are blank, and under scopes that agree. -/
theorem ofText_writeStatements_withoutSources {path : Path} {text : Text} {f : ControlFile}
    (hf : ControlFile.ofText path text = .ok f)
    (hplain : ∀ l ∈ (ReadOptions.ofPath Line.commentMarks path).linesOf text, l.PlainHeader)
    (hnamed : ∀ l ∈ (ReadOptions.ofPath Line.commentMarks path).linesOf text, l.NamedHeader) :
    ∃ out g, writeStatements path.text (f.statements.map Statement.withoutSources) = .ok out ∧
      ControlFile.ofText path out = .ok g ∧
      List.Forall₂ Statement.ComesBack (f.statements.filter fun s => s.kind ≠ .placeholder)
        (g.statements.filter fun s => s.kind ≠ .placeholder) := by
  obtain ⟨t, hv, hlines, hgives⟩ :=
    exists_outline_of_readStatements (ControlFile.readStatements_of_ofText hf)
  rw [← hlines] at hplain hnamed
  have hsound := Outline.sound_of_lines hlines
  have hwritable := Outline.writable_of_lines hlines hplain hnamed
  obtain ⟨p', hwalks, -⟩ := t.walks (.ofList (t.closes 1)) 1 [] [] hv hwritable
    (Level.reaches_nil [])
  change Walks p' [] (t.allEntries.map Entry.withoutSources) at hwalks
  have hcontent : ∀ e ∈ t.allEntries.map Entry.withoutSources, ∀ l ∈ e.line?,
      l.directive = .none ∧ l.Sound := by
    intro e he l hl
    obtain ⟨e', he', rfl⟩ := List.mem_map.mp he
    exact ⟨(t.inside_entries _ 1 [] hv e' he').plain l hl,
      hsound l (Outline.mem_lines_of_mem_allEntries he' hl)⟩
  have hwrite : Layout.lines path.text [] (f.statements.map Statement.withoutSources) =
      .ok (Layout.place [] (t.allEntries.map Entry.withoutSources)) :=
    Layout.lines_eq_place path.text (List.forall₂_map_left_iff.mpr (List.forall₂_map_right_iff.mpr
      (hgives.imp fun _ _ h => h.withoutSources))) (fun e he =>
        ⟨hwalks.formed (by simp) e he, fun l hl => (hcontent e he l hl).1⟩) []
  obtain ⟨ss, contents, closes, hread, hfilter, hreturns⟩ :=
    readStatements_of_reads (Layout.reads_place hwalks .nil hcontent []) path
  refine ⟨_, ⟨path, .ofPath path, ss, []⟩, by rw [writeStatements, hwrite]; rfl, ?_, ?_⟩
  · rw [ControlFile.ofText]
    exact congrArg (Except.map _) hread
  · show List.Forall₂ _ _ (ss.filter _)
    rw [hfilter]
    refine comesBack_of_returns (filter_of_gives hgives) ?_ closes
    rw [List.nil_append, List.filter_map] at hreturns
    exact hreturns

/-- Two blocks that ask the same become one, in which the branches of the second come behind. -/
theorem ofText_writeStatements_withoutSources_merged :
    let path : Path := ⟨"/m/m.tcf"⟩
    let text := Text.unlines ["If Scenario == A", "x == 1", "End If", "If Scenario == a ! again",
      "y == 2", "Else If Scenario == B | b", "else", "z", "End If", "Define Map Output Zone == Q",
      "Start 1D Domain", "w ! note", "End 1D Domain", " ", "End Define"]
    let written := Text.unlines ["If Scenario == A", "    x == 1", "    y == 2",
      "Else If Scenario == B", "Else", "    z", "End If", "Define Output Zone == Q",
      "    Start 1D Domain", "        w ! note", "    End 1D Domain", "", "End Define"]
    ∃ f out g, ControlFile.ofText path text = .ok f ∧
      writeStatements path.text (f.statements.map Statement.withoutSources) = .ok out ∧
      out = written ∧ ControlFile.ofText path out = .ok g ∧
      List.Forall₂ Statement.ComesBack (f.statements.filter fun s => s.kind ≠ .placeholder)
        (g.statements.filter fun s => s.kind ≠ .placeholder) := by
  intro path text written
  have hok : (ControlFile.ofText path text).isOk = true := by decide +kernel
  obtain ⟨f, hf⟩ := Except.exists_of_isOk hok
  obtain ⟨out, g, hout, hg, hback⟩ :=
    ofText_writeStatements_withoutSources hf (by decide +kernel) (by decide +kernel)
  have htext : ((ControlFile.ofText path text).toOption.bind fun f =>
      (writeStatements path.text (f.statements.map Statement.withoutSources)).toOption) =
        some written := by decide +kernel
  rw [hf] at htext
  simp only [Except.toOption, Option.bind_some, hout] at htext
  exact ⟨f, out, g, hf, hout, Option.some.inj htext, hg, hback⟩

end ControlFiles
