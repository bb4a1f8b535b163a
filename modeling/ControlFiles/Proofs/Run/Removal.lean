import ControlFiles.ControlFile.Edit
import ControlFiles.Proofs.ControlFile.Rereading
import ControlFiles.Proofs.Except
import ControlFiles.Proofs.Run.Exclusion

/-!
# Removing statements and writing the file back

Removing statements of a file and writing it back always gives a text. The text is read again
exactly if every header that had to be made can be read, and then a statement of content applies in
the same runs as before exactly if nothing that matters to it has changed about what its branches
exclude (`reread_of_removeAll`). The names of a branch that is gone are no longer excluded behind a
branch that is left, so this can fail (`not_forall_removeAll_preserves`).
-/

namespace ControlFiles

/-! ## Removing -/

theorem Edit.apply_remove {statements : List Statement} {file : Text} {id : StatementId}
    {out : List Statement × Undo} (h : Edit.apply statements file (.remove id) = .ok out) :
    out.1.Sublist statements := by
  obtain ⟨index, -, h⟩ := Except.bind_eq_ok.mp h
  obtain ⟨previous, -, h⟩ := Except.bind_eq_ok.mp h
  obtain rfl := Except.ok.inj h
  exact List.eraseIdx_sublist statements index

namespace Session

/-- The session after the statements with some identities are removed, one after the other. -/
def removeAll (s : Session) : List StatementId → Except Fault Session
  | [] => .ok s
  | id :: ids =>
    match s.apply (.remove id) with
    | .ok (s, _) => s.removeAll ids
    | .error fault => .error fault

theorem apply_remove {s s' : Session} {id : StatementId} {undo : Undo}
    (h : s.apply (.remove id) = .ok (s', undo)) :
    s'.file.path = s.file.path ∧ s'.file.statements.Sublist s.file.statements := by
  rw [apply] at h
  split at h
  · rename_i hedit
    obtain ⟨rfl, -⟩ := Prod.mk.inj (Except.ok.inj h)
    exact ⟨rfl, Edit.apply_remove hedit⟩
  · cases h

/-- What is left are statements of the file, in their order. -/
theorem removeAll_ok {s g : Session} {ids : List StatementId} (h : s.removeAll ids = .ok g) :
    g.file.path = s.file.path ∧ g.file.statements.Sublist s.file.statements := by
  induction ids generalizing s with
  | nil =>
    obtain rfl := Except.ok.inj h
    exact ⟨rfl, List.Sublist.refl _⟩
  | cons id ids ih =>
    rw [removeAll] at h
    split at h
    · rename_i hstep
      obtain ⟨hpath, hsub⟩ := ih h
      obtain ⟨hpath', hsub'⟩ := apply_remove hstep
      exact ⟨hpath.trans hpath', hsub.trans hsub'⟩
    · cases h

end Session

/-- Some statement of the file was read from the line with the number. -/
def ControlFile.hasLine (f : ControlFile) (n : Nat) : Bool := f.statements.any fun s => s.line == n

/-- A part of a list in which no key comes twice is told by its keys. -/
theorem filter_any_of_sublist {α : Type} {key : α → Nat} {part all : List α}
    (h : part.Sublist all) (hnodup : (all.map key).Nodup) :
    all.filter (fun a => part.any fun b => key b == key a) = part := by
  induction h with
  | slnil => rfl
  | @cons part all a hsub ih =>
    rw [List.map_cons, List.nodup_cons] at hnodup
    have hout : (part.any fun b => key b == key a) = false := by
      rw [List.any_eq_false]
      intro b hb hkey
      exact hnodup.1 (List.mem_map.mpr ⟨b, hsub.subset hb, by simpa using hkey⟩)
    rw [List.filter_cons, hout, if_neg (by decide)]
    exact ih hnodup.2
  | @cons_cons part all a hsub ih =>
    rw [List.map_cons, List.nodup_cons] at hnodup
    rw [List.filter_cons, List.any_cons, beq_self_eq_true, Bool.true_or, if_pos rfl]
    refine congrArg _ ((List.filter_congr fun b hb => ?_).trans (ih hnodup.2))
    have hne : (key a == key b) = false := by
      rw [beq_eq_false_iff_ne]
      exact fun heq => hnodup.1 (List.mem_map.mpr ⟨b, hb, heq.symm⟩)
    rw [List.any_cons, hne, Bool.false_or]

/-! ## Statements of content -/

/-- The entry is that of a statement of content. -/
def Entry.isContent (e : Entry) : Bool := e.line?.any fun l => l.statementKind.isContent

/-- The entries of the statements of content. -/
def contentEntries (es : List Entry) : List Entry := es.filter Entry.isContent

theorem contentEntries_lined (es : List Entry) : contentEntries (lined es) = contentEntries es := by
  rw [contentEntries, lined, List.filter_filter]
  refine List.filter_congr fun e _ => ?_
  cases he : e.line? <;> simp [Entry.isContent, he]

theorem Entry.Gives.isContent_eq {o : ReadOptions} {e : Entry} {s : Statement} (h : e.Gives o s) :
    e.isContent = s.isContent := by
  obtain ⟨id, rfl⟩ := h
  cases he : e.line? <;>
    simp [Entry.isContent, Entry.statement, he, Statement.isContent, Statement.ofLine,
      Statement.placeholder, StatementKind.isContent]

theorem Entry.Matches.isContent_eq {e e' : Entry} (h : e.Matches e') :
    e.isContent = e'.isContent := by
  rw [Entry.isContent, Entry.isContent, h.line]
  cases e.line? with
  | none => rfl
  | some l => exact congrArg StatementKind.isContent l.statementKind_cleared.symm

/-- The statements have the same text, and apply in the same runs. -/
structure Statement.Preserved (s s' : Statement) : Prop where
  raw : s'.raw = s.raw
  active : ∀ c : Context, c.isActive s'.scope = c.isActive s.scope

/-- The statements of content are the same in order, and apply in the same runs. -/
def Preserves (before after : List Statement) : Prop :=
  List.Forall₂ Statement.Preserved (before.filter Statement.isContent)
    (after.filter Statement.isContent)

/-- Which statements of content apply in a run. -/
def Context.verdicts (c : Context) (statements : List Statement) : List Bool :=
  (statements.filter Statement.isContent).map fun s => c.isActive s.scope

theorem Preserves.verdicts_eq {before after : List Statement} (h : Preserves before after)
    (c : Context) : c.verdicts after = c.verdicts before := by
  rw [Preserves] at h
  rw [Context.verdicts, Context.verdicts]
  generalize before.filter Statement.isContent = before at h
  generalize after.filter Statement.isContent = after at h
  induction h with
  | nil => rfl
  | cons hs _ ih => rw [List.map_cons, List.map_cons, hs.active c, ih]

/-- In every run that has chosen a name of each branch around the first entry, it is excluded by the
names used before exactly if the second one is. -/
def Entry.SameExclusions (e e' : Entry) : Prop :=
  ∀ c : Context, c.enters e.path = true → c.spares e'.path = c.spares e.path

/-- A statement that stands behind the same conditions is preserved exactly if the same is
excluded. -/
theorem Entry.Matches.preserved_iff {o o' : ReadOptions} {e e' : Entry} {s s' : Statement}
    (h : e.Matches e') (hs : e.Gives o s) (hs' : e'.Gives o' s') (hcontent : e.isContent = true) :
    s.Preserved s' ↔ e.SameExclusions e' := by
  have hraw : s'.raw = s.raw := by
    rw [hs.raw_eq, hs'.raw_eq, text, text, h.line]
    cases he : e.line? with
    | none => rfl
    | some l =>
      have hl : l.statementKind.isContent = true := by simpa [isContent, he] using hcontent
      have hblank : l.statementKind ≠ .blank := fun hblank => by
        rw [hblank] at hl
        cases hl
      rw [Option.map_some, Line.cleared_of_statementKind hblank]
  have hactive : ∀ c : Context, c.isActive s'.scope = c.isActive s.scope ↔
      (c.enters e.path = true → c.spares e'.path = c.spares e.path) := by
    intro c
    rw [hs.scope_eq, hs'.scope_eq, scope, scope, c.isActive_eq, c.isActive_eq,
      ← c.enters_eq h.path]
    cases c.enters e.path <;> simp
  exact ⟨fun hp c => (hactive c).mp (hp.active c),
    fun he => ⟨hraw, fun c => (hactive c).mpr (he c)⟩⟩

section
variable {o o' : ReadOptions}

theorem forall₂_filter {α β : Type} {R : α → β → Prop} {p : α → Bool} {q : β → Bool} {as : List α}
    {bs : List β} (h : List.Forall₂ R as bs) (hpq : ∀ a b, R a b → p a = q b) :
    List.Forall₂ R (as.filter p) (bs.filter q) := by
  refine List.rel_filter (fun a b hab => ?_) h
  show p a = true ↔ q b = true
  rw [hpq a b hab]

theorem preserved_iff_sameExclusions {es es' : List Entry} {ss ss' : List Statement}
    (h : List.Forall₂ Entry.Matches es es') (hs : List.Forall₂ (Entry.Gives o) es ss)
    (hs' : List.Forall₂ (Entry.Gives o') es' ss') (hcontent : ∀ e ∈ es, e.isContent = true) :
    List.Forall₂ Statement.Preserved ss ss' ↔ List.Forall₂ Entry.SameExclusions es es' := by
  induction h generalizing ss ss' with
  | nil =>
    cases hs
    cases hs'
    exact ⟨fun _ => .nil, fun _ => .nil⟩
  | cons hmatches hrest ih =>
    cases hs with
    | cons hgives hs =>
      cases hs' with
      | cons hgives' hs' =>
        rw [List.forall₂_cons, List.forall₂_cons,
          hmatches.preserved_iff hgives hgives' (hcontent _ List.mem_cons_self),
          ih hs hs' fun e he => hcontent e (List.mem_cons_of_mem _ he)]

/-! ## Whole files -/

/-- The statements of a text that are left belong to the entries that are left. -/
theorem gives_kept {t : Outline} {ss part : List Statement}
    (h : List.Forall₂ (Entry.Gives o) t.allEntries ss) (hpart : part.Sublist ss) :
    ss.filter (fun s => part.any fun s' => s'.line == s.line) = part ∧
      List.Forall₂ (Entry.Gives o)
        (kept (fun n => part.any fun s => s.line == n) t.allEntries) part := by
  have hfilter := filter_any_of_sublist hpart (Outline.nodup_line h)
  have hgives : List.Forall₂ (Entry.Gives o)
      (kept (fun n => part.any fun s => s.line == n) t.allEntries)
      (ss.filter fun s => part.any fun s' => s'.line == s.line) :=
    forall₂_filter h fun e s hgives => by rw [hgives.line_eq]
  rw [hfilter] at hgives
  exact ⟨hfilter, hgives⟩

end

theorem ControlFile.ofText_ok_iff {path : Path} {text : Text} :
    (∃ f, ControlFile.ofText path text = .ok f) ↔
      ∃ ss, readStatements (.ofPath Line.commentMarks path) text = .ok ss := by
  refine ⟨fun ⟨f, hf⟩ => ⟨f.statements, readStatements_of_ofText hf⟩, fun ⟨ss, hss⟩ => ?_⟩
  rw [ofText, hss]
  exact ⟨_, rfl⟩

/-- Statements of a text are removed and the file is written back. This always gives a text. It is
read again exactly if every header that had to be made can be read; and then the statements of
content that are left apply in the same runs as before exactly if each of them is excluded as
before by its branches. -/
theorem reread_of_removeAll {path : Path} {text : Text} {f : ControlFile} {ids : List StatementId}
    {g : Session} (hf : ControlFile.ofText path text = .ok f)
    (hg : (Session.start f).removeAll ids = .ok g) :
    ∃ (t : Outline) (out : Text),
      t.Valid ∧ t.lines = (ReadOptions.ofPath Line.commentMarks path).linesOf text ∧
      g.file.statements = f.statements.filter (fun s => g.file.hasLine s.line) ∧
      g.file.toText = .ok out ∧
      ((∃ r, ControlFile.ofText path out = .ok r) ↔ t.reopenable g.file.hasLine 1 = true) ∧
      ∀ r, ControlFile.ofText path out = .ok r →
        (Preserves g.file.statements r.statements ↔
          List.Forall₂ Entry.SameExclusions
            (contentEntries (kept g.file.hasLine t.allEntries))
            (contentEntries (t.pruned g.file.hasLine 1).allEntries)) := by
  obtain ⟨t, hv, hlines, hgives⟩ :=
    exists_outline_of_readStatements (ControlFile.readStatements_of_ofText hf)
  have hs := Outline.sound_of_lines hlines
  obtain ⟨hpath, hsub⟩ := Session.removeAll_ok hg
  obtain ⟨hfilter, hkept⟩ := gives_kept hgives hsub
  have hwrite : g.file.toText = .ok (Text.unlines ((t.pruned g.file.hasLine 1).text 0)) :=
    writeStatements_of_gives hv g.file.path.text g.file.hasLine hkept
  refine ⟨t, _, hv, hlines, hfilter.symm, hwrite, ?_, fun r hr => ?_⟩
  · rw [ControlFile.ofText_ok_iff]
    exact readStatements_pruned_iff hv hs
  · have hgives' := gives_of_readStatements_pruned hv hs (ControlFile.readStatements_of_ofText hr)
    have hmatches := t.matches_pruned g.file.hasLine (.ofList (t.closes 1))
      (.ofList ((t.pruned g.file.hasLine 1).closes 1)) 1 1 .nil
    have hcontent := forall₂_filter hmatches fun e e' h => h.isContent_eq
    have hbefore := forall₂_filter hkept fun e s h => h.isContent_eq
    have hafter := forall₂_filter hgives' fun e s h => h.isContent_eq
    rw [← contentEntries, ← contentEntries, contentEntries_lined, contentEntries_lined] at hcontent
    exact preserved_iff_sameExclusions hcontent hbefore hafter fun e he =>
      (List.mem_filter.mp he).2

/-- Of three branches the second one is removed. In the text that is written, the third one no
longer excludes its name. -/
theorem exists_branch_removed : ∃ (f : ControlFile) (ids : List StatementId) (g : Session)
    (out : Text) (r : ControlFile),
    ControlFile.ofText ⟨"/m/m.tcf"⟩ (Text.unlines ["If Scenario == A", "X",
      "Else If Scenario == B", "Y", "Else", "Z", "End If"]) = .ok f ∧
    (Session.start f).removeAll ids = .ok g ∧ g.file.toText = .ok out ∧
    ControlFile.ofText ⟨"/m/m.tcf"⟩ out = .ok r ∧
    (Context.ofChosen ⟨["B"], []⟩).verdicts g.file.statements = [false, false] ∧
    (Context.ofChosen ⟨["B"], []⟩).verdicts r.statements = [false, true] := by
  have hrun : ((ControlFile.ofText ⟨"/m/m.tcf"⟩ (Text.unlines ["If Scenario == A", "X",
      "Else If Scenario == B", "Y", "Else", "Z", "End If"])).toOption.any fun f =>
        ((Session.start f).removeAll
            ((f.statements.filter (·.raw = ['Y'])).map (·.id))).toOption.any fun g =>
          g.file.toText.toOption.any fun out =>
            (ControlFile.ofText ⟨"/m/m.tcf"⟩ out).toOption.any fun r =>
              (Context.ofChosen ⟨["B"], []⟩).verdicts g.file.statements == [false, false] &&
                (Context.ofChosen ⟨["B"], []⟩).verdicts r.statements == [false, true]) = true := by
    decide +kernel
  obtain ⟨f, hf, hrun⟩ := Except.toOption_any_iff.mp hrun
  obtain ⟨g, hg, hrun⟩ := Except.toOption_any_iff.mp hrun
  obtain ⟨out, hout, hrun⟩ := Except.toOption_any_iff.mp hrun
  obtain ⟨r, hr, hrun⟩ := Except.toOption_any_iff.mp hrun
  rw [Bool.and_eq_true, beq_iff_eq, beq_iff_eq] at hrun
  exact ⟨f, _, g, out, r, hf, hg, hout, hr, hrun⟩

/-- The text with the gap is read again, and does not exclude what it did. -/
theorem reread_of_removeAll_between : ∃ (f : ControlFile) (ids : List StatementId) (g : Session)
    (t : Outline),
    ControlFile.ofText ⟨"/m/m.tcf"⟩ (Text.unlines ["If Scenario == A", "X",
      "Else If Scenario == B", "Y", "Else", "Z", "End If"]) = .ok f ∧
    (Session.start f).removeAll ids = .ok g ∧ t.Valid ∧ t.reopenable g.file.hasLine 1 = true ∧
      ¬ List.Forall₂ Entry.SameExclusions (contentEntries (kept g.file.hasLine t.allEntries))
        (contentEntries (t.pruned g.file.hasLine 1).allEntries) := by
  obtain ⟨f, ids, g, out, r, hf, hg, hout, hr, hbefore, hafter⟩ := exists_branch_removed
  obtain ⟨t, out', hv, -, -, hout', haccepted, hpreserves⟩ := reread_of_removeAll hf hg
  rw [hout] at hout'
  obtain rfl := Except.ok.inj hout'
  refine ⟨f, ids, g, t, hf, hg, hv, haccepted.mp ⟨r, hr⟩, fun hsame => ?_⟩
  have hverdicts := ((hpreserves r hr).mpr hsame).verdicts_eq (.ofChosen ⟨["B"], []⟩)
  rw [hbefore, hafter] at hverdicts
  cases hverdicts

/-- It does not hold that removing statements leaves the others in force as they are. -/
theorem not_forall_removeAll_preserves : ¬ ∀ (path : Path) (text : Text) (f : ControlFile)
    (ids : List StatementId) (g : Session), ControlFile.ofText path text = .ok f →
      (Session.start f).removeAll ids = .ok g → ∃ (out : Text) (r : ControlFile),
        g.file.toText = .ok out ∧ ControlFile.ofText path out = .ok r ∧
          Preserves g.file.statements r.statements := by
  intro h
  obtain ⟨f, ids, g, out, r, hf, hg, hout, hr, hbefore, hafter⟩ := exists_branch_removed
  obtain ⟨out', r', hout', hr', hpreserves⟩ := h _ _ f ids g hf hg
  rw [hout] at hout'
  obtain rfl := Except.ok.inj hout'
  rw [hr] at hr'
  obtain rfl := Except.ok.inj hr'
  have hverdicts := hpreserves.verdicts_eq (.ofChosen ⟨["B"], []⟩)
  rw [hbefore, hafter] at hverdicts
  cases hverdicts

end ControlFiles
