import ControlFiles.Proofs.ControlFile.Regenerated

/-!
# One line in place of another

A line of content does nothing to the stack of open blocks but to say that there is content. So if
lines of content stand in the place of others (`Line.StandsFor`), a text is read as before: the
stacks of the two readings are equal at every line, and so are the scopes of the statements
(`readStatements_beside`).

From there, a statement with another text on its line is written and read where it was:
`writeStatements_exchanged` says that only its own line is written otherwise, and
`readStatements_exchanged` that what is written gives all statements back.
-/

namespace ControlFiles

/-! ## Reading two texts side by side -/

/-- The second line can stand where the first one does: it is the same, or both are no block
structure. -/
def Line.StandsFor (l l' : Line) : Prop := l' = l ∨ l.directive = .none ∧ l'.directive = .none

theorem BlockStack.process_eq {l l' : Line} (h : l.StandsFor l') (s : BlockStack) (n : Nat) :
    s.process l' n = s.process l n := by
  obtain rfl | ⟨hl, hl'⟩ := h
  · rfl
  · rw [process, process, hl, hl']

/-- Two statements that were read at the same place, under the same scopes: of lines that `P`
relates at this place, or both as the same placeholder. -/
inductive Statement.Beside (P : Nat → Line → Line → Prop) : Statement → Statement → Prop
  | line {n : Nat} {l l' : Line} (h : P n l l') (id id' : StatementId) (scope : ScopeList)
      (file : Text) : Beside P (.ofLine id l scope file n) (.ofLine id' l' scope file n)
  | placeholder {s : Statement} (h : s.kind = .placeholder) (id : StatementId) :
      Beside P s { s with id }

/-- Two readings with the same open blocks, of statements side by side. -/
structure Reading.Beside (P : Nat → Line → Line → Prop) (r r' : Reading) : Prop where
  stack : r'.stack = r.stack
  statements : List.Forall₂ (Statement.Beside P) r.statements r'.statements

variable {P : Nat → Line → Line → Prop} {o : ReadOptions}

theorem Statement.Beside.withCloses {s s' : Statement} (h : s.Beside P s')
    (closes : List (Nat × Text)) :
    (Reading.withCloses closes s).Beside P (Reading.withCloses closes s') := by
  cases h with
  | line h id id' scope file => exact .line h id id' _ file
  | placeholder h id => exact .placeholder (s := Reading.withCloses closes s) h id

theorem Statement.Beside.mono {Q : Nat → Line → Line → Prop} {s s' : Statement} (h : s.Beside P s')
    (hPQ : ∀ l l', P s.line l l' → Q s.line l l') : s.Beside Q s' := by
  cases h with
  | line h id id' scope file => exact .line (hPQ _ _ h) id id' scope file
  | placeholder h id => exact .placeholder h id

/-- A statement that was read of the same line is the same but for its identity. -/
theorem Statement.Beside.eq_of_same {s s' : Statement} (h : s.Beside (fun _ l l' => l' = l) s') :
    s = { s' with id := s.id } := by
  cases h with
  | line h id id' scope file =>
    subst h
    rfl
  | placeholder =>
    cases s
    rfl

theorem Statement.Beside.eq_ofLine {s s' : Statement} {c : Line}
    (h : s.Beside (fun _ _ l' => l' = c) s') (hcontent : s.isContent = true) :
    s' = .ofLine s'.id c s.scope s.file s.line := by
  cases h with
  | line h id id' scope file =>
    subst h
    rfl
  | placeholder h => exact absurd h (kind_ne hcontent rfl)

theorem Entry.Gives.withId {e : Entry} {s : Statement} (h : e.Gives o s) (id : StatementId) :
    e.Gives o { s with id } := by
  obtain ⟨_, rfl⟩ := h
  exact ⟨id, rfl⟩

/-- Which identities statements have does not matter for what they are read of. -/
theorem forall₂_gives_of_same {es : List Entry} {ss ss' : List Statement}
    (h : List.Forall₂ (Entry.Gives o) es ss')
    (hsame : List.Forall₂ (fun s s' : Statement => s = { s' with id := s.id }) ss ss') :
    List.Forall₂ (Entry.Gives o) es ss := by
  induction h generalizing ss with
  | nil =>
    cases hsame
    exact .nil
  | cons hgives _ ih =>
    cases hsame with
    | cons hs hsame => exact .cons (hs ▸ hgives.withId _) (ih hsame)

namespace Reading.Beside

/-- The readings stay side by side over a line. -/
theorem step {r r' r₁ : Reading} {l l' : Line} {n : Nat} (h : r.Beside P r')
    (hl : l.StandsFor l') (hP : P n l l') (hstep : r.step o l n = .ok r₁) :
    ∃ r₁', r'.step o l' n = .ok r₁' ∧ r₁.Beside P r₁' := by
  obtain ⟨hstack, hstatements⟩ := h
  rw [Reading.step] at hstep ⊢
  rw [hstack, BlockStack.process_eq hl]
  cases hprocess : r.stack.process l n with
  | mk stack tracked =>
    simp only [hprocess] at hstep ⊢
    cases tracked with
    | error fault => cases hstep
    | ok tracked =>
      cases tracked with
      | content scope =>
        obtain rfl := Except.ok.inj hstep
        exact ⟨_, rfl, rfl, .cons (.line hP _ _ scope o.file) hstatements⟩
      | structural placeholder =>
        cases placeholder with
        | none =>
          obtain rfl := Except.ok.inj hstep
          exact ⟨_, rfl, rfl, hstatements⟩
        | some scope =>
          obtain rfl := Except.ok.inj hstep
          exact ⟨_, rfl, rfl, .cons (.placeholder rfl _) hstatements⟩

theorem steps {r r' r₁ : Reading} {ls ls' : List Line} {n : Nat} (h : r.Beside P r')
    (hls : List.Forall₂ (fun p l' => p.1.StandsFor l' ∧ P p.2 p.1 l') (ls.zipIdx n) ls')
    (hsteps : Reading.steps o r ls n = .ok r₁) :
    ∃ r₁', Reading.steps o r' ls' n = .ok r₁' ∧ r₁.Beside P r₁' := by
  induction ls generalizing r r' n ls' with
  | nil =>
    cases hls
    obtain rfl := Except.ok.inj hsteps
    exact ⟨r', rfl, h⟩
  | cons l ls ih =>
    rw [List.zipIdx_cons] at hls
    obtain ⟨l', ls', ⟨hl, hP⟩, htail, rfl⟩ := List.forall₂_cons_left_iff.mp hls
    rw [steps_cons] at hsteps ⊢
    cases hstep : r.step o l n with
    | error fault => simp [hstep] at hsteps
    | ok r₂ =>
      simp only [hstep] at hsteps
      obtain ⟨r₂', hstep', h₂⟩ := h.step hl hP hstep
      rw [hstep']
      exact ih h₂ htail hsteps

end Reading.Beside

/-- A text with lines in the place of those of another one is read like that one. -/
theorem readStatements_beside {text text' : Text} {ss : List Statement}
    (hlines : List.Forall₂ (fun p l' => p.1.StandsFor l' ∧ P p.2 p.1 l')
      ((o.linesOf text).zipIdx 1) (o.linesOf text'))
    (h : readStatements o text = .ok ss) :
    ∃ ss', readStatements o text' = .ok ss' ∧ List.Forall₂ (Statement.Beside P) ss ss' := by
  obtain ⟨r, hsteps, hblocks, rfl⟩ := readStatements_eq_ok.mp h
  have hstart : Reading.Beside P ⟨.empty o.file, [], []⟩ ⟨.empty o.file, [], []⟩ := ⟨rfl, .nil⟩
  obtain ⟨r', hsteps', hstack, hstatements⟩ := hstart.steps hlines hsteps
  refine ⟨_, readStatements_eq_ok.mpr ⟨r', hsteps', hstack ▸ hblocks, rfl⟩, ?_⟩
  rw [hstack]
  refine List.forall₂_map_left_iff.mpr (List.forall₂_map_right_iff.mpr ?_)
  exact (List.rel_reverse hstatements).imp fun _ _ hbeside => hbeside.withCloses _

/-! ## One line of a text -/

theorem exists_of_forall₂_append_cons {α β : Type} {R : α → β → Prop} {a b : List α} {x : α}
    {ys : List β} (h : List.Forall₂ R (a ++ x :: b) ys) : ∃ a' y b', ys = a' ++ y :: b' ∧
      List.Forall₂ R a a' ∧ R x y ∧ List.Forall₂ R b b' := by
  induction a generalizing ys with
  | nil =>
    obtain ⟨y, b', hx, hb, rfl⟩ := List.forall₂_cons_left_iff.mp h
    exact ⟨[], y, b', rfl, .nil, hx, hb⟩
  | cons z a ih =>
    obtain ⟨w, ys, hz, hys, rfl⟩ := List.forall₂_cons_left_iff.mp h
    obtain ⟨a', y, b', rfl, ha, hx, hb⟩ := ih hys
    exact ⟨w :: a', y, b', rfl, .cons hz ha, hx, hb⟩

theorem Line.classify_text_eq (line : Text) :
    classify commentMarks (classify commentMarks line).text = classify commentMarks line :=
  classify_congr _ (Text.trim_trim line)

/-- A line that was read is read again, but for what stands in a blank line. -/
theorem Line.Sound.reread_eq {l : Line} (h : l.Sound) : l.reread = l.cleared := by
  cases hblank : l.isBlankLine with
  | true =>
    rw [reread, written, if_pos hblank, cleared, if_pos hblank]
    rfl
  | false =>
    have hreturns := h.returns
    rwa [cleared, hblank, if_neg (by decide)] at hreturns ⊢

theorem Line.standsFor_cleared (l : Line) : l.StandsFor l.cleared := by
  by_cases hl : l.directive = .none
  · exact .inr ⟨hl, (ContentLine.cleared ⟨l, hl⟩).plain⟩
  · exact .inl (cleared_of_header hl)

/-- The statement of a line comes back if the line is read again. -/
theorem Statement.comesBack_cleared (id id' : StatementId) (l : Line) (scope : ScopeList)
    (file : Text) (n : Nat) :
    (ofLine id l scope file n).ComesBack (ofLine id' l.cleared scope file n) where
  kind := l.statementKind_cleared
  raw := fun hkind => congrArg Line.text (Line.cleared_of_statementKind hkind)
  scope := ScopeList.Identical.refl scope

theorem Statement.Beside.comesBack {s s' : Statement}
    (h : s.Beside (fun _ l l' => l' = l.cleared) s') : s.ComesBack s' := by
  cases h with
  | line h id id' scope file =>
    subst h
    exact comesBack_cleared id id' _ scope file _
  | placeholder => exact ⟨rfl, fun _ => rfl, ScopeList.Identical.refl _⟩

/-- The lines of a text that have changed in one place, side by side with those before. -/
theorem forall₂_set {ls : List Line} {i : Nat} {l c : Line} {φ : Line → Line}
    (hl : ls[i]? = some l) (hplain : l.directive = .none) (hc : (φ c).directive = .none)
    (hφ : ∀ m : Line, m.StandsFor (φ m)) :
    List.Forall₂ (fun p m => p.1.StandsFor m ∧ m = φ (if p.2 = i + 1 then c else p.1))
      (ls.zipIdx 1) ((ls.set i c).map φ) := by
  refine List.forall₂_iff_get.mpr ⟨by simp, fun j hj hj' => ?_⟩
  simp only [List.get_eq_getElem, List.getElem_zipIdx, List.getElem_map, List.getElem_set]
  by_cases hij : i = j
  · subst hij
    obtain ⟨_, rfl⟩ := List.getElem?_eq_some_iff.mp hl
    rw [if_pos rfl, if_pos (by omega)]
    exact ⟨.inr ⟨hplain, hc⟩, rfl⟩
  · rw [if_neg hij, if_neg (by omega)]
    exact ⟨hφ _, rfl⟩

section
variable {path : Path} {text : Text} {ss before after : List Statement} {s : Statement}

/-- A statement that says something is that of the line with its number. -/
theorem exists_line_of_isContent
    (hread : readStatements (.ofPath Line.commentMarks path) text = .ok ss) (hs : s ∈ ss)
    (hcontent : s.isContent = true) : ∃ i l, s.line = i + 1 ∧
      ((ReadOptions.ofPath Line.commentMarks path).linesOf text)[i]? = some l ∧
      l.directive = .none ∧ l.isBlankLine = false ∧ l.text = s.raw := by
  obtain ⟨t, hv, hlines, hgives⟩ := exists_outline_of_readStatements hread
  obtain ⟨e, he, hgive⟩ := exists_gives_of_mem hgives hs
  have hline := mt hgive.placeholder_iff.mpr (Statement.kind_ne hcontent rfl)
  obtain ⟨l, hl⟩ := Option.ne_none_iff_exists'.mp hline
  have hmem : (l, e.number) ∈ contents 1 t.lines := by
    rw [← t.filterMap_content_entries (.ofList (t.closes 1)) 1 []]
    exact List.mem_filterMap.mpr ⟨e, he, by rw [Entry.content?, hl]; rfl⟩
  obtain ⟨hmem, hplain⟩ := List.mem_filter.mp hmem
  obtain ⟨hlow, hhigh, heq⟩ := List.mem_zipIdx hmem
  have hkind : s.kind = l.statementKind := by
    obtain ⟨id, rfl⟩ := hgive
    simp [Entry.statement, hl, Statement.ofLine]
  refine ⟨e.number - 1, l, ?_, ?_, of_decide_eq_true hplain, ?_, ?_⟩
  · rw [hgive.line_eq]
    omega
  · rw [← hlines, heq, List.getElem?_eq_getElem]
  · rw [← Bool.not_eq_true]
    intro hblank
    have hnothing := hkind.trans (Line.statementKind_of_isBlankLine hblank)
    exact Statement.kind_ne hcontent rfl hnothing
  · rw [hgive.raw_eq, Entry.text, hl]
    rfl

/-- No two statements of a text are of one line. -/
theorem line_ne_of_readStatements {o : ReadOptions}
    (hread : readStatements o text = .ok (before ++ s :: after)) :
    (∀ u ∈ before, u.line ≠ s.line) ∧ ∀ u ∈ after, u.line ≠ s.line := by
  obtain ⟨t, -, -, hgives⟩ := exists_outline_of_readStatements hread
  have hnodup := Outline.nodup_line hgives
  rw [List.map_append, List.map_cons, List.nodup_middle, List.nodup_cons, List.mem_append,
    not_or] at hnodup
  exact ⟨fun u hu heq => hnodup.1.1 (heq ▸ List.mem_map_of_mem hu),
    fun u hu heq => hnodup.1.2 (heq ▸ List.mem_map_of_mem hu)⟩

/-- What is read of a text in which the line of a statement is another one: this line at the place
of the statement, and all other lines as before. -/
theorem exists_of_readStatements_set (φ : Line → Line) {c : Line} {text' : Text}
    (hread : readStatements (.ofPath Line.commentMarks path) text = .ok (before ++ s :: after))
    (hcontent : s.isContent = true) (hc : (φ c).directive = .none)
    (hφ : ∀ m : Line, m.StandsFor (φ m))
    (htext' : (ReadOptions.ofPath Line.commentMarks path).linesOf text' =
      (((ReadOptions.ofPath Line.commentMarks path).linesOf text).set (s.line - 1) c).map φ) :
    ∃ before' t after', readStatements (.ofPath Line.commentMarks path) text' =
        .ok (before' ++ t :: after') ∧
      List.Forall₂ (Statement.Beside fun _ m m' => m' = φ m) before before' ∧
      t = .ofLine t.id (φ c) s.scope s.file s.line ∧
      List.Forall₂ (Statement.Beside fun _ m m' => m' = φ m) after after' := by
  obtain ⟨i, l, hline, hl, hplain, -, -⟩ := exists_line_of_isContent hread (by simp) hcontent
  obtain ⟨hbefore, hafter⟩ := line_ne_of_readStatements hread
  rw [hline, Nat.add_sub_cancel] at htext'
  let P (n : Nat) (m m' : Line) : Prop := m' = φ (if n = i + 1 then c else m)
  obtain ⟨ss, hss, hbeside⟩ := readStatements_beside (P := P)
    (by rw [htext']; exact forall₂_set hl hplain hc hφ) hread
  obtain ⟨before', t, after', rfl, hbefore', ht, hafter'⟩ := exists_of_forall₂_append_cons hbeside
  have hother : ∀ u u' : Statement, u.line ≠ s.line ∧ u.Beside P u' →
      u.Beside (fun _ m m' => m' = φ m) u' := fun u u' ⟨hu, h⟩ =>
    h.mono fun m m' hm => hm.trans (congrArg φ (if_neg (hline ▸ hu)))
  have hthis : s.Beside (fun _ m m' => m' = φ c) t :=
    ht.mono fun m m' hm => hm.trans (congrArg φ (if_pos hline))
  refine ⟨before', t, after', hss, ?_, hthis.eq_ofLine hcontent, ?_⟩
  · exact ((List.forall₂_and_left _ _).mpr ⟨hbefore, hbefore'⟩).imp hother
  · exact ((List.forall₂_and_left _ _).mpr ⟨hafter, hafter'⟩).imp hother

/-- Lines that are read again as they are make up a text. -/
theorem linesOf_unlines {lines : List Line}
    (h : ∀ m ∈ lines, Text.IsLine m.text ∧ Line.classify Line.commentMarks m.text = m) :
    (ReadOptions.ofPath Line.commentMarks path).linesOf (Text.unlines (lines.map Line.text)) =
      lines := by
  show (Text.lines _).map _ = _
  rw [Text.lines_unlines (List.forall_mem_map.mpr fun m hm => (h m hm).1), List.map_map]
  exact (List.map_congr_left fun m hm => (h m hm).2).trans (List.map_id lines)

/-- The lines of a text, with another one in the place of that of a statement. -/
def exchanged (path : Path) (text : Text) (s : Statement) (line : Text) : List Line :=
  ((ReadOptions.ofPath Line.commentMarks path).linesOf text).set (s.line - 1)
    (Line.classify Line.commentMarks line)

/-- A statement with another text on its line is written as the text with another line there. -/
theorem writeStatements_exchanged
    (hread : readStatements (.ofPath Line.commentMarks path) text = .ok (before ++ s :: after))
    (hcontent : s.isContent = true) {line : Text} (hfeed : '\n' ∉ line)
    (hplain : (Line.classify Line.commentMarks line).directive = .none) (file : Text) :
    writeStatements file (before ++ s.withText line :: after) =
      .ok (Text.unlines (Layout.ofLines 0 (exchanged path text s line))) := by
  have hagain : ∀ m ∈ exchanged path text s line,
      Text.IsLine m.text ∧ Line.classify Line.commentMarks m.text = m := by
    intro m hm
    obtain hm | rfl := List.mem_or_eq_of_mem_set hm
    · obtain ⟨source, -, rfl⟩ := List.mem_map.mp hm
      exact ⟨ReadOptions.isLine_of_mem_linesOf _ hm, Line.classify_text_eq source⟩
    · exact ⟨Text.isLine_trim hfeed, Line.classify_text_eq line⟩
  -- the lines as they stand are a text with an outline, which has the entries of the statements
  obtain ⟨before', t, after', hread', hbefore, ht, hafter⟩ := exists_of_readStatements_set
    id hread hcontent hplain (fun _ => .inl rfl)
    (by rw [linesOf_unlines hagain, List.map_id]; rfl)
  obtain ⟨outline, hv, houtline, hgives⟩ := exists_outline_of_readStatements hread'
  have hgives' : List.Forall₂ (Entry.Gives (.ofPath Line.commentMarks path)) outline.allEntries
      (before ++ s.withText line :: after) := by
    refine forall₂_gives_of_same hgives (List.rel_append (hbefore.imp fun _ _ h => h.eq_of_same)
      (.cons ?_ (hafter.imp fun _ _ h => h.eq_of_same)))
    rw [ht]
    rfl
  rw [writeStatements_of_allEntries hv file hgives', houtline, linesOf_unlines hagain]

/-- What is written then is read again: all statements come back, and this one with its new text. -/
theorem readStatements_exchanged
    (hread : readStatements (.ofPath Line.commentMarks path) text = .ok (before ++ s :: after))
    (hcontent : s.isContent = true) {line : Text} (hfeed : '\n' ∉ line)
    (hplain : (Line.classify Line.commentMarks line).directive = .none) :
    ∃ before' t after', readStatements (.ofPath Line.commentMarks path)
        (Text.unlines (Layout.ofLines 0 (exchanged path text s line))) =
          .ok (before' ++ t :: after') ∧
      List.Forall₂ Statement.ComesBack before before' ∧ (s.withText line).ComesBack t ∧
      List.Forall₂ Statement.ComesBack after after' := by
  have hsound : ∀ m ∈ exchanged path text s line, m.Sound := by
    intro m hm
    obtain hm | rfl := List.mem_or_eq_of_mem_set hm
    · obtain ⟨source, hsource, rfl⟩ := List.mem_map.mp hm
      exact Line.sound_classify (Text.no_feed_of_mem_lines hsource)
    · exact Line.sound_classify hfeed
  have hwritten : (ReadOptions.ofPath Line.commentMarks path).linesOf
      (Text.unlines (Layout.ofLines 0 (exchanged path text s line))) =
        (exchanged path text s line).map Line.cleared := by
    show (Text.lines _).map (Line.classify Line.commentMarks) = _
    rw [Text.lines_unlines (Layout.isLine_of_mem_ofLines (fun m hm => (hsound m hm).isLine) 0),
      Layout.map_classify_ofLines]
    exact List.map_congr_left fun m hm => (hsound m hm).reread_eq
  obtain ⟨before', t, after', hread', hbefore, ht, hafter⟩ := exists_of_readStatements_set
    Line.cleared hread hcontent (ContentLine.cleared ⟨_, hplain⟩).plain Line.standsFor_cleared
    hwritten
  refine ⟨before', t, after', hread', hbefore.imp fun _ _ h => h.comesBack, ?_,
    hafter.imp fun _ _ h => h.comesBack⟩
  rw [ht]
  exact Statement.comesBack_cleared _ _ _ _ _ _

end

end ControlFiles
