import ControlFiles.Proofs.Block.Reopening
import ControlFiles.Proofs.Block.Spans
import ControlFiles.Proofs.ControlFile.RoundTrip
import ControlFiles.Proofs.Line

/-!
# Lines that begin like a header

A header begins with `If`, `Define` or `Else If`, in whatever case and with any blanks between the
words. If more words follow, the line is block structure: a header, or a malformed one, which is
refused (`Directive.ofWords_of_start`); and some statement stands in the branch that a header begins
(`Outline.exists_under`). A command of these words alone is not taken for a header: its line is a
setting, which begins no branch (`headerLines_spec`).
-/

namespace ControlFiles

/-- The words that headers begin with, in lower case. -/
def headerStarts : List (List Text) := [["if"], ["define"], ["else", "if"]]

theorem ne_nil_of_mem_headerStarts {start : List Text} (h : start ∈ headerStarts) : start ≠ [] := by
  rintro rfl
  exact absurd h (by decide)

/-- The words of the command in lower case. -/
def Line.keywords (l : Line) : List Text := ((l.command.map Text.words).getD []).map Text.lower

/-- What a header with such a beginning does: `Else If` begins another branch, the others open a
block. -/
def Directive.ofStart (start : List Text) (h : Header) : Directive :=
  if start = ["else", "if"] then .elseIf h else .opening h

/-! ## One line -/

namespace Directive

variable {command : Text} {ws start : List Text} {value : Option Text}

theorem ofWords_of_bare (hstart : start ∈ headerStarts) (h : ws.map Text.lower = start) :
    ofWords command ws value = .none := by
  unfold ofWords
  rw [h]
  simp only [headerStarts, List.mem_cons, List.not_mem_nil, or_false] at hstart
  rcases hstart with rfl | rfl | rfl <;> rfl

/-- With more words behind its beginning, a header can be read or is malformed. -/
theorem ofWords_of_start (hstart : start ∈ headerStarts) (h : start <+: ws.map Text.lower)
    (hmore : ws.map Text.lower ≠ start) :
    (∃ header, ofWords command ws value = ofStart start header) ∨
      ∃ flaw, ofWords command ws value = .malformed flaw := by
  obtain ⟨rest, hrest⟩ := h
  have hne : rest ≠ [] := by
    rintro rfl
    exact hmore (by rw [← hrest, List.append_nil])
  simp only [headerStarts, List.mem_cons, List.not_mem_nil, or_false] at hstart
  unfold ofWords
  rw [← hrest]
  rcases hstart with rfl | rfl | rfl
  · cases condition (ws.drop 1) value with
    | ok header => exact .inl ⟨header, by simp [hne, ofStart]⟩
    | error flaw => exact .inr ⟨flaw, by simp [hne]⟩
  · cases value with
    | some names => exact .inl ⟨definition (ws.drop 1) names, by simp [hne, ofStart]⟩
    | none => exact .inr ⟨.noName command, by simp [hne]⟩
  · cases condition (ws.drop 2) value with
    | ok header => exact .inl ⟨header, by simp [hne, ofStart, List.length_pos_iff]⟩
    | error flaw => exact .inr ⟨flaw, by simp [hne, List.length_pos_iff]⟩

theorem ofStart_ne_none (start : List Text) (h : Header) : ofStart start h ≠ .none := by
  rw [ofStart]
  split <;> simp

theorem isSome_header?_ofStart (start : List Text) (h : Header) :
    (ofStart start h).header?.isSome = true := by
  rw [ofStart]
  split <;> rfl

end Directive

namespace Line

variable {marks line : Text} {start : List Text}

theorem exists_command {l : Line} (h : l.keywords ≠ []) :
    ∃ c, l.command = some c ∧ l.keywords = (Text.words c).map Text.lower := by
  cases hc : l.command with
  | some c => exact ⟨c, rfl, by simp [keywords, hc]⟩
  | none => exact absurd (by simp [keywords, hc]) h

/-- The words that a header begins with are no header by themselves. -/
theorem directive_of_bare (hstart : start ∈ headerStarts)
    (h : (classify marks line).keywords = start) : (classify marks line).directive = .none := by
  obtain ⟨c, hc, hwords⟩ := exists_command (h ▸ ne_nil_of_mem_headerStarts hstart)
  rw [classify_directive, hc]
  exact Directive.ofWords_of_bare hstart (hwords.symm.trans h)

/-- With more words behind them, the line is a header or malformed. -/
theorem directive_of_start (hstart : start ∈ headerStarts)
    (h : start <+: (classify marks line).keywords)
    (hmore : (classify marks line).keywords ≠ start) :
    (∃ header, (classify marks line).directive = Directive.ofStart start header) ∨
      ∃ flaw, (classify marks line).directive = .malformed flaw := by
  obtain ⟨c, hc, hwords⟩ := exists_command (h.ne_nil (ne_nil_of_mem_headerStarts hstart))
  rw [hwords] at h hmore
  rw [classify_directive, hc]
  exact Directive.ofWords_of_start hstart h hmore

end Line

theorem Text.lower_join (sep : Text) (parts : List Text) :
    lower (join sep parts) = join (lower sep) (parts.map lower) := by
  rw [join, join, List.intercalate, List.intercalate, lower, List.map_flatten]
  congr 1
  induction parts with
  | nil => rfl
  | cons part parts ih => cases parts <;> simp_all [List.intersperse, lower]

/-- A line with nothing but the beginning of a header is a setting. -/
theorem Line.statementKind_of_bare {l : Line} {start : List Text} (hstart : start ∈ headerStarts)
    (h : l.keywords = start) : l.statementKind = .setting := by
  obtain ⟨c, hc, hwords⟩ := exists_command (h ▸ ne_nil_of_mem_headerStarts hstart)
  have hkey : commandKey c = Text.join " " start := by
    rw [commandKey, Text.lower_join, ← hwords, h]
    rfl
  rw [statementKind, hc]
  simp only [hkey]
  simp only [headerStarts, List.mem_cons, List.not_mem_nil, or_false] at hstart
  rcases hstart with rfl | rfl | rfl <;> rfl

/-! ## Statements of a branch -/

theorem Level.later_source (q : Question) (seen : List Text) (source : BlockSource)
    (header? : Option Header) : (later q seen source header?).leaf.source = some source := by
  cases header? <;> rfl

/-- The statement stands in the branch that the line with a number begins. -/
def Entry.IsUnder (number : Nat) (l : Line) (e : Entry) : Prop :=
  ∃ level ∈ e.path, ∃ source, level.leaf.source = some source ∧ source.branch = number ∧
    source.header = l.text

section
variable (closes : Closes)

/-- Every branch has an entry, and all that it has stand behind its level. -/
theorem Outline.exists_branchEntry {body : Outline} (hv : body.Valid) (n : Nat) (path : List Level)
    (level : Level) : ∃ e ∈ body.branchEntries closes n (path ++ [level]), level ∈ e.path := by
  obtain ⟨i, rest, hi⟩ := List.exists_cons_of_ne_nil (body.branchNumbers_ne_nil n)
  obtain ⟨e, he, -, hlevel⟩ := exists_of_mem_branchNumbers closes hv path level
    (hi ▸ List.mem_cons_self)
  exact ⟨e, he, hlevel⟩

mutual

/-- In the branch that a header begins stands an entry. -/
theorem Outline.exists_under : ∀ (t : Outline) (n : Nat) (path : List Level), t.Valid →
    ∀ l k, (l, k) ∈ t.lines.zipIdx n → l.directive.header?.isSome = true →
      ∃ e ∈ t.entries closes n path, e.IsUnder k l
  | .nil, _, _, _, _, _, hp, _ => by cases hp
  | .line l rest, n, path, hv, l', k, hp, hheader => by
    rw [Outline.lines, List.zipIdx_cons, List.mem_cons, Prod.mk.injEq] at hp
    rcases hp with ⟨rfl, rfl⟩ | hp
    · rw [l.plain] at hheader
      cases hheader
    · obtain ⟨e, he, hunder⟩ := Outline.exists_under rest (n + 1) path hv l' k hp hheader
      exact ⟨e, List.mem_cons_of_mem _ he, hunder⟩
  | .block head first more close rest, n, path, hv, l', k, hp, hheader => by
    obtain ⟨-, hfirst, hmore, hrest⟩ := hv
    rw [Outline.entries_block]
    simp only [Outline.lines, List.zipIdx_cons, List.zipIdx_append, List.mem_cons,
      List.mem_append, Prod.mk.injEq] at hp
    rcases hp with ⟨rfl, rfl⟩ | hp | hp | ⟨rfl, rfl⟩ | hp
    · obtain ⟨e, he, hlevel⟩ := Outline.exists_branchEntry closes hfirst (k + 1) path
        (.opening head.header (closes.source k k head.line.text))
      exact ⟨e, List.mem_append_left _ he, _, hlevel, _, rfl, rfl, rfl⟩
    · obtain ⟨e, he, hunder⟩ := Outline.exists_under first (n + 1)
        (path ++ [.opening head.header (closes.source n n head.line.text)]) hfirst l' k hp hheader
      exact ⟨e, List.mem_append_left _ (List.mem_append_left _ he), hunder⟩
    · obtain ⟨e, he, hunder⟩ := Branches.exists_under more n head.header.question _ _ _ path hmore
        l' k hp hheader
      exact ⟨e, List.mem_append_right _ (List.mem_append_left _ he), hunder⟩
    · rw [close.closes] at hheader
      cases hheader
    · obtain ⟨e, he, hunder⟩ := Outline.exists_under rest _ path hrest l' k hp hheader
      exact ⟨e, List.mem_append_right _ (List.mem_append_right _ he), hunder⟩

theorem Branches.exists_under : ∀ (t : Branches) (block : Nat) (q : Question) (seen : List Text)
    (hasElse : Bool) (n : Nat) (path : List Level), t.Valid q seen hasElse →
      ∀ l k, (l, k) ∈ t.lines.zipIdx n → l.directive.header?.isSome = true →
        ∃ e ∈ t.entries closes block q seen n path, e.IsUnder k l
  | .nil, _, _, _, _, _, _, _, _, _, hp, _ => by cases hp
  | .branch head body more, block, q, seen, hasElse, n, path, hv, l', k, hp, hheader => by
    obtain ⟨-, -, hbody, hmore⟩ := hv
    rw [Branches.entries_branch]
    simp only [Branches.lines, List.zipIdx_cons, List.zipIdx_append, List.mem_cons,
      List.mem_append, Prod.mk.injEq] at hp
    rcases hp with ⟨rfl, rfl⟩ | hp | hp
    · obtain ⟨e, he, hlevel⟩ := Outline.exists_branchEntry closes hbody (k + 1) path
        (.later q seen (closes.source block k head.line.text) head.header?)
      exact ⟨e, List.mem_append_left _ he, _, hlevel, _, Level.later_source _ _ _ _, rfl, rfl⟩
    · obtain ⟨e, he, hunder⟩ := Outline.exists_under body (n + 1)
        (path ++ [.later q seen (closes.source block n head.line.text) head.header?]) hbody l' k hp
        hheader
      exact ⟨e, List.mem_append_left _ (List.mem_append_left _ he), hunder⟩
    · obtain ⟨e, he, hunder⟩ := Branches.exists_under more block q _ _ _ path hmore l' k hp hheader
      exact ⟨e, List.mem_append_right _ he, hunder⟩

end

end

/-! ## Whole texts -/

theorem exists_statement_of_mem {o : ReadOptions} {es : List Entry} {ss : List Statement}
    (h : List.Forall₂ (Entry.Gives o) es ss) {e : Entry} (he : e ∈ es) :
    ∃ s ∈ ss, e.Gives o s := by
  induction h with
  | nil => cases he
  | @cons e' s es ss hgives _ ih =>
    rcases List.mem_cons.mp he with rfl | he
    · exact ⟨s, List.mem_cons_self, hgives⟩
    · obtain ⟨s', hs', hgives'⟩ := ih he
      exact ⟨s', List.mem_cons_of_mem _ hs', hgives'⟩

section
variable {o : ReadOptions} {t : Outline} {ss : List Statement} {i : Nat} {l : Line}

/-- A line that is no block structure has an entry. -/
theorem exists_entry_of_plain (hl : t.lines[i]? = some l) (hplain : l.directive = .none) :
    ∃ e ∈ t.allEntries, e.line? = some l ∧ e.number = i + 1 := by
  have hcontent : (l, i + 1) ∈ contents 1 t.lines := by
    refine List.mem_filter.mpr ⟨?_, by simpa using hplain⟩
    rw [List.mk_mem_zipIdx_iff_le_and_getElem?_sub, Nat.add_sub_cancel]
    exact ⟨Nat.le_add_left 1 i, hl⟩
  rw [← t.filterMap_content_entries (.ofList (t.closes 1)) 1 []] at hcontent
  obtain ⟨e, he, hcontent⟩ := List.mem_filterMap.mp hcontent
  obtain ⟨l', hl', heq⟩ := Option.map_eq_some_iff.mp hcontent
  obtain ⟨rfl, hnumber⟩ := Prod.mk.inj heq
  exact ⟨e, he, hl', hnumber⟩

/-- A line that is no block structure has a statement. -/
theorem exists_statement_of_plain (hgives : List.Forall₂ (Entry.Gives o) t.allEntries ss)
    (hl : t.lines[i]? = some l) (hplain : l.directive = .none) :
    ∃ s ∈ ss, s.line = i + 1 ∧ s.raw = l.text ∧ s.kind = l.statementKind := by
  obtain ⟨e, he, hline, hnumber⟩ := exists_entry_of_plain hl hplain
  obtain ⟨s, hs, hgives'⟩ := exists_statement_of_mem hgives he
  refine ⟨s, hs, hgives'.line_eq.trans hnumber, ?_, ?_⟩
  · rw [hgives'.raw_eq, Entry.text, hline]
    rfl
  · obtain ⟨id, rfl⟩ := hgives'
    rw [Entry.statement, hline]
    rfl

/-- A line of block structure has no statement of its own. -/
theorem kind_of_header (hgives : List.Forall₂ (Entry.Gives o) t.allEntries ss)
    (hl : t.lines[i]? = some l) (hheader : l.directive ≠ .none) :
    ∀ s ∈ ss, s.line = i + 1 → s.kind = .placeholder := by
  intro s hs hline
  obtain ⟨e, he, hgives'⟩ := exists_gives_of_mem hgives hs
  rw [hgives'.placeholder_iff, ← Option.not_isSome_iff_eq_none]
  intro hsome
  obtain ⟨l', hl'⟩ := Option.isSome_iff_exists.mp hsome
  have hcontent : (l', i + 1) ∈ contents 1 t.lines := by
    rw [← t.filterMap_content_entries (.ofList (t.closes 1)) 1 []]
    exact List.mem_filterMap.mpr ⟨e, he, by
      rw [Entry.content?, hl', Option.map_some, ← hgives'.line_eq, hline]⟩
  obtain ⟨hmem, hplain⟩ := List.mem_filter.mp hcontent
  rw [List.mk_mem_zipIdx_iff_le_and_getElem?_sub, Nat.add_sub_cancel, hl] at hmem
  obtain rfl := Option.some.inj hmem.2
  exact hheader (by simpa using hplain)

/-- In the branch that a header begins stands a statement. -/
theorem exists_statement_under (hv : t.Valid)
    (hgives : List.Forall₂ (Entry.Gives o) t.allEntries ss) (hl : t.lines[i]? = some l)
    (hheader : l.directive.header?.isSome = true) :
    ∃ s ∈ ss, ∃ a ∈ s.scope, ∃ source, a.source = some source ∧ source.branch = i + 1 ∧
      source.header = l.text := by
  have hmem : (l, i + 1) ∈ t.lines.zipIdx 1 := by
    rw [List.mk_mem_zipIdx_iff_le_and_getElem?_sub, Nat.add_sub_cancel]
    exact ⟨Nat.le_add_left 1 i, hl⟩
  obtain ⟨e, he, level, hlevel, source, hsource, hplace⟩ :=
    Outline.exists_under (.ofList (t.closes 1)) t 1 [] hv l (i + 1) hmem hheader
  obtain ⟨s, hs, hgives'⟩ := exists_statement_of_mem hgives he
  refine ⟨s, hs, level.leaf, ?_, source, hsource, hplace⟩
  rw [hgives'.scope_eq, Entry.scope, Level.scopeList]
  refine List.mem_cons_of_mem _ (List.mem_flatMap.mpr ⟨level, hlevel, ?_⟩)
  exact List.mem_append_right _ (List.mem_singleton.mpr rfl)

end

/-- A line that begins like a header is no block structure exactly if its command has no other
words; then it is a setting, and its text is read on. With more words it is a header or malformed.
A text that is accepted has no malformed one, and in each branch that such a line begins stands a
statement. -/
theorem headerLines_spec {start : List Text} (hstart : start ∈ headerStarts) :
    (∀ (marks line : Text), let l := Line.classify marks line
      start <+: l.keywords →
        (l.directive = .none ↔ l.keywords = start) ∧
        (l.keywords ≠ start → (∃ header, l.directive = Directive.ofStart start header) ∨
          ∃ flaw, l.directive = .malformed flaw)) ∧
    ∀ (path : Path) (text : Text) (f : ControlFile), ControlFile.ofText path text = .ok f →
      ∀ (i : Nat) (l : Line),
        ((ReadOptions.ofPath Line.commentMarks path).linesOf text)[i]? = some l →
        start <+: l.keywords →
          (l.keywords = start →
            ∃ s ∈ f.statements, s.line = i + 1 ∧ s.raw = l.text ∧ s.kind = .setting) ∧
          (l.keywords ≠ start →
            (∃ header, l.directive = Directive.ofStart start header) ∧
            (∀ s ∈ f.statements, s.line = i + 1 → s.kind = .placeholder) ∧
            ∃ s ∈ f.statements, ∃ a ∈ s.scope, ∃ source, a.source = some source ∧
              source.branch = i + 1 ∧ source.header = l.text) := by
  constructor
  · intro marks line l hbegins
    refine ⟨⟨fun hnone => ?_, Line.directive_of_bare hstart⟩,
      Line.directive_of_start hstart hbegins⟩
    by_contra hmore
    rcases Line.directive_of_start hstart hbegins hmore with ⟨header, hheader⟩ | ⟨flaw, hflaw⟩
    · exact Directive.ofStart_ne_none start header (hheader.symm.trans hnone)
    · cases hflaw.symm.trans hnone
  · intro path text f hf i l hl hbegins
    obtain ⟨t, hv, hlines, hgives⟩ :=
      exists_outline_of_readStatements (ControlFile.readStatements_of_ofText hf)
    obtain ⟨line, -, rfl⟩ := List.mem_map.mp (List.mem_of_getElem? hl)
    rw [← hlines] at hl
    constructor
    · intro hbare
      rw [← Line.statementKind_of_bare hstart hbare]
      exact exists_statement_of_plain hgives hl (Line.directive_of_bare hstart hbare)
    · intro hmore
      rcases Line.directive_of_start hstart hbegins hmore with ⟨header, hheader⟩ | ⟨flaw, hflaw⟩
      · refine ⟨⟨header, hheader⟩, kind_of_header hgives hl ?_,
          exists_statement_under hv hgives hl ?_⟩
        · exact hheader ▸ Directive.ofStart_ne_none start header
        · exact hheader ▸ Directive.isSome_header?_ofStart start header
      · exact absurd hflaw (t.not_malformed _ (List.mem_of_getElem? hl) flaw)

/-- A block, and behind it a line that begins like one. -/
theorem headerLines_spec_bare :
    let path : Path := ⟨"/m/m.tcf"⟩
    let text := Text.unlines ["If  SCENARIO == A", "X == 1", "End If", "if == B ! no block"]
    ∃ f, ControlFile.ofText path text = .ok f ∧
      (∃ s ∈ f.statements, ∃ a ∈ s.scope, ∃ source, a.source = some source ∧ source.branch = 1) ∧
      ∃ s ∈ f.statements, s.line = 4 ∧ s.kind = .setting := by
  intro path text
  obtain ⟨f, hf⟩ := Except.exists_of_isOk
    (show (ControlFile.ofText path text).isOk = true by decide +kernel)
  have hstart : [("if" : Text)] ∈ headerStarts := by decide
  have hspec := (headerLines_spec hstart).2 path text f hf
  obtain ⟨-, hblock⟩ := hspec 0 (Line.classify Line.commentMarks "If  SCENARIO == A")
    (by decide +kernel) (by decide +kernel)
  obtain ⟨-, -, s, hs, a, ha, source, hsource, hbranch, -⟩ := hblock (by decide +kernel)
  obtain ⟨hsetting, -⟩ := hspec 3 (Line.classify Line.commentMarks "if == B ! no block")
    (by decide +kernel) (by decide +kernel)
  obtain ⟨s', hs', hline, -, hkind⟩ := hsetting (by decide +kernel)
  exact ⟨f, hf, ⟨s, hs, a, ha, source, hsource, hbranch⟩, s', hs', hline, hkind⟩

/-- It does not hold that each line that begins like a header is block structure. -/
theorem not_forall_headerLines : ¬ ∀ (marks line : Text), let l := Line.classify marks line
    ∀ start ∈ headerStarts, start <+: l.keywords → l.directive ≠ .none := by
  intro h
  exact h Line.commentMarks "If == A" ["if"] (by decide) (by decide +kernel) (by decide +kernel)

end ControlFiles
