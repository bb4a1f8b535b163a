import ControlFiles.Proofs.Block.Mentions
import ControlFiles.Proofs.ControlFile.Rewording
import ControlFiles.Proofs.ControlFile.HeaderLines
import ControlFiles.Proofs.ControlFile.Variants

/-!
# Where the names that a tree mentions come from

The candidates of a tree are collected from the scopes of its statements and from declarations. Yet
they are what a reader finds in the texts: the names behind the commands of `Axis.headers`, tokens
left out, and behind those of `Axis.declaration` (`Line.namesOn`). Line by line, a directive has
names of an axis exactly if its words are those of a header (`Directive.namesOn_ofWords`); text by
text, the statements mention the names that the lines do (`listed_namesOn_of_readStatements`),
whether a branch holds a statement or not; and a tree has read all its files
(`ControlFile.listed_candidates_iff`).
-/

namespace ControlFiles

/-! ## Names on a line -/

/-- The word that asks about an axis. -/
def Axis.word : Axis → Text
  | .scenario => "scenario"
  | .event => "event"

/-- The commands of the headers that list names of an axis, word by word. -/
def Axis.headers : Axis → List (List Text)
  | .scenario => [["if", "scenario"], ["else", "if", "scenario"]]
  | .event => [["if", "event"], ["else", "if", "event"], ["define", "event"]]

/-- The command that declares names of an axis. -/
def Axis.declaration : Axis → List Text
  | .scenario => ["model", "scenarios"]
  | .event => ["model", "events"]

/-- The names of an axis that a line mentions: those that a header lists, without the tokens, or all
that a declaration lists. -/
def Line.namesOn (l : Line) (axis : Axis) : List Text :=
  let names := Text.alternatives (l.value.getD [])
  if l.keywords ∈ axis.headers then plainNames names
  else if l.keywords = axis.declaration then names
  else []

theorem Axis.mem_headers {axis : Axis} {ws : List Text} :
    ws ∈ axis.headers ↔ (∃ start ∈ [[("if" : Text)], ["else", "if"]], ws = start ++ [axis.word]) ∨
      axis = .event ∧ ws = [("define" : Text), "event"] := by
  have hstart : (∃ start ∈ [[("if" : Text)], ["else", "if"]], ws = start ++ [axis.word]) ↔
      ws = [("if" : Text), axis.word] ∨ ws = [("else" : Text), "if", axis.word] := by
    simp only [List.mem_cons, List.not_mem_nil, or_false, exists_eq_or_imp, exists_eq_left]
    rfl
  rw [hstart]
  cases axis with
  | scenario =>
    rw [headers, List.mem_cons, List.mem_singleton]
    exact (or_iff_left fun h => absurd h.1 (by decide)).symm
  | event =>
    rw [headers, List.mem_cons, List.mem_cons, List.mem_singleton, ← or_assoc]
    exact or_congr Iff.rfl (and_iff_right rfl).symm

/-- Words joined by blanks tell what the words are. -/
theorem Text.lower_join_eq_iff {ws keys : List Text} (hws : ∀ w ∈ ws, ' ' ∉ w)
    (hkeys : ∀ key ∈ keys, key ≠ [] ∧ ' ' ∉ key) (hne : keys ≠ []) :
    lower (join " " ws) = join " " keys ↔ ws.map lower = keys := by
  have hlower : lower (join " " ws) = join " " (ws.map lower) := lower_join " " ws
  rw [hlower]
  refine ⟨fun h => ?_, fun h => by rw [h]⟩
  have hsplit := congrArg (split ' ') h
  have hblank : (" " : Text) = [' '] := rfl
  rw [hblank, split_join hne fun key hkey => (hkeys key hkey).2] at hsplit
  by_cases hnil : ws.map lower = []
  · rw [hnil] at hsplit
    exact absurd rfl (hkeys [] (hsplit ▸ List.mem_singleton.mpr rfl)).1
  · rwa [split_join hnil] at hsplit
    intro w hw
    obtain ⟨w, hw', rfl⟩ := List.mem_map.mp hw
    simp only [lower, List.mem_map, not_exists, not_and]
    intro c hc hblank
    exact hws w hw' ((toLower_eq_iff (by decide)).mp hblank ▸ hc)

theorem Text.blank_not_mem_of_mem_words {t w : Text} (h : w ∈ words t) : ' ' ∉ w := fun hblank =>
  absurd (((words_spec t).1 w h).2.1 ' ' hblank) (by decide)

namespace Directive

theorem conditionKind?_axis {ws : List Text} {kind : ScopeKind} {qualifier : Option Text}
    (h : conditionKind? ws = some (kind, qualifier)) (axis : Axis) :
    kind.axis? = some axis ↔ ws.map Text.lower = [axis.word] := by
  unfold conditionKind? at h
  split at h
  · rename_i w
    split at h
    · rename_i hscenario
      obtain ⟨rfl, -⟩ := Prod.mk.inj (Option.some.inj h)
      rw [List.map_singleton, Text.alike_iff.mp hscenario]
      cases axis <;> decide
    · split at h
      · rename_i hevent
        obtain ⟨rfl, -⟩ := Prod.mk.inj (Option.some.inj h)
        rw [List.map_singleton, Text.alike_iff.mp hevent]
        cases axis <;> decide
      · cases h
  · split at h
    · obtain ⟨rfl, -⟩ := Prod.mk.inj (Option.some.inj h)
      exact iff_of_false nofun (by simp)
    · cases h
  · cases h

theorem condition_axis {ws : List Text} {value : Option Text} {h : Header}
    (hok : condition ws value = .ok h) (axis : Axis) :
    value = some h.names ∧ (h.kind.axis? = some axis ↔ ws.map Text.lower = [axis.word]) := by
  unfold condition at hok
  split at hok
  · cases hok
  · cases hok
  · rename_i hkind
    obtain rfl := Except.ok.inj hok
    exact ⟨rfl, conditionKind?_axis hkind axis⟩

theorem definition_axis {ws : List Text} (hws : ∀ w ∈ ws, ' ' ∉ w) (names : Text) (axis : Axis) :
    (definition ws names).kind.axis? = some axis ↔
      axis = .event ∧ ws.map Text.lower = [("event" : Text)] := by
  have hkey : Text.lower (Text.join " " ws) = "event" ↔ ws.map Text.lower = [("event" : Text)] :=
    @Text.lower_join_eq_iff ws [("event" : Text)] hws (by decide) (by decide)
  rw [← hkey, definition]
  split
  · rename_i hevent
    refine ⟨fun h => ⟨(Option.some.inj h).symm, hevent⟩, fun h => ?_⟩
    rw [h.1]
    rfl
  · rename_i hevent
    exact iff_of_false (by split <;> exact nofun) fun h => hevent h.2

section
variable {command : Text} {ws start : List Text} {value : Option Text} {axis : Axis}

/-- A header that has names of an axis begins with the words that ask about it. -/
theorem mem_headers_of_axis {h : Header} (hws : ∀ w ∈ ws, ' ' ∉ w)
    (hd : (ofWords command ws value).header? = some h) (haxis : h.kind.axis? = some axis) :
    ws.map Text.lower ∈ axis.headers := by
  rw [Axis.mem_headers]
  obtain ⟨start, hstart, hwords, hcondition⟩ | rfl | ⟨names, -, -, hwords, rfl⟩ :=
    ofWords_header_cases hd
  · rw [(condition_axis hcondition axis).2.mp haxis] at hwords
    exact .inl ⟨start, hstart, hwords⟩
  · cases haxis
  · obtain ⟨hevent, hrest⟩ :=
      (definition_axis (fun w hw => hws w (List.mem_of_mem_drop hw)) names axis).mp haxis
    rw [hrest] at hwords
    exact .inr ⟨hevent, hwords⟩

/-- A directive with the words of a condition is the header of the condition, if it has one. -/
theorem ofWords_of_condition (hstart : start ∈ [[("if" : Text)], ["else", "if"]])
    (hwords : ws.map Text.lower = start ++ [axis.word]) :
    ofWords command ws value = match condition (ws.drop start.length) value with
      | .ok header => ofStart start header
      | .error flaw => .malformed flaw := by
  simp only [List.mem_cons, List.not_mem_nil, or_false] at hstart
  unfold ofWords
  rw [hwords]
  obtain rfl | rfl := hstart <;> rfl

/-- A directive with the words that ask about an axis is a header that has the names, unless it is
malformed. -/
theorem exists_header_of_mem (hws : ∀ w ∈ ws, ' ' ∉ w) (h : ws.map Text.lower ∈ axis.headers)
    (hok : ∀ flaw, ofWords command ws value ≠ .malformed flaw) :
    ∃ header, (ofWords command ws value).header? = some header ∧
      header.kind.axis? = some axis ∧ value = some header.names := by
  have hdrop : ∀ n, (ws.drop n).map Text.lower = (ws.map Text.lower).drop n :=
    fun n => List.map_drop
  obtain ⟨start, hstart, hwords⟩ | ⟨rfl, hwords⟩ := Axis.mem_headers.mp h
  · cases hc : condition (ws.drop start.length) value with
    | error flaw => exact absurd (by rw [ofWords_of_condition hstart hwords, hc]) (hok flaw)
    | ok header =>
      obtain ⟨hvalue, haxis⟩ := condition_axis hc axis
      refine ⟨header, ?_, haxis.mpr ?_, hvalue⟩
      · rw [ofWords_of_condition hstart hwords, hc]
        dsimp only
        rw [ofStart]
        split <;> rfl
      · rw [hdrop, hwords, List.drop_left]
  · have hdefine : ∀ names, ofWords command ws (some names) =
        .opening (definition (ws.drop 1) names) := by
      intro names
      unfold ofWords
      rw [hwords]
      rfl
    have hnone : ofWords command ws Option.none = .malformed (.noName command) := by
      unfold ofWords
      rw [hwords]
      rfl
    cases value with
    | none => exact absurd hnone (hok _)
    | some names =>
      rw [hdefine]
      refine ⟨_, rfl, (definition_axis (fun w hw => hws w (List.mem_of_mem_drop hw)) names _).mpr
        ⟨rfl, ?_⟩, congrArg some (definition_names _ names).symm⟩
      rw [hdrop, hwords]
      rfl

/-- A directive that is not malformed has the names of an axis exactly if its words are those of a
header of the axis. -/
theorem namesOn_ofWords (hws : ∀ w ∈ ws, ' ' ∉ w)
    (hok : ∀ flaw, ofWords command ws value ≠ .malformed flaw) :
    ((ofWords command ws value).header?.map (·.namesOn axis)).getD [] =
      if ws.map Text.lower ∈ axis.headers then plainNames (Text.alternatives (value.getD []))
      else [] := by
  split
  · rename_i hmem
    obtain ⟨header, hheader, haxis, rfl⟩ := exists_header_of_mem hws hmem hok
    rw [hheader]
    exact if_pos haxis
  · rename_i hmem
    cases hheader : (ofWords command ws value).header? with
    | none => rfl
    | some header => exact if_neg fun haxis => hmem (mem_headers_of_axis hws hheader haxis)

end

end Directive

namespace Line

variable {marks line : Text} {axis : Axis}

/-- The names of an axis that the line declares. -/
def declaredOn (l : Line) (axis : Axis) : List Text :=
  if l.keywords = axis.declaration then Text.alternatives (l.value.getD []) else []

theorem headerNamesOn_eq (hok : ∀ flaw, (classify marks line).directive ≠ .malformed flaw) :
    (classify marks line).headerNamesOn axis =
      if (classify marks line).keywords ∈ axis.headers then
        plainNames (Text.alternatives ((classify marks line).value.getD []))
      else [] := by
  rw [classify_directive] at hok
  rw [headerNamesOn, classify_directive, keywords]
  cases hcommand : (classify marks line).command with
  | none =>
    have hnone : ([] : List Text) ∉ axis.headers := by cases axis <;> decide
    exact (if_neg hnone).symm
  | some command =>
    rw [hcommand] at hok
    exact Directive.namesOn_ofWords (fun w hw => Text.blank_not_mem_of_mem_words hw) hok

/-- A line that declares names is no block structure. -/
theorem directive_of_declaration (h : (classify marks line).keywords = axis.declaration) :
    (classify marks line).directive = .none := by
  have hne : axis.declaration ≠ [] := by cases axis <;> decide
  obtain ⟨command, hcommand, hwords⟩ := exists_command (h ▸ hne)
  rw [classify_directive, hcommand]
  show Directive.ofWords command _ _ = _
  unfold Directive.ofWords
  rw [← hwords, h]
  cases axis <;> rfl

theorem namesOn_eq (hok : ∀ flaw, (classify marks line).directive ≠ .malformed flaw) :
    (classify marks line).namesOn axis =
      (classify marks line).headerNamesOn axis ++ (classify marks line).declaredOn axis := by
  have hdisjoint : axis.declaration ∉ axis.headers := by cases axis <;> decide
  rw [headerNamesOn_eq hok, declaredOn, namesOn]
  by_cases hheader : (classify marks line).keywords ∈ axis.headers
  · have hnot : (classify marks line).keywords ≠ axis.declaration :=
      fun h => hdisjoint (h ▸ hheader)
    rw [if_pos hheader, if_pos hheader, if_neg hnot, List.append_nil]
  · rw [if_neg hheader, if_neg hheader, List.nil_append]

end Line

/-! ## Names in statements -/

/-- The names of an axis that the statement declares. -/
def Statement.declaredOn (s : Statement) : Axis → List Text
  | .scenario => s.scenarioDeclaration?.getD []
  | .event => s.eventDeclaration?.getD []

/-- The names of an axis that the statement mentions: those of its scopes, and those it declares. -/
def Statement.namesOn (s : Statement) (axis : Axis) : List Text :=
  s.scope.flatMap (·.namesOn axis) ++ s.declaredOn axis

/-- A statement declares what its line declares. -/
theorem Statement.declaredOn_eq {s : Statement} {l : Line} (hcommand : s.command = l.command)
    (hvalue : s.value = l.value) (axis : Axis) : s.declaredOn axis = l.declaredOn axis := by
  have hkey : s.key = Text.join " " axis.declaration ↔ l.keywords = axis.declaration := by
    rw [key, hcommand, Line.keywords]
    cases l.command with
    | none => cases axis <;> exact iff_of_false (by decide) (by decide)
    | some command =>
      refine Text.lower_join_eq_iff (fun w hw => Text.blank_not_mem_of_mem_words hw) ?_ ?_
      · cases axis <;> decide
      · cases axis <;> decide
  have hdeclared : s.declaredOn axis =
      if s.key = Text.join " " axis.declaration then Text.alternatives (s.value.getD [])
      else [] := by
    cases axis <;> exact apply_ite (Option.getD · []) _ _ _
  rw [hdeclared, Line.declaredOn, ← hvalue]
  exact if_congr hkey rfl rfl

theorem Entry.Gives.declaredOn_eq {o : ReadOptions} {e : Entry} {s : Statement}
    (h : e.Gives o s) (axis : Axis) :
    s.declaredOn axis = (e.line?.map (·.declaredOn axis)).getD [] := by
  obtain ⟨id, rfl⟩ := h
  rw [Entry.statement]
  cases e.line? with
  | none => cases axis <;> rfl
  | some l => exact Statement.declaredOn_eq rfl rfl axis

section
variable {o : ReadOptions} {t : Outline} {ss : List Statement}

/-- The scopes of the statements have the names that the headers list. -/
theorem listed_scopes_of_gives (hv : t.Valid)
    (hgives : List.Forall₂ (Entry.Gives o) t.allEntries ss) (axis : Axis) (name : Text) :
    Text.listed (ss.flatMap fun s => s.scope.flatMap (·.namesOn axis)) name =
      Text.listed (t.lines.flatMap (·.headerNamesOn axis)) name := by
  have hscopes : ss.flatMap (fun s => s.scope.flatMap (·.namesOn axis)) =
      Entry.namesOn t.allEntries axis := by
    generalize t.allEntries = es at hgives ⊢
    induction hgives with
    | nil => rfl
    | cons hgives _ ih =>
      rw [List.flatMap_cons, ih, hgives.scope_eq]
      rfl
  have hglobal : Level.namesOn [] axis = [] := by cases axis <;> rfl
  rw [hscopes, Outline.allEntries, Outline.listed_entries t _ _ hv, hglobal]
  exact (congrArg _ (Bool.and_false _)).trans (Bool.or_false _)

/-- The statements declare what the lines declare. -/
theorem listed_declared_of_gives (hlines : ∀ l ∈ t.lines, ∃ marks line, l = .classify marks line)
    (hgives : List.Forall₂ (Entry.Gives o) t.allEntries ss) (axis : Axis) (name : Text) :
    Text.listed (ss.flatMap (·.declaredOn axis)) name =
      Text.listed (t.lines.flatMap (·.declaredOn axis)) name := by
  rw [Bool.eq_iff_iff, Text.listed_flatMap_iff, Text.listed_flatMap_iff]
  constructor
  · rintro ⟨s, hs, hlisted⟩
    obtain ⟨e, he, hgives'⟩ := exists_gives_of_mem hgives hs
    rw [hgives'.declaredOn_eq] at hlisted
    cases hl : e.line? with
    | none =>
      rw [hl] at hlisted
      cases hlisted
    | some l =>
      rw [hl] at hlisted
      exact ⟨l, Outline.mem_lines_of_mem_allEntries he hl, hlisted⟩
  · rintro ⟨l, hl, hlisted⟩
    obtain ⟨marks, line, rfl⟩ := hlines l hl
    obtain ⟨i, hi⟩ := List.mem_iff_getElem?.mp hl
    have hdeclares : (Line.classify marks line).keywords = axis.declaration := by
      by_contra hno
      rw [Line.declaredOn, if_neg hno] at hlisted
      cases hlisted
    obtain ⟨e, he, hline, -⟩ := exists_entry_of_plain hi (Line.directive_of_declaration hdeclares)
    obtain ⟨s, hs, hgives'⟩ := exists_statement_of_mem hgives he
    refine ⟨s, hs, ?_⟩
    rw [hgives'.declaredOn_eq, hline]
    exact hlisted

/-- The names of an axis that the statements of a text mention are those that its lines do. -/
theorem listed_namesOn_of_readStatements {text : Text} (h : readStatements o text = .ok ss)
    (axis : Axis) (name : Text) :
    Text.listed (ss.flatMap (·.namesOn axis)) name =
      Text.listed ((o.linesOf text).flatMap (·.namesOn axis)) name := by
  obtain ⟨t, hv, hlines, hgives⟩ := exists_outline_of_readStatements h
  have hclassify : ∀ l ∈ t.lines, ∃ marks line, l = .classify marks line := by
    intro l hl
    obtain ⟨line, -, rfl⟩ := List.mem_map.mp (hlines ▸ hl)
    exact ⟨o.marks, line, rfl⟩
  have hall : t.lines.flatMap (·.namesOn axis) =
      t.lines.flatMap fun l => l.headerNamesOn axis ++ l.declaredOn axis := by
    refine List.flatMap_congr fun l hl => ?_
    obtain ⟨marks, line, rfl⟩ := hclassify l hl
    exact Line.namesOn_eq (t.not_malformed _ hl)
  rw [← hlines, hall, Text.listed_flatMap_append, ← listed_scopes_of_gives hv hgives,
    ← listed_declared_of_gives hclassify hgives]
  exact Text.listed_flatMap_append ss _ _ name

end

/-! ## Candidates -/

namespace Candidates

theorem names_addScope (c : Candidates) (s : Scope) (axis : Axis) :
    (c.addScope s).names axis = Text.addNew (c.names axis) (s.namesOn axis) := by
  rw [addScope, Scope.namesOn]
  cases s.kind <;> cases axis <;> rfl

/-- Steps that each add names of an axis add them all. -/
theorem names_foldl {α : Type} {step : Candidates → α → Candidates} {names : α → List Text}
    {axis : Axis} (h : ∀ c a, (step c a).names axis = Text.addNew (c.names axis) (names a))
    (c : Candidates) (l : List α) :
    (l.foldl step c).names axis = Text.addNew (c.names axis) (l.flatMap names) := by
  induction l generalizing c with
  | nil => rfl
  | cons a l ih =>
    rw [List.foldl_cons, ih, h, List.flatMap_cons]
    exact List.foldl_append.symm

theorem names_addStatement (c : Candidates) (s : Statement) (axis : Axis) :
    (c.addStatement s).names axis = Text.addNew (c.names axis) (s.namesOn axis) := by
  have hdeclared : (c.addStatement s).names axis =
      Text.addNew ((s.scope.foldl addScope c).names axis) (s.declaredOn axis) := by
    cases axis <;> rfl
  rw [hdeclared, names_foldl fun c s => names_addScope c s axis]
  exact List.foldl_append.symm

theorem names_addFile (c : Candidates) (f : ControlFile) (axis : Axis) :
    (c.addFile f).names axis =
      Text.addNew (c.names axis) (f.statements.flatMap (·.namesOn axis)) :=
  names_foldl (fun c s => names_addStatement c s axis) c f.statements

end Candidates

namespace ControlFile

/-- The candidates are the names that the statements of all files mention, without repetitions. -/
theorem names_candidates (f : ControlFile) (axis : Axis) :
    f.candidates.names axis =
      Text.addNew [] (f.all.flatMap fun g => g.statements.flatMap (·.namesOn axis)) := by
  rw [candidates, Candidates.names_foldl fun c g => Candidates.names_addFile c g axis]
  cases axis <;> rfl

/-- The candidates of a loaded tree are, each once in whatever case, the names that some line of one
of its files mentions: a header, be there a statement in its block or not, or a declaration. -/
theorem listed_candidates_iff {files : Files Id} {o : LoadOptions} {root : Path} {t : ControlFile}
    (h : load files o root = .ok t) (axis : Axis) :
    ((t.candidates.names axis).map Text.lower).Nodup ∧
      ∀ name, Text.listed (t.candidates.names axis) name = true ↔
        ∃ f ∈ t.all, ∃ text, files.read f.path = .ok text ∧
          ∃ l ∈ (ReadOptions.ofPath o.marks f.path).linesOf text,
            Text.listed (l.namesOn axis) name = true := by
  have hfile : ∀ f ∈ t.all, ∃ text, files.read f.path = .ok text ∧
      ∀ name, Text.listed (f.statements.flatMap (·.namesOn axis)) name =
        Text.listed (((ReadOptions.ofPath o.marks f.path).linesOf text).flatMap (·.namesOn axis))
          name := by
    intro f hf
    obtain ⟨text, htext, hread⟩ := exists_read_of_load h hf
    refine ⟨text, htext, fun name => ?_⟩
    rw [← listed_namesOn_of_readStatements hread, List.flatMap_map]
    rfl
  rw [names_candidates]
  refine ⟨Text.nodup_addNew (by simp) _, fun name => ?_⟩
  rw [Text.listed_addNew]
  refine Text.listed_flatMap_iff.trans (exists_congr fun f => and_congr_right fun hf => ?_)
  obtain ⟨text, htext, hnames⟩ := hfile f hf
  rw [hnames, Text.listed_flatMap_iff]
  refine ⟨fun hl => ⟨text, htext, hl⟩, ?_⟩
  rintro ⟨text', htext', hl⟩
  obtain rfl := Except.ok.inj (htext.symm.trans htext')
  exact hl

/-- Names of branches that hold no statement, one of them in a file below the root. -/
theorem listed_candidates_iff_empty :
    let top := Text.unlines ["If Scenario == A | <<~s1~>>", "ELSE  if scenario == b", "Else",
      "End If", "Geometry Control File == g.tgc"]
    let below := Text.unlines ["Model Scenarios == B", "Define Event == Q1", "End Define"]
    let store := Store.ofList [(⟨"/m/m.tcf"⟩, top), (⟨"/m/g.tgc"⟩, below)]
    ∃ t, load store.files .standard ⟨"/m/m.tcf"⟩ = .ok t ∧
      ((t.candidates.names .scenario).map Text.lower).Nodup ∧
      Text.listed (t.candidates.names .scenario) "B" = true ∧
      Text.listed (t.candidates.names .event) "q1" = true := by
  intro top below store
  have hcheck : ((load store.files .standard ⟨"/m/m.tcf"⟩).toOption.any fun t =>
      t.path == ⟨"/m/m.tcf"⟩ && t.all.any fun f => f.path == ⟨"/m/g.tgc"⟩) = true := by
    decide +kernel
  obtain ⟨t, hload, hcheck⟩ := Except.toOption_any_iff.mp hcheck
  simp only [Bool.and_eq_true, List.any_eq_true, beq_iff_eq] at hcheck
  obtain ⟨htop, f, hf, hbelow⟩ := hcheck
  have hroot : t ∈ t.all := by
    rw [all_eq]
    exact List.mem_cons_self
  obtain ⟨hnodup, hscenarios⟩ := listed_candidates_iff hload .scenario
  refine ⟨t, hload, hnodup, (hscenarios "B").mpr ⟨t, hroot, top, by rw [htop]; rfl,
      Line.classify Line.commentMarks "ELSE  if scenario == b", ?_, by decide +kernel⟩,
    ((listed_candidates_iff hload .event).2 "q1").mpr ⟨f, hf, below, by rw [hbelow]; rfl,
      Line.classify Line.commentMarks "Define Event == Q1", ?_, by decide +kernel⟩⟩
  · rw [htop]
    decide +kernel
  · rw [hbelow]
    decide +kernel

end ControlFile

end ControlFiles
