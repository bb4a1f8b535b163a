import ControlFiles.Proofs.Block.Spans
import ControlFiles.Proofs.Except
import ControlFiles.Proofs.Run.Branching

/-!
# Branches that a run takes together

A header lists names and tokens. Its scope keeps all of the names, but of the tokens only the first
one (`Scope.ofText_of_alternatives`), and so does the negation of the names that earlier branches
have used. A run can therefore take a branch through its token and a later one as well, if still
another token comes first among those that the later one excludes (`Context.Slips`); and in no other
way (`slips_of_isActive`). That this happens is `not_forall_branches_exclusive`.
-/

namespace ControlFiles

/-! ## What a run says to a header -/

namespace Context

/-- The names that a token stands for in a run, if the run knows it. -/
def tokenNames? (c : Context) (token : Text) : Option (List Text) :=
  let meaning := c.substitute token
  if Text.hasTokens meaning then none else some ((Text.split '|' meaning).map Text.trim)

/-- The names that some alternatives stand for in a run. A token that the run does not know adds
none to the names beside it, and says nothing alone. -/
def names? (c : Context) (names : List Text) : Option (List Text) :=
  match firstToken? names with
  | none => some (plainNames names)
  | some token =>
    match c.tokenNames? token with
    | some listed => some (plainNames names ++ listed)
    | none => if (plainNames names).isEmpty then none else some (plainNames names)

/-- What a run says to a question about some alternatives. -/
def asks? (c : Context) (q : Question) (names : List Text) : Option Bool :=
  (c.names? names).bind (q.answer? c)

theorem answer?_eq_selected (c : Context) {s : Scope} (hbranch : s.kind.canBranch = true)
    (names : List Text) : Question.answer? c ⟨s.kind, s.qualifier⟩ names =
      (c.selected? s).map fun chosen => names.any (Text.listed chosen) := by
  rw [Question.answer?, selected?]
  cases hk : s.kind with
  | scenario => rfl
  | event => rfl
  | userVariable => cases hv : s.qualifier.bind c.vars.get? <;> simp
  | _ => rw [hk] at hbranch; cases hbranch

theorem any_alternatives? (c : Context) {s : Scope} {names : List Text}
    (htoken : s.token = firstToken? names)
    (hnames : s.names = Text.addNew [] (plainNames names)) (chosen : List Text) :
    (c.alternatives? s).map (·.any (Text.listed chosen)) =
      (c.names? names).map (·.any (Text.listed chosen)) := by
  have hany : s.names.any (Text.listed chosen) = (plainNames names).any (Text.listed chosen) := by
    rw [hnames, Text.any_addNew (fun _ _ h => Text.listed_congr h chosen)]
    rfl
  have hempty : s.names.isEmpty = (plainNames names).isEmpty := by
    have hall : ∀ l : List Text, l.isEmpty = !l.any fun _ => true := by rintro (_ | _) <;> rfl
    rw [hnames, hall, hall, Text.any_addNew fun _ _ _ => rfl]
    rfl
  rw [alternatives?, names?, htoken]
  cases firstToken? names with
  | none => exact congrArg some hany
  | some token =>
    simp only [tokenNames?, hempty]
    split
    · split
      · rfl
      · exact congrArg some hany
    · simp [List.any_append, hany]

/-- The scope of a header holds if the run gives the answer to its alternatives that its negation
asks for. -/
theorem holds_eq_asks (c : Context) {s : Scope} (names : List Text)
    (hbranch : s.kind.canBranch = true) (htoken : s.token = firstToken? names)
    (hnames : s.names = Text.addNew [] (plainNames names)) :
    c.holds s = decide (c.asks? ⟨s.kind, s.qualifier⟩ names = some (!s.negated)) := by
  have hresolvable : ¬ (decide (s.kind = .global) || !s.kind.isResolvable) = true := by
    cases hk : s.kind <;> simp [hk, ScopeKind.canBranch, ScopeKind.isResolvable] at hbranch ⊢
  have hbool : ∀ a b : Bool, (a != b) = decide (a = !b) := by decide
  have hanswer : Question.answer? c ⟨s.kind, s.qualifier⟩ = fun names =>
      (c.selected? s).map fun chosen => names.any (Text.listed chosen) :=
    funext (c.answer?_eq_selected hbranch)
  rw [holds, if_neg (by simpa using hresolvable), asks?, hanswer]
  cases hselected : c.selected? s with
  | none => cases c.alternatives? s <;> cases c.names? names <;> simp
  | some chosen =>
    have hany := c.any_alternatives? htoken hnames chosen
    cases halternatives : c.alternatives? s <;> cases hlisted : c.names? names <;>
      simp only [halternatives, hlisted, Option.map_some, Option.map_none, reduceCtorEq,
        Option.some.injEq] at hany
    · rfl
    · simp [hany, hbool]
/-! ## Taking two branches -/

/-- The run takes a branch that lists `names` through its token, and a later branch does not exclude
that, of which the earlier ones have used `used`: another token comes first among these, which
stands for no chosen name, and no name that is written there is chosen either. -/
def Slips (c : Context) (q : Question) (names used : List Text) : Prop :=
  ∃ token first listed, firstToken? names = some token ∧ firstToken? used = some first ∧
    token ≠ first ∧ c.tokenNames? token = some listed ∧ q.answer? c listed = some true ∧
    q.answer? c (plainNames used) = some false ∧
    match c.tokenNames? first with
    | some other => q.answer? c other = some false
    | none => plainNames used ≠ []

variable {c : Context} {q : Question}

/-- What is asked of a block that can branch is answered by looking for the names among some
chosen ones. -/
theorem exists_selected (c : Context) (hq : q.kind.canBranch = true) :
    ∃ selected : Option (List Text), ∀ names,
      q.answer? c names = selected.map fun chosen => names.any (Text.listed chosen) :=
  ⟨_, c.answer?_eq_selected (s := (Scope.ofNames q.kind []).withQualifier q.qualifier) hq⟩

theorem answer?_append_eq_true (hq : q.kind.canBranch = true) {a b : List Text}
    (ha : q.answer? c a = some false) :
    q.answer? c (a ++ b) = some true ↔ q.answer? c b = some true := by
  obtain ⟨selected, hselected⟩ := c.exists_selected hq
  rw [hselected] at ha
  cases selected with
  | none => cases ha
  | some chosen =>
    have ha : a.any (Text.listed chosen) = false := Option.some.inj ha
    rw [hselected, hselected, Option.map_some, List.any_append, ha, Bool.false_or, Option.map_some]

theorem answer?_of_subset (hq : q.kind.canBranch = true) {a b : List Text} (hsub : a ⊆ b)
    (h : q.answer? c b = some false) : q.answer? c a = some false := by
  obtain ⟨selected, hselected⟩ := c.exists_selected hq
  rw [hselected] at h ⊢
  cases selected with
  | none => cases h
  | some chosen =>
    have h : b.any (Text.listed chosen) = false := Option.some.inj h
    rw [List.any_eq_false] at h
    exact congrArg some (List.any_eq_false.mpr fun name hname => h name (hsub hname))

/-- The run says no to some alternatives if it does to their names and to what their first token
stands for. -/
theorem asks?_eq_false (hq : q.kind.canBranch = true) {names : List Text} :
    c.asks? q names = some false ↔ q.answer? c (plainNames names) = some false ∧
      ∀ first ∈ firstToken? names,
        match c.tokenNames? first with
        | some other => q.answer? c other = some false
        | none => plainNames names ≠ [] := by
  rw [asks?, names?]
  cases firstToken? names with
  | none => simp
  | some first =>
    cases hlisted : c.tokenNames? first with
    | some other => simp [hlisted, Question.answer?_append c hq]
    | none => cases plainNames names <;> simp [hlisted]

/-- The run says yes to some alternatives, but not to a name among them, if it does to what their
first token stands for. -/
theorem asks?_eq_true_of_plain (hq : q.kind.canBranch = true) {names : List Text}
    (hplain : q.answer? c (plainNames names) = some false) :
    c.asks? q names = some true ↔ ∃ token listed, firstToken? names = some token ∧
      c.tokenNames? token = some listed ∧ q.answer? c listed = some true := by
  rw [asks?, names?]
  cases firstToken? names with
  | none => simp [hplain]
  | some token =>
    cases hlisted : c.tokenNames? token with
    | some listed => simp [hlisted, answer?_append_eq_true hq hplain]
    | none => cases hnames : plainNames names <;> simp_all

/-- The alternatives of a branch have been used before a later one. The run says yes to the branch
and no to all that was used before the later one only for a token that is not the first one which
was used. -/
theorem slips_iff (hq : q.kind.canBranch = true) {names before behind : List Text} :
    c.asks? q names = some true ∧ c.asks? q (before ++ names ++ behind) = some false ↔
      c.Slips q names (before ++ names ++ behind) := by
  have hsub : plainNames names ⊆ plainNames (before ++ names ++ behind) := by
    rw [plainNames_append, plainNames_append]
    exact fun name hname => List.mem_append_left _ (List.mem_append_right _ hname)
  constructor
  · rintro ⟨hyes, hno⟩
    obtain ⟨hplain, htoken⟩ := (asks?_eq_false hq).mp hno
    obtain ⟨token, listed, hnames, hlisted, hanswer⟩ :=
      (asks?_eq_true_of_plain hq (answer?_of_subset hq hsub hplain)).mp hyes
    obtain ⟨first, hfirst⟩ : ∃ first, firstToken? (before ++ names ++ behind) = some first := by
      rw [firstToken?_append, firstToken?_append, hnames]
      cases firstToken? before <;> exact ⟨_, rfl⟩
    have hother := htoken first hfirst
    refine ⟨token, first, listed, hnames, hfirst, ?_, hlisted, hanswer, hplain, hother⟩
    rintro rfl
    have hother : q.answer? c listed = some false := by simpa only [hlisted] using hother
    rw [hanswer] at hother
    cases hother
  · rintro ⟨token, first, listed, hnames, hfirst, -, hlisted, hanswer, hplain, hother⟩
    refine ⟨(asks?_eq_true_of_plain hq (answer?_of_subset hq hsub hplain)).mpr
      ⟨token, listed, hnames, hlisted, hanswer⟩, (asks?_eq_false hq).mpr ⟨hplain, ?_⟩⟩
    intro first' hfirst'
    rw [hfirst] at hfirst'
    obtain rfl := Option.some.inj hfirst'
    exact hother

theorem asks?_congr {q' : Question} (hk : q.kind = q'.kind)
    (hq : Text.alike? q.qualifier q'.qualifier = true) (names : List Text) :
    c.asks? q names = c.asks? q' names := by
  rw [asks?, asks?, show q.answer? c = q'.answer? c from
    funext (Question.answer?_congr c hk hq)]

end Context

/-- Behind the level of a branch, the run says yes to what its header lists and no to what the
headers before list. -/
theorem Level.IsBranch.asks {c : Context} {q : Question} {b : BranchSpan} {l : Level}
    (h : l.IsBranch q b) (hq : q.kind.canBranch = true) (hholds : l.scopes.all c.holds = true) :
    (∀ names ∈ b.names?, c.asks? q names = some true) ∧
      ∀ seen ∈ b.earlier?, c.asks? q seen = some false := by
  rw [List.all_eq_true] at hholds
  constructor
  · intro names hnames
    obtain ⟨header, source, hkind, halike, rfl, hleaf⟩ := h.condition names hnames
    have hleaf := hleaf hq
    have hscope := hholds l.leaf (List.mem_append_right _ (List.mem_singleton.mpr rfl))
    rw [hleaf, Scope.ofText_of_alternatives, c.holds_eq_asks header.nameList
      (by simpa [Scope.withSource, Scope.withQualifier, Scope.ofNames, hkind] using hq) rfl rfl]
      at hscope
    rw [Context.asks?_congr (show q.kind = header.question.kind from hkind.symm) halike]
    exact of_decide_eq_true hscope
  · intro seen hseen
    obtain ⟨qualifier, fromElse, source, halike, hmem, -, hnames⟩ := h.exclusion seen hseen
    have hscope := hholds _ hmem
    rw [Scope.negationOf_of_isName q.kind fromElse qualifier hnames,
      c.holds_eq_asks seen hq rfl rfl] at hscope
    rw [Context.asks?_congr (show q.kind = Question.kind ⟨q.kind, qualifier⟩ from rfl) halike]
    exact of_decide_eq_true hscope

/-! ## Whole texts -/

/-- A statement in force that lies in a branch stands behind the level of the branch, and that level
holds. -/
theorem exists_isBranch_of_isActive {o : ReadOptions} {t : Outline} {ss : List Statement}
    (hv : t.Valid) (hgives : List.Forall₂ (Entry.Gives o) t.allEntries ss) {k : Block}
    (hk : k ∈ t.blocks 1) {b : BranchSpan} (hb : b ∈ k.branches) {s : Statement} (hs : s ∈ ss)
    (hline : s.line ∈ b.numbers) {c : Context} (hactive : c.isActive s.scope = true) :
    ∃ l : Level, l.IsBranch k.question b ∧ l.scopes.all c.holds = true := by
  obtain ⟨e, he, hnumber, l, hl, hbranch⟩ :=
    Outline.exists_isBranch (.ofList (t.closes 1)) t 1 [] hv k hk b hb s.line hline
  obtain ⟨e', he', hgives'⟩ := exists_gives_of_mem hgives hs
  obtain rfl := Outline.eq_of_number_eq he he' (hnumber.trans hgives'.line_eq)
  refine ⟨l, hbranch, List.all_eq_true.mpr fun a ha => ?_⟩
  rw [hgives'.scope_eq, Entry.scope, Level.scopeList, Context.isActive, List.all_cons,
    Bool.and_eq_true, List.all_eq_true] at hactive
  exact hactive.2 a (List.mem_flatMap.mpr ⟨l, hl, ha⟩)

/-- Two statements in different branches of a block are in force in one run only if the run slips:
it takes the earlier one of the branches through its token, and another token comes first among what
the headers before the later one list. -/
theorem slips_of_isActive {path : Path} {text : Text} {f : ControlFile}
    (hf : ControlFile.ofText path text = .ok f) :
    ∃ t : Outline,
      (t.Valid ∧ t.lines = (ReadOptions.ofPath Line.commentMarks path).linesOf text ∧
        ∀ t' : Outline, t'.lines = t.lines → t' = t) ∧
      ∀ (c : Context), ∀ k ∈ t.blocks 1, k.branches.Pairwise fun b b' =>
        ∀ s ∈ f.statements, ∀ s' ∈ f.statements, s.line ∈ b.numbers → s'.line ∈ b'.numbers →
          c.isActive s.scope = true → c.isActive s'.scope = true →
            ∃ names used, b.names? = some names ∧ b'.earlier? = some used ∧
              c.Slips k.question names used := by
  obtain ⟨t, hv, hlines, hgives⟩ :=
    exists_outline_of_readStatements (ControlFile.readStatements_of_ofText hf)
  refine ⟨t, ⟨hv, hlines, fun t' ht' => Outline.lines_injective ht'⟩, fun c k hk => ?_⟩
  refine (Outline.pairwise_precedes t 1 hv k hk).imp_of_mem fun {b b'} hb hb' hprecedes => ?_
  intro s hs s' hs' hline hline' hactive hactive'
  obtain ⟨names, behind, hnames, hused⟩ := hprecedes
  obtain ⟨l, hl, hholds⟩ := exists_isBranch_of_isActive hv hgives hk hb hs hline hactive
  obtain ⟨l', hl', hholds'⟩ := exists_isBranch_of_isActive hv hgives hk hb' hs' hline' hactive'
  obtain ⟨-, -, -, -, -, hq, -⟩ := hl'.exclusion _ hused
  have hyes := (hl.asks hq hholds).1 names hnames
  have hno := (hl'.asks hq hholds').2 _ hused
  exact ⟨names, _, hnames, hused, (Context.slips_iff hq).mp ⟨hyes, hno⟩⟩

/-- A block of which the first two branches list a token each. -/
def twoTokens : Outline :=
  .block ⟨.classify Line.commentMarks "If Scenario == <<V1>>", ⟨.scenario, "<<V1>>", none⟩,
      by decide +kernel⟩
    (.line ⟨.classify Line.commentMarks "X == 1", by decide +kernel⟩ .nil)
    (.branch ⟨.classify Line.commentMarks "Else If Scenario == <<V2>>",
        some ⟨.scenario, "<<V2>>", none⟩, by decide +kernel⟩
      (.line ⟨.classify Line.commentMarks "Y == 1", by decide +kernel⟩ .nil)
      (.branch ⟨.classify Line.commentMarks "Else", none, by decide +kernel⟩
        (.line ⟨.classify Line.commentMarks "Z == 1", by decide +kernel⟩ .nil) .nil))
    ⟨.classify Line.commentMarks "End If", .endIf, by decide +kernel⟩ .nil

theorem blocks_twoTokens : twoTokens.blocks 1 =
    [⟨⟨.scenario, none⟩, [⟨some ["<<V1>>"], none, [2]⟩, ⟨some ["<<V2>>"], some ["<<V1>>"], [4]⟩,
      ⟨none, some ["<<V1>>", "<<V2>>"], [6]⟩]⟩] := by
  decide +kernel

/-- With a scenario chosen that the second token stands for, the second and the third branch of the
block are in force. -/
theorem exists_two_branches : ∃ (f : ControlFile) (c : Context) (s s' : Statement),
    ControlFile.ofText ⟨"/m/m.tcf"⟩ (Text.unlines ["If Scenario == <<V1>>", "X == 1",
      "Else If Scenario == <<V2>>", "Y == 1", "Else", "Z == 1", "End If"]) = .ok f ∧
    (s ∈ f.statements ∧ s.line = 4 ∧ c.isActive s.scope = true) ∧
    (s' ∈ f.statements ∧ s'.line = 6 ∧ c.isActive s'.scope = true) := by
  let c : Context := (Context.ofChosen ⟨["Q"], []⟩).setVariables [("V1", "P"), ("V2", "Q")]
  have hrun : ((ControlFile.ofText ⟨"/m/m.tcf"⟩ (Text.unlines ["If Scenario == <<V1>>", "X == 1",
      "Else If Scenario == <<V2>>", "Y == 1", "Else", "Z == 1", "End If"])).toOption.any fun f =>
        (f.statements.any fun s => s.line == 4 && c.isActive s.scope) &&
          f.statements.any fun s => s.line == 6 && c.isActive s.scope) = true := by
    decide +kernel
  obtain ⟨f, hf, hrun⟩ := Except.toOption_any_iff.mp hrun
  simp only [Bool.and_eq_true, List.any_eq_true, beq_iff_eq] at hrun
  obtain ⟨⟨s, hs⟩, s', hs'⟩ := hrun
  exact ⟨f, c, s, s', hf, hs, hs'⟩

theorem lines_twoTokens : twoTokens.lines =
    (ReadOptions.ofPath Line.commentMarks ⟨"/m/m.tcf"⟩).linesOf (Text.unlines [
      "If Scenario == <<V1>>", "X == 1", "Else If Scenario == <<V2>>", "Y == 1", "Else", "Z == 1",
      "End If"]) := by
  decide +kernel

/-- A run slips where a block lists two tokens. -/
theorem slips_of_isActive_twoTokens : ∃ (f : ControlFile) (c : Context) (k : Block)
    (names used : List Text),
    ControlFile.ofText ⟨"/m/m.tcf"⟩ (Text.unlines ["If Scenario == <<V1>>", "X == 1",
      "Else If Scenario == <<V2>>", "Y == 1", "Else", "Z == 1", "End If"]) = .ok f ∧
    k ∈ twoTokens.blocks 1 ∧ c.Slips k.question names used := by
  obtain ⟨f, c, s, s', hf, ⟨hs, hline, hactive⟩, hs', hline', hactive'⟩ := exists_two_branches
  obtain ⟨t, ⟨-, hlines, hunique⟩, hslips⟩ := slips_of_isActive hf
  obtain rfl := hunique twoTokens (lines_twoTokens.trans hlines.symm)
  have hk := blocks_twoTokens ▸ List.mem_singleton.mpr rfl
  have hpair := hslips c _ hk
  simp only [List.pairwise_cons] at hpair
  obtain ⟨names, used, -, -, hslip⟩ := hpair.2.1 _ (List.mem_singleton.mpr rfl) s hs s' hs'
    (by simp [hline]) (by simp [hline']) hactive hactive'
  exact ⟨f, c, _, names, used, hf, hk, hslip⟩

/-- It does not hold that no two statements in different branches of a block are in force in one
run. -/
theorem not_forall_branches_exclusive : ¬ ∀ (path : Path) (text : Text) (f : ControlFile),
    ControlFile.ofText path text = .ok f → ∃ t : Outline,
      t.lines = (ReadOptions.ofPath Line.commentMarks path).linesOf text ∧
      ∀ (c : Context), ∀ k ∈ t.blocks 1, k.branches.Pairwise fun b b' =>
        ∀ s ∈ f.statements, ∀ s' ∈ f.statements, s.line ∈ b.numbers → s'.line ∈ b'.numbers →
          ¬ (c.isActive s.scope = true ∧ c.isActive s'.scope = true) := by
  intro h
  obtain ⟨f, c, s, s', hf, ⟨hs, hline, hactive⟩, hs', hline', hactive'⟩ := exists_two_branches
  obtain ⟨t, hlines, hexclusive⟩ := h _ _ f hf
  obtain rfl := Outline.lines_injective (lines_twoTokens.trans hlines.symm)
  have hpair := hexclusive c _ (blocks_twoTokens ▸ List.mem_singleton.mpr rfl)
  simp only [List.pairwise_cons] at hpair
  exact hpair.2.1 _ (List.mem_singleton.mpr rfl) s hs s' hs' (by simp [hline]) (by simp [hline'])
    ⟨hactive, hactive'⟩

end ControlFiles
