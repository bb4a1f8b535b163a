import ControlFiles.Proofs.ControlFile.Statements
import ControlFiles.Proofs.Scope
import ControlFiles.Proofs.Variables
import ControlFiles.Run.Context

/-!
# Which lines a run reaches

A block runs at most one of its branches: the first one of whose names the run has chosen, or else
the `Else` branch. A block about a variable that is not set runs none. `Outline.reached` runs the
outline of a text in this way, and knows nothing of scopes.

The scopes that reading gives to the statements mean the same (`isActive_iff_mem_reached`), as long
as no name holds a wildcard token: a statement is in force in a run exactly when the run reaches its
line.
-/

namespace ControlFiles

/-! ## Running an outline -/

/-- What a run says to a question about some names: whether it has chosen one of them, in whatever
case. A question about a variable that is not set has no answer, and a block that only marks
nesting asks nothing. -/
def Question.answer? (c : Context) (q : Question) (names : List Text) : Option Bool :=
  match q.kind with
  | .scenario => some (names.any (Text.listed c.chosen.scenarios))
  | .event | .eventVariable => some (names.any (Text.listed c.chosen.events))
  | .userVariable =>
    match q.qualifier.bind c.vars.get? with
    | some value => some (names.any (Text.listed [Text.trim value]))
    | none => none
  | .outputZone | .controlBlock | .oneDimDomain | .global => some true

/-- What a run says to a header. -/
def Header.answer? (c : Context) (h : Header) : Option Bool := h.question.answer? c h.nameList

/-- What a run says to the header of a further branch. `Else` takes what is left. -/
def BranchLine.answer? (c : Context) (b : BranchLine) : Option Bool :=
  match b.header? with
  | some h => h.answer? c
  | none => some true

mutual

/-- The numbers of the lines of content that a run reaches, of an outline whose first line has the
number `n`. -/
def Outline.reached (c : Context) (n : Nat) : Outline → List Nat
  | .nil => []
  | .line _ rest => n :: rest.reached c (n + 1)
  | .block head first more _ rest =>
    let answer := head.header.answer? c
    let next := n + 1 + first.size
    (if answer = some true then first.reached c (n + 1) else []) ++
      (more.reached c (decide (answer = some false)) next ++
        rest.reached c (next + more.size + 1))

/-- The numbers of the lines that a run reaches in the further branches of a block; the run is still
`waiting` for the first branch that it takes. -/
def Branches.reached (c : Context) (waiting : Bool) (n : Nat) : Branches → List Nat
  | .nil => []
  | .branch head body more =>
    let answer := head.answer? c
    (if waiting = true ∧ answer = some true then body.reached c (n + 1) else []) ++
      more.reached c (waiting && decide (answer = some false)) (n + 1 + body.size)

end

/-! ## Questions and scopes -/

namespace Question

theorem answer?_append (c : Context) {q : Question} (hq : q.kind.canBranch = true)
    (a b : List Text) : q.answer? c (a ++ b) = some false ↔
      q.answer? c a = some false ∧ q.answer? c b = some false := by
  obtain ⟨kind, qualifier⟩ := q
  cases kind with
  | scenario => simp [answer?, List.any_append]
  | event => simp [answer?, List.any_append]
  | userVariable =>
    cases hv : qualifier.bind c.vars.get? <;> simp [answer?, hv, List.any_append]
  | _ => simp [ScopeKind.canBranch] at hq

/-- Qualifiers in another case ask the same question. -/
theorem answer?_congr (c : Context) {q q' : Question} (hk : q.kind = q'.kind)
    (hq : Text.alike? q.qualifier q'.qualifier = true) (names : List Text) :
    q.answer? c names = q'.answer? c names := by
  have hget : q.qualifier.bind c.vars.get? = q'.qualifier.bind c.vars.get? := by
    cases h : q.qualifier <;> cases h' : q'.qualifier <;> simp only [h, h', Text.alike?] at hq ⊢
    · exact absurd hq (by decide)
    · exact absurd hq (by decide)
    · exact c.vars.get?_congr hq
  rw [answer?, answer?, hk, hget]

end Question

namespace Context

/-- A scope without token holds if the run gives the answer that its negation asks for. -/
theorem holds_eq (c : Context) {s : Scope} (names : List Text) (htoken : s.token = none)
    (hnames : s.names = Text.addNew [] names)
    (hneg : s.negated = true → s.kind.canBranch = true) :
    c.holds s =
      decide (Question.answer? c ⟨s.kind, s.qualifier⟩ names = some (!s.negated)) := by
  have hany : ∀ chosen : List Text, (Text.addNew [] names).any (Text.listed chosen) =
      names.any (Text.listed chosen) := fun chosen =>
    (Text.any_addNew (fun _ _ h => Text.listed_congr h chosen) [] names).trans (by simp)
  have hbool : ∀ a b : Bool, (a != b) = decide (a = !b) := by decide
  rw [holds, alternatives?, htoken, hnames]
  cases hk : s.kind with
  | global => simpa [Question.answer?, hk, ScopeKind.canBranch] using hneg
  | scenario =>
    simp only [hk, selected?, ScopeKind.isResolvable, Question.answer?, hany, hbool]
    simp
  | event =>
    simp only [hk, selected?, ScopeKind.isResolvable, Question.answer?, hany, hbool]
    simp
  | eventVariable =>
    simp only [hk, selected?, ScopeKind.isResolvable, Question.answer?, hany, hbool]
    simp
  | oneDimDomain =>
    simpa [Question.answer?, hk, ScopeKind.canBranch, ScopeKind.isResolvable] using hneg
  | outputZone =>
    simpa [Question.answer?, hk, ScopeKind.canBranch, ScopeKind.isResolvable] using hneg
  | controlBlock =>
    simpa [Question.answer?, hk, ScopeKind.canBranch, ScopeKind.isResolvable] using hneg
  | userVariable =>
    cases hv : s.qualifier.bind c.vars.get? with
    | none => simp [hk, selected?, ScopeKind.isResolvable, Question.answer?, hv]
    | some value =>
      simp only [hk, selected?, ScopeKind.isResolvable, Question.answer?, hv, hany, hbool,
        Option.map_some]
      simp

/-- One more level is one more condition. -/
theorem isActive_push (c : Context) (path : List Level) (lv : Level) :
    c.isActive (Level.scopeList (path ++ [lv])) =
      (c.isActive (Level.scopeList path) && lv.scopes.all c.holds) := by
  simp [isActive, Level.scopeList, List.all_append, Bool.and_assoc]

end Context

namespace Level

theorem all_holds_opening (c : Context) {h : Header} (source : BlockSource)
    (hplain : PlainNames h.nameList) :
    (opening h source).scopes.all c.holds = decide (h.answer? c = some true) := by
  rw [opening]
  cases hk : h.kind.isAnonymous with
  | true =>
    have hkind : h.kind = .global ∨ h.kind = .oneDimDomain := by
      cases hh : h.kind <;> simp_all [ScopeKind.isAnonymous]
    rcases hkind with hkind | hkind <;>
      simp [scopes, Scope.withSource, Scope.ofNames, Context.holds, Header.answer?,
        Header.question, Question.answer?, hkind, ScopeKind.isResolvable]
  | false =>
    simp only [Bool.false_eq_true, if_false, scopes, Option.toList_none, List.nil_append,
      List.all_cons, List.all_nil, Bool.and_true]
    have hscope := Scope.ofText_of_plain h.kind hplain
    refine (c.holds_eq h.nameList ?_ ?_ ?_).trans ?_
    · simp [Scope.withSource, Scope.withQualifier, hscope, Scope.ofNames]
    · simp [Scope.withSource, Scope.withQualifier, hscope, Scope.ofNames, Header.nameList]
    · simp [Scope.withSource, Scope.withQualifier, hscope, Scope.ofNames]
    · rw [hscope]
      rfl

/-- The negation in front of a later branch asks that none of the names used before is chosen. -/
theorem holds_negationOf (c : Context) (q : Question) {seen : List Text} (fromElse : Bool)
    (source : BlockSource) (hbranch : q.kind.canBranch = true)
    (hnames : ∀ name ∈ seen, Text.IsName name) (hplain : PlainNames seen) :
    c.holds ((Scope.negationOf q.kind seen fromElse q.qualifier).withSource source) =
      decide (q.answer? c seen = some false) := by
  rw [Scope.negationOf_of_plain q.kind fromElse q.qualifier hnames hplain]
  exact c.holds_eq seen rfl rfl fun _ => hbranch

theorem all_holds_later (c : Context) {q : Question} {seen : List Text} (source : BlockSource)
    {b : BranchLine} (hadmits : q.Admits seen b) (hnames : ∀ name ∈ seen, Text.IsName name)
    (hplain : PlainNames seen) (hhead : PlainNames b.nameList) :
    (later q seen source b.header?).scopes.all c.holds =
      (decide (q.answer? c seen = some false) && decide (b.answer? c = some true)) := by
  obtain ⟨hbranch, hadmits⟩ := hadmits
  cases hb : b.header? with
  | none =>
    simp only [later, scopes, BranchLine.answer?, hb, Option.toList_none, List.nil_append,
      List.all_cons, List.all_nil, Bool.and_true, decide_true]
    exact holds_negationOf c q true source hbranch hnames hplain
  | some h =>
    obtain ⟨hkind, halike, -⟩ := hadmits h (by simp [hb])
    have hplain' : PlainNames h.nameList := by simpa [BranchLine.nameList, hb] using hhead
    have hguard := holds_negationOf c h.question false source
      (by simpa [Header.question, hkind] using hbranch) hnames hplain
    have hanon : h.kind.isAnonymous = false :=
      ScopeKind.isAnonymous_of_canBranch (by rw [hkind, hbranch])
    have hleaf := all_holds_opening c source hplain'
    rw [opening, hanon] at hleaf
    simp only [Bool.false_eq_true, if_false, scopes, Option.toList_none, List.nil_append,
      List.all_cons, List.all_nil, Bool.and_true] at hleaf
    simp only [later, scopes, BranchLine.answer?, hb, Option.toList_some, List.cons_append,
      List.nil_append, List.all_cons, List.all_nil, Bool.and_true, hleaf]
    rw [Question.answer?_congr c (show q.kind = h.question.kind from hkind.symm) halike seen]
    exact congrArg (· && _) hguard

end Level

/-! ## Runs of whole texts -/

/-- The run still waits for a branch behind an `Else If` if it did before it and says no to it. -/
theorem Question.Admits.waiting {q : Question} {seen : List Text} {b : BranchLine}
    (hadmits : q.Admits seen b) (hsome : b.header?.isNone = false) (c : Context) :
    decide (q.answer? c (seen ++ b.nameList) = some false) =
      (decide (q.answer? c seen = some false) && decide (b.answer? c = some false)) := by
  obtain ⟨h, hh⟩ := Option.isSome_iff_exists.mp (by simpa using hsome)
  obtain ⟨hkind, halike, -⟩ := hadmits.2 h (by simp [hh])
  have hanswer : q.answer? c h.nameList = h.answer? c :=
    Question.answer?_congr c (show q.kind = h.question.kind from hkind.symm) halike h.nameList
  rw [← Bool.decide_and]
  simp only [BranchLine.nameList, BranchLine.answer?, hh, Option.map_some, Option.getD_some,
    Question.answer?_append c hadmits.1, hanswer]

namespace Context

/-- The entry is a line of content, and its scopes hold in the run. -/
def reaches (c : Context) (e : Entry) : Bool := e.line?.isSome && c.isActive e.scope

theorem filter_reaches_placeholder (c : Context) (n : Nat) (path : List Level) (t : Outline) :
    (t.placeholder n path).filter c.reaches = [] := by
  rw [Outline.placeholder]
  split <;> rfl

end Context

mutual

/-- The lines of content whose scopes hold are those that the run reaches, if it reaches the
outline at all. -/
theorem Outline.map_filter_reaches (c : Context) (closes : Closes) : ∀ (t : Outline) (n : Nat)
    (path : List Level), t.Valid → (∀ l ∈ t.lines, l.PlainHeader) →
      ((t.entries closes n path).filter c.reaches).map Entry.number =
        if c.isActive (Level.scopeList path) then t.reached c n else []
  | .nil, _, _, _, _ => by simp [Outline.entries, Outline.reached]
  | .line l rest, n, path, hv, hplain => by
    have hrest := Outline.map_filter_reaches c closes rest (n + 1) path hv
      fun l hl => hplain l (List.mem_cons_of_mem _ hl)
    rw [Outline.entries, Outline.reached, List.filter_cons]
    cases hactive : c.isActive (Level.scopeList path) <;>
      simp [Context.reaches, Entry.scope, hactive, hrest]
  | .block head first more close rest, n, path, hv, hplain => by
    obtain ⟨-, hfirst, hmore, hrest⟩ := hv
    simp only [Outline.lines, List.mem_cons, List.mem_append] at hplain
    have hnames := head.plainNames (hplain _ (.inl rfl))
    have hfirst := Outline.map_filter_reaches c closes first (n + 1)
      (path ++ [.opening head.header (closes.source n n head.line.text)]) hfirst
      fun l hl => hplain l (.inr (.inl hl))
    have hmore := Branches.map_filter_reaches c closes more n head.header.question
      head.header.nameList false (decide (head.header.answer? c = some false))
      (n + 1 + first.size) path hmore
      (fun _ => Text.isName_of_mem_alternatives) hnames (fun _ => rfl)
      fun l hl => hplain l (.inr (.inr (.inl hl)))
    have hrest := Outline.map_filter_reaches c closes rest (n + 1 + first.size + more.size + 1)
      path hrest fun l hl => hplain l (.inr (.inr (.inr (.inr hl))))
    rw [c.isActive_push, Level.all_holds_opening c _ hnames] at hfirst
    simp only [Outline.entries, Outline.reached, List.filter_append, List.map_append, hfirst,
      c.filter_reaches_placeholder, hmore, hrest]
    cases c.isActive (Level.scopeList path) <;> simp

/-- The same for the further branches of a block: a run that reaches the block and has said no to
all names before still waits for a branch. -/
theorem Branches.map_filter_reaches (c : Context) (closes : Closes) : ∀ (t : Branches)
    (block : Nat) (q : Question) (seen : List Text) (hasElse waiting : Bool) (n : Nat)
    (path : List Level), t.Valid q seen hasElse → (∀ name ∈ seen, Text.IsName name) →
      PlainNames seen → (hasElse = false → waiting = decide (q.answer? c seen = some false)) →
      (∀ l ∈ t.lines, l.PlainHeader) →
      ((t.entries closes block q seen n path).filter c.reaches).map Entry.number =
        if c.isActive (Level.scopeList path) then t.reached c waiting n else []
  | .nil, _, _, _, _, _, _, _, _, _, _, _, _ => by simp [Branches.entries, Branches.reached]
  | .branch head body more, block, q, seen, hasElse, waiting, n, path, hv, hname, hseen, hwaiting,
      hplain => by
    obtain ⟨helse, hadmits, hbody, hmore⟩ := hv
    simp only [Branches.lines, List.mem_cons, List.mem_append] at hplain
    have hnames := head.plainNames (hplain _ (.inl rfl))
    have hbody := Outline.map_filter_reaches c closes body (n + 1)
      (path ++ [.later q seen (closes.source block n head.line.text) head.header?]) hbody
      fun l hl => hplain l (.inr (.inl hl))
    have hmore := Branches.map_filter_reaches c closes more block q (seen ++ head.nameList) _
      (waiting && decide (head.answer? c = some false)) (n + 1 + body.size) path hmore
      (fun name h => (List.mem_append.mp h).elim (hname name) (head.isName_of_mem name))
      (hseen.append hnames) (fun h => by rw [hadmits.waiting h c, hwaiting helse])
      fun l hl => hplain l (.inr (.inr hl))
    rw [c.isActive_push, Level.all_holds_later c _ hadmits hname hseen hnames,
      ← hwaiting helse] at hbody
    simp only [Branches.entries, Branches.reached, List.filter_append, List.map_append, hbody,
      c.filter_reaches_placeholder, hmore]
    cases c.isActive (Level.scopeList path) <;> simp

end

/-- A statement that is no header is in force in a run exactly when the run reaches its line. -/
theorem isActive_iff_mem_reached {path : Path} {text : Text} {f : ControlFile}
    (hf : ControlFile.ofText path text = .ok f)
    (hplain : ∀ l ∈ (ReadOptions.ofPath Line.commentMarks path).linesOf text, l.PlainHeader) :
    ∃ t : Outline,
      (t.Valid ∧ t.lines = (ReadOptions.ofPath Line.commentMarks path).linesOf text ∧
        ∀ t' : Outline, t'.lines = t.lines → t' = t) ∧
      (f.statements.filter fun s => s.kind ≠ .placeholder).map (fun s => (s.raw, s.line)) =
        (contents 1 t.lines).map (fun p => (p.1.text, p.2)) ∧
      ∀ (c : Context), ∀ s ∈ f.statements, s.kind ≠ .placeholder →
        (c.isActive s.scope = true ↔ s.line ∈ t.reached c 1) := by
  obtain ⟨t, hv, hlines, hgives⟩ :=
    exists_outline_of_readStatements (ControlFile.readStatements_of_ofText hf)
  refine ⟨t, ⟨hv, hlines, fun t' ht' => Outline.lines_injective ht'⟩, ?_, fun c s hs hkind => ?_⟩
  · rw [map_line_of_gives hgives, Outline.allEntries, Outline.filterMap_content_entries]
  · have hreached : (t.allEntries.filter c.reaches).map Entry.number = t.reached c 1 :=
      t.map_filter_reaches c (.ofList (t.closes 1)) 1 [] hv (hlines ▸ hplain)
    obtain ⟨e, he, hgives⟩ := exists_gives_of_mem hgives hs
    have hl : e.line?.isSome = true := by
      simpa [hgives.placeholder_iff, Option.isSome_iff_ne_none] using hkind
    rw [hgives.scope_eq, hgives.line_eq, ← hreached]
    constructor
    · intro hactive
      refine List.mem_map_of_mem (List.mem_filter.mpr ⟨he, ?_⟩)
      simp [Context.reaches, hl, hactive]
    · intro hmem
      obtain ⟨e', he', hnumber⟩ := List.mem_map.mp hmem
      obtain ⟨he', hreaches⟩ := List.mem_filter.mp he'
      obtain ⟨-, hactive⟩ := Bool.and_eq_true_iff.mp hreaches
      exact Outline.eq_of_number_eq he' he hnumber ▸ hactive

/-- A block inside the second branch of another one. -/
theorem isActive_iff_mem_reached_nested :
    let path : Path := ⟨"/m/m.tcf"⟩
    let text := Text.unlines ["If Scenario == A | B", "x", "Else If Scenario == C",
      "If Variable Q == 1", "y", "Else", "z", "End If", "End If"]
    ∃ f : ControlFile, ControlFile.ofText path text = .ok f ∧ ∃ t : Outline,
      t.lines = (ReadOptions.ofPath Line.commentMarks path).linesOf text ∧
      ∀ (c : Context), ∀ s ∈ f.statements, s.kind ≠ .placeholder →
        (c.isActive s.scope = true ↔ s.line ∈ t.reached c 1) := by
  intro path text
  have hok : (ControlFile.ofText path text).isOk = true := by decide +kernel
  obtain ⟨f, hf⟩ := Except.exists_of_isOk hok
  obtain ⟨t, ⟨-, hlines, -⟩, -, hiff⟩ := isActive_iff_mem_reached hf (by decide +kernel)
  exact ⟨f, hf, t, hlines, hiff⟩

end ControlFiles
