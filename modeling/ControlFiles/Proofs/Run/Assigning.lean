import ControlFiles.Proofs.Run.Confinement
import ControlFiles.Proofs.Run.Reading
import ControlFiles.Proofs.Text.Tokens

/-!
# What the assignments of a file come to

The assignments of a file are gone through twice: first they set the variables, each where it is met
(`Resolve.assignments`), and then they are shown in the run like any other statement, with all
variables set. So what stands for a variable is the value of the last assignment in force where it
is met, which need not be what the run shows (`not_assignmentsAgree`). It is, if the assignments of
the variable name nothing that is set again behind them (`Resolve.Steady`, `resolve_assignments`).
-/

namespace ControlFiles

open Variables (nameKey pairsFor lastValue?)

/-- The name and the value of a variable assignment in a run. -/
def RunStatement.assignment? (r : RunStatement) : Option (Text × Text) :=
  Line.assignment? (some r.command) r.value

/-- The assignments that a run shows, in order. -/
def RunStatement.assignments (run : List RunStatement) : List (Text × Text) :=
  run.filterMap RunStatement.assignment?

theorem Line.exists_command_of_assignment? {command value : Option Text} {p : Text × Text}
    (h : assignment? command value = some p) :
    ∃ text, command = some text ∧ variableName? text = some p.1 := by
  obtain ⟨name, hname, rfl⟩ := Option.map_eq_some_iff.mp h
  exact Option.bind_eq_some_iff.mp hname

namespace Context

theorem setVariables_append (c : Context) (a b : List (Text × Text)) :
    (c.setVariables a).setVariables b = c.setVariables (a ++ b) := by
  rw [setVariables, setVariables, setVariables, Variables.setAll_append]

/-- What stands for a token in the run. -/
def replacement (c : Context) (token : Token) : Text := c.substitutions.expandPiece (.token token)

theorem replacement_eq (c : Context) (token : Token) :
    c.replacement token = (((lastValue? c.chosenPairs token.name).or
      (c.vars.get? token.name)).map Text.trim).getD token.text := by
  rw [replacement, Variables.expandPiece, get?_substitutions]
  cases (lastValue? c.chosenPairs token.name).or (c.vars.get? token.name) <;> rfl

theorem substitute_nil (c : Context) : c.substitute [] = [] := by
  have hevents : c.replaceEvents [] = [] := by
    rw [replaceEvents]
    induction c.eventValues with
    | nil => rfl
    | cons p rest ih =>
      have hnone : Text.replaceAlike p.1 p.2 [] = [] := by
        rw [Text.replaceAlike]
        split <;> rfl
      rw [List.foldl_cons]
      exact (congrArg (rest.foldl _) hnone).trans ih
  rw [substitute, hevents]
  rfl

end Context

namespace Resolve

variable {files : Files Id} {base : Path} {c met : Context} {s : Statement} {name : Text}

/-! ## Setting the variables -/

/-- What a statement sets where it is met. -/
def assigned? (c : Context) (s : Statement) : Option (Text × Text) :=
  if c.isActive s.scope then s.assignment?.map fun p => (p.1, c.substitute p.2) else none

/-- What some statements set, each with the variables as they are where it is met. -/
def assignments (c : Context) : List Statement → List (Text × Text)
  | [] => []
  | s :: rest =>
    (assigned? c s).toList ++ assignments (c.setVariables (assigned? c s).toList) rest

theorem setStatement_eq (hkind : s.kind ≠ .controlFileReference .trd)
    (children : List (Text × Setter Id)) :
    setStatement files base s children c = c.setVariables (assigned? c s).toList := by
  rw [setStatement, assigned?]
  cases c.isActive s.scope with
  | false => rfl
  | true => cases s.assignment? <;> simp [hkind] <;> rfl

/-- Without `.trd` files, the variables are set by the statements of the file. -/
theorem setStatements_eq {statements : List Statement}
    (hkind : ∀ s ∈ statements, s.kind ≠ .controlFileReference .trd) (base : Path) (c : Context) :
    setStatements files statements base c = c.setVariables (assignments c statements) := by
  induction statements generalizing c with
  | nil => rfl
  | cons s rest ih =>
    rw [setStatements_cons, setStatement_eq (hkind s List.mem_cons_self),
      ih fun t ht => hkind t (List.mem_cons_of_mem _ ht), Context.setVariables_append, assignments]

theorem assignments_append (c : Context) (a b : List Statement) :
    assignments c (a ++ b) =
      assignments c a ++ assignments (c.setVariables (assignments c a)) b := by
  induction a generalizing c with
  | nil => rfl
  | cons s a ih =>
    rw [List.cons_append, assignments, ih, assignments, Context.setVariables_append,
      List.append_assoc]

/-- Only statements that are assignments set variables. -/
theorem exists_of_mem_assignments {statements : List Statement} {p : Text × Text}
    (h : p ∈ assignments c statements) :
    ∃ s ∈ statements, ∃ value, s.assignment? = some (p.1, value) := by
  induction statements generalizing c with
  | nil => cases h
  | cons s rest ih =>
    rcases List.mem_append.mp h with h | h
    · rw [Option.mem_toList, assigned?] at h
      split at h
      · obtain ⟨q, hq, rfl⟩ := Option.map_eq_some_iff.mp h
        exact ⟨s, List.mem_cons_self, q.2, hq⟩
      · cases h
    · obtain ⟨t, ht, hassigns⟩ := ih h
      exact ⟨t, List.mem_cons_of_mem _ ht, hassigns⟩

/-! ## Writing the assignments -/

theorem Becomes.command_eq {r : RunStatement} (h : Becomes files base c s r) :
    r.command = c.substitute (s.command.getD []) := by
  have hcommand := h.command
  rw [Resolve.command] at hcommand
  split at hcommand
  · exact (Except.ok.inj hcommand).symm
  · cases hcommand

/-- Without tokens left, the value of a statement in a run is what the text means. -/
theorem value_eq_of_plain (hplain : Text.hasTokens (c.substitute (s.value.getD [])) = false)
    {value : Option Text} {paths : List Path}
    (h : Resolve.value files base c s = .ok (value, paths)) :
    value = s.value.map c.substitute := by
  cases value_eq_ok_iff.mp h with
  | absent hraw => rw [hraw, Option.map_none]
  | known hraw _ => rw [hraw, Option.map_some]
  | searched hraw hleft =>
    rw [hraw, Option.getD_some, hleft] at hplain
    cases hplain

/-- A statement in force that says something becomes one statement. -/
theorem exists_becomes {children : List (Text × Runner Id)} {here : List RunStatement}
    {found : List Finding} (hcontent : s.isContent = true) (hactive : c.isActive s.scope = true)
    (h : runStatement files base s children c = .ok (here, found)) :
    ∃ r, here = [r] ∧ Becomes files base c s r := by
  obtain ⟨r, rfl, hr⟩ := exists_runActive hcontent hactive h
  exact ⟨r, rfl, (runActive_ok hr).1⟩

/-- The statements of a run come from statements in force. -/
theorem exists_becomes_of_mem {statements : List Statement} {run : List RunStatement}
    {findings : List Finding} (h : runStatements files statements base c = .ok (run, findings))
    {r : RunStatement} (hr : r ∈ run) :
    ∃ s ∈ statements, c.isActive s.scope = true ∧ Becomes files base c s r := by
  induction statements generalizing run findings with
  | nil =>
    obtain ⟨rfl, -⟩ := Prod.mk.inj (Except.ok.inj h)
    cases hr
  | cons s rest ih =>
    obtain ⟨here, found, others, more, hhere, hothers, rfl⟩ := runStatements_cons_ok h
    rcases List.mem_append.mp hr with hr | hr
    · obtain ⟨hactive, noted, hrun, -⟩ := runStatement_ok hhere r hr
      exact ⟨s, List.mem_cons_self, hactive, (runActive_ok hrun).1⟩
    · obtain ⟨t, ht, hbecomes⟩ := ih hothers hr
      exact ⟨t, List.mem_cons_of_mem _ ht, hbecomes⟩

/-! ## Where the two passes agree -/

/-- The statement assigns the variable, as it is written or as it is in the run. -/
def sets (c : Context) (s : Statement) (name : Text) : Bool :=
  [s.command.getD [], c.substitute (s.command.getD [])].any fun command =>
    (Line.variableName? command).any fun other => nameKey other = nameKey name

/-- The assignment comes to the same where it is met and with all variables set: its command sets
the variable that it is written for, its value is shown as substitution leaves it, and the variables
that its value and its scopes name have the same values. -/
structure Steady (files : Files Id) (base : Path) (c met : Context) (s : Statement) : Prop where
  content : s.isContent = true
  command : Line.variableName? (c.substitute (s.command.getD [])) =
    Line.variableName? (s.command.getD [])
  shown : ∀ value paths, Resolve.value files base c s = .ok (value, paths) →
    value = s.value.map c.substitute
  names : ∀ name ∈ c.namesIn (s.value.getD []) ++ c.namesOfScopes s.scope,
    c.vars.get? name = met.vars.get? name

theorem Steady.assigned?_eq (h : Steady files base c met s) (hchosen : c.chosen = met.chosen)
    (hevents : c.eventValues = met.eventValues) (hactive : met.isActive s.scope = true)
    {r : RunStatement} (hr : Becomes files base c s r) : assigned? met s = r.assignment? := by
  have hvalue : met.substitute (s.value.getD []) = r.value.getD [] := by
    have hagrees : c.AgreesOn met (c.namesIn (s.value.getD [])) :=
      ⟨hchosen, hevents, fun name hname => h.names name (List.mem_append_left _ hname)⟩
    rw [← Context.substitute_congr hagrees, h.shown _ _ hr.value]
    cases s.value with
    | none => exact c.substitute_nil
    | some raw => rfl
  have hname : Line.variableName? r.command = s.command.bind Line.variableName? := by
    rw [hr.command_eq, h.command]
    cases s.command <;> rfl
  rw [assigned?, if_pos hactive, RunStatement.assignment?, Statement.assignment?, Line.assignment?,
    Line.assignment?, Option.bind_some, hname, Option.map_map, ← hvalue]
  rfl

theorem ne_of_not_sets (hsets : sets c s name = false) {command : Text}
    (hcommand : command = s.command.getD [] ∨ command = c.substitute (s.command.getD []))
    {other : Text} (h : Line.variableName? command = some other) :
    nameKey other ≠ nameKey name := by
  intro heq
  refine absurd ?_ (Bool.eq_false_iff.mp hsets)
  refine List.any_eq_true.mpr ⟨command, by simpa using hcommand, ?_⟩
  rw [h, Option.any_some, decide_eq_true heq]

theorem pairsFor_eq_nil {pairs : List (Text × Text)}
    (h : ∀ p ∈ pairs, nameKey p.1 ≠ nameKey name) : pairsFor pairs name = [] :=
  List.filter_eq_nil_iff.mpr fun p hp => by simpa using h p hp

/-- What an assignment sets is what is shown of it in the run. -/
theorem pairsFor_assigned? (hchosen : c.chosen = met.chosen)
    (hevents : c.eventValues = met.eventValues)
    (hsteady : sets c s name = true → c.isActive s.scope = true ∨ met.isActive s.scope = true →
      Steady files base c met s)
    {children : List (Text × Runner Id)} {here : List RunStatement} {found : List Finding}
    (h : runStatement files base s children c = .ok (here, found)) :
    pairsFor (assigned? met s).toList name = pairsFor (RunStatement.assignments here) name := by
  cases hsets : sets c s name with
  | true =>
    by_cases hforce : c.isActive s.scope = true ∨ met.isActive s.scope = true
    · have hs := hsteady hsets hforce
      have hactive : c.isActive s.scope = met.isActive s.scope :=
        Context.isActive_congr ⟨hchosen, hevents, fun name hname =>
          hs.names name (List.mem_append_right _ hname)⟩
      rw [hactive, or_self] at hforce
      obtain ⟨r, rfl, hr⟩ := exists_becomes hs.content (hactive.trans hforce) h
      rw [hs.assigned?_eq hchosen hevents hforce hr]
      cases hr' : r.assignment? <;> simp [RunStatement.assignments, hr']
    · simp only [not_or, Bool.not_eq_true] at hforce
      rw [runStatement_inactive hforce.1] at h
      obtain ⟨-, -, heq⟩ := Except.map_eq_ok.mp h
      obtain ⟨rfl, -⟩ := Prod.mk.inj heq
      rw [assigned?, if_neg (by simp [hforce.2])]
      rfl
  | false =>
    rw [pairsFor_eq_nil fun p hp => ?_, pairsFor_eq_nil fun p hp => ?_]
    · obtain ⟨r, hr, hp⟩ := List.mem_filterMap.mp hp
      obtain ⟨command, hcommand, hname⟩ := Line.exists_command_of_assignment? hp
      obtain ⟨-, noted, hrun, -⟩ := runStatement_ok h r hr
      obtain rfl := Option.some.inj hcommand
      exact ne_of_not_sets hsets (.inr (runActive_ok hrun).1.command_eq) hname
    · rw [Option.mem_toList, assigned?] at hp
      split at hp
      · obtain ⟨q, hq, rfl⟩ := Option.map_eq_some_iff.mp hp
        obtain ⟨command, hcommand, hname⟩ := Line.exists_command_of_assignment? hq
        exact ne_of_not_sets hsets (.inl (by rw [hcommand, Option.getD_some])) hname
      · cases hp

/-- The run shows the values that the assignments set. -/
theorem pairsFor_assignments (hchosen : c.chosen = met.chosen)
    (hevents : c.eventValues = met.eventValues) {statements : List Statement}
    (hsteady : ∀ (i : Nat) (s : Statement), statements[i]? = some s → sets c s name = true →
      let met := met.setVariables (assignments met (statements.take i))
      c.isActive s.scope = true ∨ met.isActive s.scope = true →
        Steady files base c met s)
    {run : List RunStatement} {findings : List Finding}
    (h : runStatements files statements base c = .ok (run, findings)) :
    pairsFor (assignments met statements) name =
      pairsFor (RunStatement.assignments run) name := by
  induction statements generalizing met run findings with
  | nil =>
    obtain ⟨rfl, -⟩ := Prod.mk.inj (Except.ok.inj h)
    rfl
  | cons s rest ih =>
    obtain ⟨here, found, others, more, hhere, hothers, rfl⟩ := runStatements_cons_ok h
    have hfirst := pairsFor_assigned? hchosen hevents (hsteady 0 s rfl) hhere
    have hchosen' : c.chosen = (met.setVariables (assigned? met s).toList).chosen := hchosen
    have hrest : pairsFor (assignments (met.setVariables (assigned? met s).toList) rest) name =
        pairsFor (RunStatement.assignments others) name := by
      refine ih hchosen' hevents (fun i t ht hsets => ?_) hothers
      have ht' := hsteady (i + 1) t ht hsets
      rw [List.take_succ_cons, assignments, ← Context.setVariables_append] at ht'
      exact ht'
    simp only [pairsFor, assignments, RunStatement.assignments, List.filter_append,
      List.filterMap_append] at hfirst hrest ⊢
    rw [hfirst, hrest]

end Resolve

/-! ## The files of a run -/

/-- The file is that of the run, or a statement of the run or of a file below refers to it. -/
inductive RunFile.Has (f : RunFile) : RunFile → Prop where
  | here : f.Has f
  | inside {g x : RunFile} {r : RunStatement} (hg : f.Has g) (hr : r ∈ g.statements)
      (hx : .file x ∈ r.children) : f.Has x

namespace Resolve

variable {files : Files Id}

/-- The run of a tree from a context gets to the file, which starts with the context `start`: the
root with the first one, and a file that a statement refers to with what the variables of the file
above leave. -/
inductive Enters (files : Files Id) (t : ControlFile) (c : Context) :
    Context → ControlFile → Prop where
  | root : Enters files t c c t
  | child {start : Context} {f g : ControlFile} {s : Statement} {value : Option Text}
      {paths : List Path} {path : Path} {d : Child} (henters : Enters files t c start f)
      (hs : s ∈ f.statements) (hkind : s.kind.hasChild = true)
      (hactive : (setFile files f start).isActive s.scope = true)
      (hvalue : Resolve.value files f.path.directory (setFile files f start) s =
        .ok (value, paths))
      (hpath : path ∈ paths) (hd : childAt? s.children path = some d) (hg : d.content = .file g) :
      Enters files t c (setFile files f start) g

/-- A file that the run gets to has its own run in it. -/
theorem Enters.exists_run {t f : ControlFile} {c start : Context} (h : Enters files t c start f)
    {res : Resolution} (hres : runFile files t c = .ok res) :
    ∃ x, runFile files f start = .ok x ∧ res.run.Has x.run := by
  induction h with
  | root => exact ⟨res, hres, .here⟩
  | @child start f g s value paths path d henters hs hkind hactive hvalue hpath hd hg ih =>
    obtain ⟨x, hx, hhas⟩ := ih
    rw [runFile_eq] at hx
    obtain ⟨⟨run, findings⟩, hrun, rfl⟩ := Except.map_eq_ok.mp hx
    obtain ⟨here, found, hhere, hsub, -⟩ := exists_runStatement hrun hs
    obtain ⟨r, rfl, hbecomes, hfiles⟩ := exists_runFiles hkind hactive hhere
    obtain ⟨-, rfl⟩ := Prod.mk.inj (Except.ok.inj (hbecomes.value.symm.trans hvalue))
    obtain ⟨child, noted, hchild, hchildren, -⟩ := exists_runFiles_singleton hfiles hpath
    obtain ⟨y, hy, heq⟩ := Except.map_eq_ok.mp ((runFiles_singleton_file hd hg).symm.trans hchild)
    obtain ⟨rfl, -⟩ := Prod.mk.inj heq
    exact ⟨y, hy, hhas.inside (hsub List.mem_cons_self) (hchildren List.mem_cons_self)⟩

/-- The context in which the variables are set where the statement at a place is met. -/
def meets (files : Files Id) (f : ControlFile) (start : Context) (i : Nat) : Context :=
  setStatements files (f.statements.take i) f.path.directory start

/-- All assignments of the variable that are in force where they are met, or with all variables set,
come to the same there. -/
def SteadyIn (files : Files Id) (f : ControlFile) (start c : Context) (name : Text) : Prop :=
  ∀ (i : Nat) (s : Statement), f.statements[i]? = some s → sets c s name = true →
    c.isActive s.scope = true ∨ (meets files f start i).isActive s.scope = true →
      Steady files f.path.directory c (meets files f start i) s

section
variable {f : ControlFile} {start c : Context}
  (hkind : ∀ s ∈ f.statements, s.kind ≠ .controlFileReference .trd)
include hkind

theorem meets_eq (start : Context) (i : Nat) :
    meets files f start i = start.setVariables (assignments start (f.statements.take i)) :=
  setStatements_eq (fun s hs => hkind s (List.mem_of_mem_take hs)) _ start

theorem setFile_eq_setVariables (start : Context) :
    setFile files f start = start.setVariables (assignments start f.statements) := by
  rw [setFile_eq, setStatements_eq hkind]

/-- What stands for a token in the file. -/
theorem replacement_setFile (start : Context) (token : Token) :
    (setFile files f start).replacement token =
      (((lastValue? start.chosenPairs token.name).or
        ((lastValue? (assignments start f.statements) token.name).or
          (start.vars.get? token.name))).map Text.trim).getD token.text := by
  have hvalue : (setFile files f start).vars.get? token.name =
      (lastValue? (assignments start f.statements) token.name).or (start.vars.get? token.name) := by
    rw [setFile_eq_setVariables hkind]
    exact Variables.get?_setAll _ _ _
  rw [Context.replacement_eq, hvalue, Context.chosenPairs, setFile_chosen, ← Context.chosenPairs]

/-- The run of the file shows what the assignments of a steady variable set. -/
theorem SteadyIn.pairsFor_eq {name : Text} (h : SteadyIn files f start (setFile files f start) name)
    {run : List RunStatement} {findings : List Finding}
    (hrun : runStatements files f.statements f.path.directory (setFile files f start) =
      .ok (run, findings)) :
    pairsFor (assignments start f.statements) name =
      pairsFor (RunStatement.assignments run) name := by
  have hevents : (setFile files f start).eventValues = start.eventValues := by
    rw [setFile_eq_setVariables hkind]
    rfl
  refine pairsFor_assignments (setFile_chosen f start) hevents (fun i s hs hsets => ?_) hrun
  rw [← meets_eq hkind]
  exact h i s hs hsets

/-- A variable that no statement from a place on assigns has its last value there already. -/
theorem get?_meets {i : Nat} {name : Text}
    (h : ∀ s ∈ f.statements.drop i, ∀ p, s.assignment? = some p → nameKey p.1 ≠ nameKey name) :
    (setFile files f start).vars.get? name = (meets files f start i).vars.get? name := by
  have hsplit : assignments start f.statements =
      assignments start (f.statements.take i) ++
        assignments (meets files f start i) (f.statements.drop i) := by
    rw [meets_eq hkind, ← assignments_append, List.take_append_drop]
  have hnone :
      lastValue? (assignments (meets files f start i) (f.statements.drop i)) name = none := by
    rw [lastValue?, pairsFor_eq_nil]
    · rfl
    · intro p hp
      obtain ⟨s, hs, value, hassigns⟩ := exists_of_mem_assignments hp
      exact h s hs (p.1, value) hassigns
  rw [setFile_eq_setVariables hkind, hsplit, ← Context.setVariables_append, ← meets_eq hkind]
  exact (Variables.get?_setAll _ _ _).trans (by rw [hnone]; rfl)

end

end Resolve

open Resolve in
/-- Of a file that a run gets to, and that refers to no `.trd` file itself, each statement of the
run is what a statement in force becomes with all variables set. What stands for a token there is
the chosen name that fills it, or else the value of the last assignment in force where it is met,
with the variables as they are there, or else the value from above, or the token itself.

If all assignments of a variable that are in force come to the same where they are met and with all
variables set, then the run shows just those that set it, and the value of the last one that it
shows is what stands for the tokens of the variable. A variable that no statement from a place on
assigns has the same value there and with all variables set. -/
theorem resolve_assignments {files : Files Id} {t : ControlFile} {c : Context} {res : Resolution}
    (hres : t.resolve files c = .ok res) {start : Context} {f : ControlFile}
    (henters : Enters files t (rootContext t c) start f)
    (hkind : ∀ s ∈ f.statements, s.kind ≠ .controlFileReference .trd) :
    let cf : Context := setFile files f start
    ∃ x : Resolution, runFile files f start = .ok x ∧ res.run.Has x.run ∧
      (∀ r ∈ x.run.statements, ∃ s ∈ f.statements, cf.isActive s.scope = true ∧
        Becomes files f.path.directory cf s r) ∧
      (∀ token : Token, cf.replacement token =
        (((lastValue? cf.chosenPairs token.name).or
          ((lastValue? (assignments start f.statements) token.name).or
            (start.vars.get? token.name))).map Text.trim).getD token.text) ∧
      (∀ name, SteadyIn files f start cf name →
        pairsFor (assignments start f.statements) name =
            pairsFor (RunStatement.assignments x.run.statements) name ∧
          ∀ value ∈ lastValue? (RunStatement.assignments x.run.statements) name,
            lastValue? cf.chosenPairs name = none →
              ∀ token : Token, nameKey token.name = nameKey name →
                cf.replacement token = Text.trim value) ∧
      ∀ (i : Nat) (name : Text),
        (∀ s ∈ f.statements.drop i, ∀ p, s.assignment? = some p → nameKey p.1 ≠ nameKey name) →
          cf.vars.get? name = (meets files f start i).vars.get? name := by
  intro cf
  obtain ⟨x, hx, hhas⟩ := henters.exists_run hres
  have hchosen : cf.chosenPairs = start.chosenPairs := by
    rw [Context.chosenPairs, Context.chosenPairs, setFile_chosen]
  have hmeaning : ∀ token, cf.replacement token = _ := replacement_setFile hkind start
  rw [← hchosen] at hmeaning
  refine ⟨x, hx, hhas, ?_, hmeaning, fun name hsteady => ?_, fun i name hnone =>
    get?_meets hkind hnone⟩
  all_goals
    rw [runFile_eq] at hx
    obtain ⟨⟨run, findings⟩, hrun, rfl⟩ := Except.map_eq_ok.mp hx
  · exact fun r hr => exists_becomes_of_mem hrun hr
  · have hpairs := hsteady.pairsFor_eq hkind hrun
    refine ⟨hpairs, fun value hvalue hfree token htoken => ?_⟩
    have hlast : lastValue? (assignments start f.statements) name = some value := by
      rw [lastValue?, hpairs]
      exact hvalue
    rw [hmeaning, Variables.lastValue?_congr htoken, Variables.lastValue?_congr htoken, hfree,
      hlast]
    rfl

open Resolve in
/-- A variable that is set from another one, which is set in one of two branches. -/
theorem resolve_assignments_branches : ∃ (store : Store) (t : ControlFile) (c : Context)
    (res : Resolution) (value : Text),
    ControlFile.load store.files .standard ⟨"/m/m.tcf"⟩ = .ok t ∧
      t.resolve store.files c = .ok res ∧
      value ∈ lastValue? (RunStatement.assignments res.run.statements) "C" ∧
      Context.replacement (setFile store.files t (rootContext t c)) ⟨"C"⟩ = Text.trim value := by
  let store := Store.ofList [(⟨"/m/m.tcf"⟩, Text.unlines [
    "Set Variable A == 0", "Set Variable A == 1", "If Variable A == 1", "Set Variable B == x<<A>>",
    "Else", "Set Variable B == <<B>>", "End If", "Set Variable C == <<B>>_<<~s1~>>", "Y == <<C>>"])]
  let c := Context.ofChosen ⟨["S"], []⟩
  have hrun : ((ControlFile.load store.files .standard ⟨"/m/m.tcf"⟩).toOption.any fun t =>
      let start := rootContext t c
      let cf : Context := setFile store.files t start
      t.statements.all (fun s => s.kind != .controlFileReference .trd) &&
        (lastValue? cf.chosenPairs "C").isNone &&
        ((List.range t.statements.length).all fun i =>
          t.statements[i]?.all fun s => !sets cf s "C" || s.isContent &&
            Line.variableName? (cf.substitute (s.command.getD [])) ==
              Line.variableName? (s.command.getD []) &&
            !Text.hasTokens (cf.substitute (s.value.getD [])) &&
            (cf.namesIn (s.value.getD []) ++ cf.namesOfScopes s.scope).all fun name =>
              cf.vars.get? name == (meets store.files t start i).vars.get? name) &&
        (t.resolve store.files c).toOption.any fun res =>
          (lastValue? (RunStatement.assignments res.run.statements) "C").isSome) = true := by
    decide +kernel
  obtain ⟨t, ht, hrun⟩ := Except.toOption_any_iff.mp hrun
  simp only [Bool.and_eq_true, List.all_eq_true, bne_iff_ne, Option.isNone_iff_eq_none] at hrun
  obtain ⟨⟨⟨hkind, hfree⟩, hsteady⟩, hrun⟩ := hrun
  obtain ⟨res, hres, hvalue⟩ := Except.toOption_any_iff.mp hrun
  obtain ⟨value, hvalue⟩ := Option.isSome_iff_exists.mp hvalue
  obtain ⟨x, hx, -, -, -, hagree, -⟩ := resolve_assignments hres .root hkind
  obtain rfl : x = res := Except.ok.inj (hx.symm.trans hres)
  have hC : SteadyIn store.files t (rootContext t c) (setFile store.files t (rootContext t c))
      "C" := by
    intro i s hs hsets _
    have hi := hsteady i (List.mem_range.mpr (List.getElem?_eq_some_iff.mp hs).1)
    simp only [hs, Option.all_some, hsets, Bool.not_true, Bool.false_or, Bool.and_eq_true,
      List.all_eq_true, beq_iff_eq, Bool.not_eq_true'] at hi
    obtain ⟨⟨⟨hcontent, hcommand⟩, hplain⟩, hnames⟩ := hi
    exact ⟨hcontent, hcommand, fun _ _ => value_eq_of_plain hplain, hnames⟩
  exact ⟨store, t, c, x, value, ht, hres, hvalue,
    (hagree "C" hC).2 value hvalue hfree ⟨"C"⟩ rfl⟩

namespace ControlFile

/-- All statements stand outside of blocks. -/
def unscoped (t : ControlFile) : Bool := t.statements.all fun s => ScopeList.isGlobal s.scope

/-- No command has a token. -/
def plainCommands (t : ControlFile) : Bool :=
  t.statements.all fun s => !Text.hasTokens (s.command.getD [])

/-- The tokens in the values of assignments are all as given. -/
def assignedTokens (allowed : Token → Bool) (t : ControlFile) : Bool :=
  t.statements.all fun s => s.assignment?.all fun p => (Text.tokens p.2).all allowed

end ControlFile

/-- In every tree without `.trd` files that is loaded and is as given, what stands for a variable in
the root is the value of the last assignment of it that the run shows. -/
def AssignmentsAgree (P : ControlFile → Bool) : Prop :=
  ∀ (store : Store) (root : Path) (t : ControlFile) (c : Context) (res : Resolution),
    ControlFile.load store.files .standard root = .ok t →
      (∀ s ∈ t.walk, s.kind ≠ .controlFileReference .trd) → P t = true →
        t.resolve store.files c = .ok res →
          ∀ name, ∀ value ∈ lastValue? (RunStatement.assignments res.run.statements) name,
            Context.replacement (Resolve.setFile store.files t (Resolve.rootContext t c))
              (Token.normalize ⟨name⟩) = Text.trim value

/-- Something else than the last value that the run shows stands for some variable. -/
theorem not_assignmentsAgree_of_any {P : ControlFile → Bool} (store : Store) (root : Path)
    (c : Context) (name : Text)
    (h : ((ControlFile.load store.files .standard root).toOption.any fun t =>
      t.walk.all (fun s => s.kind != .controlFileReference .trd) && P t &&
        (t.resolve store.files c).toOption.any fun res =>
          (lastValue? (RunStatement.assignments res.run.statements) name).any fun value =>
            Context.replacement (Resolve.setFile store.files t (Resolve.rootContext t c))
              (Token.normalize ⟨name⟩) != Text.trim value) = true) : ¬ AssignmentsAgree P := by
  intro hall
  obtain ⟨t, ht, h⟩ := Except.toOption_any_iff.mp h
  simp only [Bool.and_eq_true, List.all_eq_true, bne_iff_ne] at h
  obtain ⟨⟨hkind, hP⟩, h⟩ := h
  obtain ⟨res, hres, h⟩ := Except.toOption_any_iff.mp h
  obtain ⟨value, hvalue, h⟩ := (Option.any_eq_true _ _).mp h
  exact absurd (hall store root t c res ht hkind hP hres name value hvalue) (bne_iff_ne.mp h)

/-- It does not hold that the value of the last assignment that the run shows is what stands for a
variable. The assignment can name a variable that is set again behind it, in its value or in its
scopes; its command can have a token; a chosen name can fill the token of the variable; and a value
that lists files and has tokens left is not shown as it is. -/
theorem not_assignmentsAgree :
    ¬ AssignmentsAgree (fun t => t.unscoped && t.plainCommands) ∧
      ¬ AssignmentsAgree (fun t => t.plainCommands && t.assignedTokens fun _ => false) ∧
      ¬ AssignmentsAgree (fun t => t.unscoped && t.assignedTokens fun _ => false) ∧
      ¬ AssignmentsAgree
        (fun t => t.unscoped && t.plainCommands && t.assignedTokens fun _ => false) ∧
      ¬ AssignmentsAgree (fun t => t.unscoped && t.plainCommands &&
        t.assignedTokens fun token => token.axis?.isSome) := by
  refine ⟨?_, ?_, ?_, ?_, ?_⟩
  · refine not_assignmentsAgree_of_any (.ofList [(⟨"/m/m.tcf"⟩, Text.unlines [
      "Set Variable A == 1", "Set Variable B == <<A>>", "Set Variable A == 2", "X == <<B>>"])])
      ⟨"/m/m.tcf"⟩ (.ofChosen ⟨["S"], []⟩) "B" ?_
    decide +kernel
  · refine not_assignmentsAgree_of_any (.ofList [(⟨"/m/m.tcf"⟩, Text.unlines [
      "Set Variable A == 1", "If Variable A == 1", "Set Variable B == x", "Else",
      "Set Variable B == y", "End If", "Set Variable A == 2", "X == <<B>>"])])
      ⟨"/m/m.tcf"⟩ (.ofChosen ⟨["S"], []⟩) "B" ?_
    decide +kernel
  · refine not_assignmentsAgree_of_any (.ofList [(⟨"/m/m.tcf"⟩, Text.unlines [
      "Set Variable B == 1", "Set Variable N == B", "Set Variable <<N>> == 2", "X == <<B>>"])])
      ⟨"/m/m.tcf"⟩ (.ofChosen ⟨["S"], []⟩) "B" ?_
    decide +kernel
  · refine not_assignmentsAgree_of_any (.ofList [(⟨"/m/m.tcf"⟩, Text.unlines [
      "Set Variable ~s1~ == Z", "X == <<~s1~>>"])])
      ⟨"/m/m.tcf"⟩ (.ofChosen ⟨["S"], []⟩) "~s1~" ?_
    decide +kernel
  · refine not_assignmentsAgree_of_any (.ofList [(⟨"/m/m.tcf"⟩, Text.unlines [
      "Set Variable F == a.shp | b_<<~s1~>>.shp"])])
      ⟨"/m/m.tcf"⟩ (.ofChosen ⟨[], []⟩) "F" ?_
    decide +kernel

end ControlFiles
