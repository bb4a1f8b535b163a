import ControlFiles.ControlFile.Variants
import ControlFiles.Proofs.Run.Resolution

/-!
# Statements that are out of a run

A statement that is not in force sets no variable and gives nothing
(`Resolve.setStatement_inactive`, `Resolve.runStatement_inactive`), so the file without it is
resolved alike from the same context (`Resolve.runFile_remove`). A scope of scenarios without a
token is decided by the chosen names, which the variables of the file do not change
(`Resolve.setFile_chosen`); one with a token is asked about twice, where the statement is met and
after all variables are set (`Resolve.Excludes`).

The events are collected from the whole tree, whatever is in force, so a statement that is out of
the run can still define what the chosen events substitute (`not_inactiveIgnored`). If it does not,
nothing is left of it in the run (`resolve_remove`).
-/

namespace ControlFiles

/-- The file without the statement at a place. -/
def ControlFile.remove (f : ControlFile) (i : Nat) : ControlFile :=
  { f with statements := f.statements.eraseIdx i }

/-- The statements before and after the one at a place. -/
theorem exists_append_of_getElem? {statements : List Statement} {i : Nat} {s : Statement}
    (h : statements[i]? = some s) : ∃ before after, statements = before ++ s :: after ∧
      statements.take i = before ∧ statements.eraseIdx i = before ++ after := by
  obtain ⟨hi, rfl⟩ := List.getElem?_eq_some_iff.mp h
  refine ⟨_, statements.drop (i + 1), ?_, rfl, List.eraseIdx_eq_take_drop_succ statements i⟩
  rw [← List.drop_eq_getElem_cons, List.take_append_drop]

namespace Resolve

variable {files : Files Id}

/-! ## One statement -/

theorem setStatement_inactive {base : Path} {s : Statement} {children : List (Text × Setter Id)}
    {c : Context} (h : c.isActive s.scope = false) : setStatement files base s children c = c := by
  rw [setStatement, h]
  rfl

theorem runStatement_inactive {base : Path} {s : Statement} {children : List (Text × Runner Id)}
    {c : Context} (h : c.isActive s.scope = false) :
    runStatement files base s children c = (checkBranches s).map fun () => ([], []) := by
  rw [runStatement, h]
  cases checkBranches s <;> simp [Except.map] <;> rfl

/-! ## Chosen names -/

theorem setFiles_chosen {children : List (Text × Setter Id)}
    (h : ∀ p ∈ children, ∀ c, Context.chosen (p.2 c) = c.chosen) (paths : List Path) (c : Context) :
    Context.chosen (setFiles children paths c) = c.chosen := by
  induction paths generalizing c with
  | nil => rfl
  | cons path paths ih =>
    rw [setFiles]
    cases hfind : findChild children path with
    | none => exact ih c
    | some set =>
      obtain ⟨p, hp, rfl⟩ := Option.map_eq_some_iff.mp hfind
      exact (ih (p.2 c)).trans (h p (List.mem_of_find?_eq_some hp) c)

theorem setStatement_chosen {base : Path} {s : Statement} {children : List (Text × Setter Id)}
    (h : ∀ p ∈ children, ∀ c, Context.chosen (p.2 c) = c.chosen) (c : Context) :
    Context.chosen (setStatement files base s children c) = c.chosen := by
  simp only [setStatement, bind, pure]
  split
  · rfl
  · rcases s.assignment? with _ | ⟨name, value⟩ <;> split
    · rfl
    · split
      · exact setFiles_chosen h _ _
      · rfl
    · rfl
    · split
      · exact setFiles_chosen h _ (c.setVariable name _)
      · rfl

theorem setStatements_cons (s : Statement) (rest : List Statement) (base : Path) (c : Context) :
    setStatements files (s :: rest) base c =
      setStatements files rest base
        (setStatement files base s (setChildren files s.children) c) := by
  cases s
  rfl

mutual

/-- Setting the variables of a file leaves the chosen names. -/
theorem setFile_chosen : ∀ (f : ControlFile) (c : Context),
    Context.chosen (setFile files f c) = c.chosen
  | ⟨path, _, statements, _⟩, c => setStatements_chosen statements path.directory c

theorem setStatements_chosen : ∀ (statements : List Statement) (base : Path) (c : Context),
    Context.chosen (setStatements files statements base c) = c.chosen
  | [], _, _ => rfl
  | ⟨id, raw, command, value, comment, kind, scope, file, line, children⟩ :: rest, base, c => by
    rw [setStatements_cons, setStatements_chosen rest,
      setStatement_chosen (setChildren_chosen children)]

theorem setChildren_chosen : ∀ (children : List Child), ∀ p ∈ setChildren files children,
    ∀ c, Context.chosen (p.2 c) = c.chosen
  | [], p, hp, _ => by cases hp
  | ⟨path, scope, content⟩ :: rest, p, hp, c => by
    rw [setChildren, List.mem_cons] at hp
    rcases hp with rfl | hp
    · exact setContent_chosen content c
    · exact setChildren_chosen rest p hp c

theorem setContent_chosen : ∀ (content : Content) (c : Context),
    Context.chosen (setContent files content c) = c.chosen
  | .file f, c => setFile_chosen f c
  | .table _, _ => rfl
  | .failed _, _ => rfl

end

/-! ## Some statements -/

theorem setStatements_append (before after : List Statement) (base : Path) (c : Context) :
    setStatements files (before ++ after) base c =
      setStatements files after base (setStatements files before base c) := by
  induction before generalizing c with
  | nil => rfl
  | cons s before ih => rw [List.cons_append, setStatements_cons, ih, setStatements_cons]

theorem setStatements_remove {before after : List Statement} {s : Statement} {base : Path}
    {c : Context} (h : Context.isActive (setStatements files before base c) s.scope = false) :
    setStatements files (before ++ after) base c =
      setStatements files (before ++ s :: after) base c := by
  rw [setStatements_append, setStatements_append, setStatements_cons, setStatement_inactive h]

/-- Statements that are resolved are so without one that is not in force. -/
theorem runStatements_remove {before after : List Statement} {s : Statement} {base : Path}
    {c : Context} (hactive : c.isActive s.scope = false)
    {out : List RunStatement × List Finding}
    (h : runStatements files (before ++ s :: after) base c = .ok out) :
    runStatements files (before ++ after) base c = .ok out := by
  induction before generalizing out with
  | nil =>
    rw [List.nil_append, runStatements_cons, runStatement_inactive hactive] at h
    rw [List.nil_append]
    obtain ⟨here, hhere, h⟩ := Except.bind_eq_ok.mp h
    obtain ⟨-, -, rfl⟩ := Except.map_eq_ok.mp hhere
    obtain ⟨others, hothers, rfl⟩ := Except.map_eq_ok.mp h
    exact hothers
  | cons t before ih =>
    rw [List.cons_append, runStatements_cons] at h ⊢
    obtain ⟨here, hhere, h⟩ := Except.bind_eq_ok.mp h
    obtain ⟨others, hothers, heq⟩ := Except.map_eq_ok.mp h
    exact Except.bind_eq_ok.mpr ⟨here, hhere, Except.map_eq_ok.mpr ⟨others, ih hothers, heq⟩⟩

/-! ## Files -/

/-- The scope keeps the statement at a place out of the run of a file from a context: it holds
neither where the statement is met while the variables are set, nor after they are. -/
def Excludes (files : Files Id) (f : ControlFile) (i : Nat) (c : Context) (a : Scope) : Prop :=
  Context.holds (setStatements files (f.statements.take i) f.path.directory c) a = false ∧
    Context.holds (setFile files f c) a = false

theorem holds_of_chosen_eq {c c' : Context} {a : Scope} (hkind : a.kind = .scenario)
    (htoken : a.token = none) (h : c'.chosen = c.chosen) : c'.holds a = c.holds a := by
  simp only [Context.holds, Context.alternatives?, Context.selected?, hkind, htoken, h]

/-- Without a token, a scope of scenarios that does not hold keeps out of the run. -/
theorem excludes_of_token_eq_none {f : ControlFile} {i : Nat} {c : Context} {a : Scope}
    (hkind : a.kind = .scenario) (htoken : a.token = none) (h : c.holds a = false) :
    Excludes files f i c a :=
  ⟨(holds_of_chosen_eq hkind htoken (setStatements_chosen _ _ c)).trans h,
    (holds_of_chosen_eq hkind htoken (setFile_chosen f c)).trans h⟩

theorem isActive_eq_false {c : Context} {l : ScopeList} {a : Scope} (ha : a ∈ l)
    (h : c.holds a = false) : c.isActive l = false :=
  List.all_eq_false.mpr ⟨a, ha, by simp [h]⟩

/-- A file that is resolved is so without a statement that is kept out of the run. -/
theorem runFile_remove {f : ControlFile} {c : Context} {i : Nat} {s : Statement} {a : Scope}
    {res : Resolution} (hs : f.statements[i]? = some s) (ha : a ∈ s.scope)
    (hout : Excludes files f i c a) (h : runFile files f c = .ok res) :
    runFile files (f.remove i) c = .ok res := by
  obtain ⟨path, kind, statements, findings⟩ := f
  obtain ⟨before, after, rfl, htake, herase⟩ := exists_append_of_getElem? hs
  obtain ⟨hmeets, hends⟩ := hout
  have hmeets : Context.holds (setStatements files before path.directory c) a = false :=
    htake ▸ hmeets
  simp only [runFile, bind, pure] at h
  obtain ⟨run, hrun, rfl⟩ := Except.map_eq_ok.mp h
  simp only [ControlFile.remove, herase, runFile, bind, pure]
  rw [setStatements_remove (isActive_eq_false ha hmeets)]
  exact Except.map_eq_ok.mpr ⟨run, runStatements_remove (isActive_eq_false ha hends) hrun, rfl⟩

end Resolve

/-! ## Events -/

theorem ControlFile.walkStatements_append (a b : List Statement) :
    walkStatements (a ++ b) = walkStatements a ++ walkStatements b := by
  induction a with
  | nil => rfl
  | cons s a ih =>
    cases s
    simp only [List.cons_append, walkStatements, ih, List.append_assoc]

namespace EventTable

/-- The statement takes part in the definition of events. -/
def defines (s : Statement) : Bool :=
  s.key = "bc event text" || s.key = "bc event source" || s.key = "bc event name"

theorem Collecting.step_of_not_defines {s : Statement} (h : defines s = false) (c : Collecting) :
    c.step s = c := by
  simp only [defines, Bool.or_eq_false_iff, decide_eq_false_iff_not] at h
  obtain ⟨⟨htext, hsource⟩, hname⟩ := h
  simp only [step, if_neg htext, if_neg hsource, if_neg hname]

theorem Collecting.foldl_of_not_defines {statements : List Statement}
    (h : ∀ s ∈ statements, defines s = false) (c : Collecting) :
    statements.foldl step c = c := by
  induction statements generalizing c with
  | nil => rfl
  | cons s rest ih =>
    rw [List.foldl_cons, step_of_not_defines (h s List.mem_cons_self)]
    exact ih (fun t ht => h t (List.mem_cons_of_mem _ ht)) c

end EventTable

/-- Without a statement that defines no events, here or in the files that it refers to, the events
are the same. -/
theorem ControlFile.events_remove {f : ControlFile} {i : Nat} {s : Statement}
    (hs : f.statements[i]? = some s)
    (h : ∀ t ∈ walkStatements [s], EventTable.defines t = false) :
    (f.remove i).events = f.events := by
  obtain ⟨path, kind, statements, findings⟩ := f
  obtain ⟨before, after, rfl, -, herase⟩ := exists_append_of_getElem? hs
  simp only [events, remove, walk, herase]
  rw [← List.singleton_append, walkStatements_append, walkStatements_append, walkStatements_append,
    List.foldl_append, List.foldl_append, List.foldl_append,
    EventTable.Collecting.foldl_of_not_defines h]

/-! ## Runs -/

theorem Resolve.rootContext_of_hasSelection (f : ControlFile) {c : Context}
    (h : c.hasSelection = true) : rootContext f c = c.withEvents f.events := by
  rw [rootContext, if_pos h]

/-- A statement of a file has a scope of scenarios that does not hold in a run and, if it has a
token, is kept out of the run by it. When the file resolves, then so does the file without the
statement in the same context, to the same run. If moreover the chosen events substitute the same
without the statement, in particular if neither it nor the files that it refers to define events,
then the file without the statement has the same run. -/
theorem resolve_remove {files : Files Id} {f : ControlFile} {c : Context} {i : Nat} {s : Statement}
    {a : Scope} {res : Resolution} (hselection : c.hasSelection = true)
    (hs : f.statements[i]? = some s) (ha : a ∈ s.scope) (hkind : a.kind = .scenario)
    (hout : c.holds a = false)
    (htoken : a.token = none ∨ Resolve.Excludes files f i (Resolve.rootContext f c) a)
    (h : f.resolve files c = .ok res) :
    Resolve.runFile files (f.remove i) (Resolve.rootContext f c) = .ok res ∧
    (Context.eventValuesOf (f.remove i).events c.chosen.events =
      Context.eventValuesOf f.events c.chosen.events → (f.remove i).resolve files c = .ok res) ∧
    ((∀ t ∈ ControlFile.walkStatements [s], EventTable.defines t = false) →
      (f.remove i).resolve files c = .ok res) := by
  have hexcludes : Resolve.Excludes files f i (Resolve.rootContext f c) a := by
    rcases htoken with htoken | hexcludes
    · refine Resolve.excludes_of_token_eq_none hkind htoken ?_
      rw [Resolve.rootContext_of_hasSelection f hselection]
      exact (Resolve.holds_of_chosen_eq hkind htoken
        (show (c.withEvents f.events).chosen = c.chosen from rfl)).trans hout
    · exact hexcludes
  have hrun := Resolve.runFile_remove hs ha hexcludes h
  have hevents : Context.eventValuesOf (f.remove i).events c.chosen.events =
      Context.eventValuesOf f.events c.chosen.events →
        (f.remove i).resolve files c = .ok res := by
    intro hevents
    have hsame : Resolve.rootContext (f.remove i) c = Resolve.rootContext f c := by
      rw [Resolve.rootContext_of_hasSelection _ hselection,
        Resolve.rootContext_of_hasSelection _ hselection, Context.withEvents, hevents]
      rfl
    rw [ControlFile.resolve, hsame]
    exact hrun
  exact ⟨hrun, hevents, fun hnone => hevents (by rw [ControlFile.events_remove hs hnone])⟩

/-- A reference that is out of the run and the file that it names leave nothing in the run. -/
theorem resolve_remove_reference : ∃ (store : Store) (f : ControlFile) (s : Statement)
    (res : Resolution), ControlFile.load store.files .standard ⟨"/m/m.tcf"⟩ = .ok f ∧
    f.statements[0]? = some s ∧ s.children.length = 1 ∧
    f.resolve store.files (.ofChosen ⟨["A"], []⟩) = .ok res ∧
    (f.remove 0).resolve store.files (.ofChosen ⟨["A"], []⟩) = .ok res := by
  let store := Store.ofList [
    (⟨"/m/m.tcf"⟩, "If Scenario == B\nGeometry Control File == g.tgc\nEnd If\nX == 1\n"),
    (⟨"/m/g.tgc"⟩, "Set Variable V == 2\n")]
  have hrun : ((ControlFile.load store.files .standard ⟨"/m/m.tcf"⟩).toOption.any fun f =>
      f.statements[0]?.any fun s =>
        s.children.length == 1 && (ControlFile.walkStatements [s]).all (!EventTable.defines ·) &&
          (s.scope.any fun a => a.kind == .scenario && a.token.isNone &&
            !(Context.ofChosen ⟨["A"], []⟩).holds a) &&
          (f.resolve store.files (.ofChosen ⟨["A"], []⟩)).toOption.isSome) = true := by
    decide +kernel
  obtain ⟨f, hf, hrun⟩ := Except.toOption_any_iff.mp hrun
  obtain ⟨s, hs, hrun⟩ := (Option.any_eq_true _ _).mp hrun
  simp only [Bool.and_eq_true, beq_iff_eq, List.all_eq_true, Bool.not_eq_true',
    List.any_eq_true, Option.isNone_iff_eq_none, Except.toOption_isSome_iff] at hrun
  obtain ⟨⟨⟨hlength, hnone⟩, a, ha, ⟨hkind, htoken⟩, hout⟩, res, hres⟩ := hrun
  exact ⟨store, f, s, res, hf, hs, hlength, hres,
    (resolve_remove rfl hs ha hkind hout (.inl htoken) hres).2.2 hnone⟩

/-- In every tree that is loaded, a statement with a scope of scenarios that does not hold has no
influence on the run, where the tree and the scope are as given. -/
def InactiveIgnored (P : ControlFile → Scope → Prop) : Prop :=
  ∀ (store : Store) (root : Path) (f : ControlFile) (c : Context) (i : Nat) (s : Statement)
    (a : Scope) (res : Resolution), ControlFile.load store.files .standard root = .ok f →
      c.hasSelection = true → f.statements[i]? = some s → a ∈ s.scope → a.kind = .scenario →
        c.holds a = false → P f a → f.resolve store.files c = .ok res →
          ∃ res', (f.remove i).resolve store.files c = .ok res' ∧ res'.run = res.run

/-- Some statement that is removed makes a difference to the values of the run. -/
theorem not_inactiveIgnored_of_any {P : ControlFile → Scope → Prop}
    [∀ f a, Decidable (P f a)] (store : Store) (root : Path) (c : Context) (i : Nat)
    (hselection : c.hasSelection = true)
    (h : ((ControlFile.load store.files .standard root).toOption.any fun f =>
      f.statements[i]?.any fun s =>
        (s.scope.any fun a => a.kind == .scenario && !c.holds a && decide (P f a)) &&
          (f.resolve store.files c).toOption.any fun res =>
            ((f.remove i).resolve store.files c).toOption.all fun res' =>
              res'.run.statements.map (·.value) != res.run.statements.map (·.value)) = true) :
    ¬ InactiveIgnored P := by
  intro hall
  obtain ⟨f, hf, h⟩ := Except.toOption_any_iff.mp h
  obtain ⟨s, hs, h⟩ := (Option.any_eq_true _ _).mp h
  rw [Bool.and_eq_true] at h
  obtain ⟨hscope, hrun⟩ := h
  obtain ⟨a, ha, hscope⟩ := List.any_eq_true.mp hscope
  obtain ⟨res, hres, hdiffers⟩ := Except.toOption_any_iff.mp hrun
  simp only [Bool.and_eq_true, beq_iff_eq, Bool.not_eq_true', decide_eq_true_eq] at hscope
  obtain ⟨⟨hkind, hout⟩, hP⟩ := hscope
  obtain ⟨res', hres', heq⟩ := hall store root f c i s a res hf hselection hs ha hkind hout hP
    hres
  rw [Except.toOption_eq_some.mpr hres', Option.all_some, heq] at hdiffers
  simp at hdiffers

/-- It does not hold that a statement with a scope of scenarios that does not hold has no influence
on the run: it can name the file that defines the chosen event, and its scope can hold once the
variables are set. -/
theorem not_inactiveIgnored :
    ¬ InactiveIgnored (fun _ a => a.token = none) ∧
      ¬ InactiveIgnored (fun f _ => f.events = []) := by
  constructor
  · refine not_inactiveIgnored_of_any (.ofList [
      (⟨"/m/m.tcf"⟩, "If Scenario == B\nEvent File == e.tef\nEnd If\nX == ~ARI~\n"),
      (⟨"/m/e.tef"⟩, "Define Event == Q\nBC Event Source == ~ARI~ | 100yr\nEnd Define\n")])
      ⟨"/m/m.tcf"⟩ (.ofChosen ⟨["A"], ["Q"]⟩) 0 rfl ?_
    decide +kernel
  · refine not_inactiveIgnored_of_any (.ofList [
      (⟨"/m/m.tcf"⟩, "Set Variable V == A\nIf Scenario == <<V>>\nY == 1\nEnd If\n")])
      ⟨"/m/m.tcf"⟩ (.ofChosen ⟨["A"], []⟩) 1 rfl ?_
    decide +kernel

end ControlFiles
