import ControlFiles.Proofs.ControlFile.Findings
import ControlFiles.Proofs.Run.Visiting

/-!
# What stays inside a file

A file that a statement refers to is resolved in a copy of the context above it, and only a `.trd`
file hands its variables back. So the statements of any other file count for nothing but its own run
(`resolve_withChild`): not for the variables of the file above (`Resolve.setFile_withChild`), nor
for the names that are chosen, nor, as long as they define no events, for what the events substitute
(`Resolve.rootContext_withChild`).
-/

namespace ControlFiles

/-! ## Other statements in a file that is referred to -/

/-- The content with other statements, if it is a control file. -/
def Content.withStatements (statements : List Statement) : Content → Content
  | .file f => .file { f with statements := statements }
  | .table t => .table t
  | .failed why => .failed why

/-- The child with other statements in its file. -/
def Child.withStatements (statements : List Statement) (d : Child) : Child :=
  { d with content := d.content.withStatements statements }

/-- The statement with other statements in the file of its child at a place. -/
def Statement.withChild (j : Nat) (statements : List Statement) (s : Statement) : Statement :=
  { s with children := s.children.modify j (Child.withStatements statements) }

/-- The file with other statements in the file of a child of one of its statements. -/
def ControlFile.withChild (f : ControlFile) (i j : Nat) (statements : List Statement) :
    ControlFile :=
  { f with statements := f.statements.modify i (Statement.withChild j statements) }

/-- The runs are equal, but for the file that a statement has for its only child: it has `x` in the
one and `y` in the other. -/
def RunFile.DifferWithin (a b x y : RunFile) : Prop :=
  ∃ (before : List RunStatement) (r : RunStatement) (after : List RunStatement),
    a.statements = before ++ { r with children := [.file x] } :: after ∧
      b = { a with statements := before ++ { r with children := [.file y] } :: after }

theorem exists_modify_of_getElem? {α : Type} {l : List α} {i : Nat} {a : α} (h : l[i]? = some a) :
    ∃ before after, l = before ++ a :: after ∧ ∀ u, l.modify i u = before ++ u a :: after := by
  obtain ⟨hi, rfl⟩ := List.getElem?_eq_some_iff.mp h
  refine ⟨l.take i, l.drop (i + 1), ?_, fun u => List.modify_eq_take_cons_drop hi⟩
  rw [← List.drop_eq_getElem_cons, List.take_append_drop]

namespace ControlFile

theorem walk_eq (f : ControlFile) : f.walk = walkStatements f.statements := by
  cases f
  rfl

theorem walkStatements_cons (s : Statement) (rest : List Statement) :
    walkStatements (s :: rest) = s :: (walkChildren s.children ++ walkStatements rest) := by
  cases s
  rfl

end ControlFile

namespace Resolve

variable {files : Files Id} {base : Path} {c : Context} {s : Statement} {j : Nat}
  {ss : List Statement}

/-! ## The statement that refers to the file -/

theorem childAt?_modify {ds : List Child} {d : Child} (hd : ds[j]? = some d) {u : Child → Child}
    (hu : (u d).path = d.path) (path : Path) :
    childAt? (ds.modify j u) path = childAt? ds path ∨
      childAt? ds path = some d ∧ childAt? (ds.modify j u) path = some (u d) := by
  obtain ⟨before, after, rfl, hmodify⟩ := exists_modify_of_getElem? hd
  rw [hmodify, childAt?, childAt?, List.find?_append, List.find?_append, List.find?_cons,
    List.find?_cons, hu]
  cases before.find? fun d => Path.key d.path.text = Path.key path.text with
  | some first => exact .inl rfl
  | none =>
    cases decide (Path.key d.path.text = Path.key path.text) with
    | true => exact .inr ⟨rfl, rfl⟩
    | false => exact .inl rfl

theorem findSegments_withChild (parts : List (Text × Text)) :
    findSegments files base c (s.withChild j ss) parts = findSegments files base c s parts := by
  induction parts with
  | nil => rfl
  | cons p parts ih =>
    simp only [findSegments, ih]
    rfl

theorem value_withChild :
    value files base c (s.withChild j ss) = value files base c s := by
  simp only [value, findSegments_withChild]
  rfl

theorem length_findSegments {parts : List (Text × Text)} {found : List (Text × Path)}
    (h : findSegments files base c s parts = .ok found) : found.length = parts.length := by
  induction parts generalizing found with
  | nil => cases h; rfl
  | cons p parts ih =>
    simp only [findSegments, bind, pure] at h
    split at h
    · obtain ⟨rest, hrest, rfl⟩ := Except.map_eq_ok.mp h
      rw [List.length_cons, ih hrest, List.length_cons]
    · split at h
      · cases h
      · obtain ⟨rest, hrest, rfl⟩ := Except.map_eq_ok.mp h
        rw [List.length_cons, ih hrest, List.length_cons]
      · cases h

/-- The value of a statement that can have children names one file at most. -/
theorem length_paths_of_hasChild {value : Option Text} {paths : List Path}
    (hchild : s.kind.hasChild = true) (h : Resolve.value files base c s = .ok (value, paths)) :
    paths.length ≤ 1 := by
  cases value_eq_ok_iff.mp h with
  | absent _ => exact Nat.zero_le 1
  | known _ _ =>
    rw [if_pos (namesFiles_of_hasChild hchild), segments_of_hasChild hchild]
    exact le_rfl
  | searched _ _ _ _ hfound =>
    rw [List.length_map, length_findSegments hfound, segments_of_hasChild hchild]
    exact le_rfl

/-- A reference to a file that hands back no variables sets the same, whatever stands in that
file. -/
theorem setStatement_withChild (hkind : s.kind ≠ .controlFileReference .trd)
    (children children' : List (Text × Setter Id)) :
    setStatement files base (s.withChild j ss) children' c =
      setStatement files base s children c := by
  have hkind' : (s.withChild j ss).kind ≠ .controlFileReference .trd := hkind
  simp only [setStatement, hkind, hkind', ne_eq, not_false_eq_true, if_true]
  rfl

/-- The outcomes are those of the files, each put in its place. -/
def Outcomes (files : Files Id) (g g' : ControlFile) (c : Context) {α : Type} (place : RunFile → α)
    (out out' : Except RunFault (α × List Finding)) : Prop :=
  out = (runFile files g c).map (fun res => (place res.run, res.findings)) ∧
    out' = (runFile files g' c).map fun res => (place res.run, res.findings)

theorem Outcomes.map {g g' : ControlFile} {α β : Type} {place : RunFile → α}
    {out out' : Except RunFault (α × List Finding)} (h : Outcomes files g g' c place out out')
    (u : α → β) : Outcomes files g g' c (fun x => u (place x)) (out.map fun p => (u p.1, p.2))
      (out'.map fun p => (u p.1, p.2)) := by
  obtain ⟨rfl, rfl⟩ := h
  constructor
  · cases runFile files g c <;> rfl
  · cases runFile files g' c <;> rfl

section
variable {d : Child} {g : ControlFile} (hd : s.children[j]? = some d) (hg : d.content = .file g)
include hd hg

/-- What the files of the statement come to is the same, unless it is the file with other
statements. -/
theorem runFiles_withChild {paths : List Path} (hlength : paths.length ≤ 1) :
    runFiles (s.withChild j ss) (runChildren files (s.withChild j ss).children) c paths =
        runFiles s (runChildren files s.children) c paths ∨
      Outcomes files g { g with statements := ss } c (fun x => [.file x])
        (runFiles s (runChildren files s.children) c paths)
        (runFiles (s.withChild j ss) (runChildren files (s.withChild j ss).children) c paths) := by
  match paths, hlength with
  | [], _ => exact .inl rfl
  | [path], _ =>
    have hother : (d.withStatements ss).content = .file { g with statements := ss } := by
      rw [Child.withStatements, hg, Content.withStatements]
    rcases childAt?_modify hd (u := Child.withStatements ss) rfl path with hsame | ⟨hfirst, hfirst'⟩
    · left
      have hfind : findChild (runChildren files (s.withChild j ss).children) path =
          findChild (runChildren files s.children) path := by
        rw [findChild_runChildren, findChild_runChildren, Statement.withChild, hsame]
      cases hchild : findChild (runChildren files s.children) path with
      | none =>
        rw [runFiles_singleton_none hchild, runFiles_singleton_none (hfind.trans hchild)]
        rfl
      | some runner =>
        rw [runFiles_singleton_some hchild, runFiles_singleton_some (hfind.trans hchild)]
        rfl
    · exact .inr ⟨runFiles_singleton_file hfirst hg, runFiles_singleton_file hfirst' hother⟩

theorem runActive_withChild :
    runActive files base (s.withChild j ss) (runChildren files (s.withChild j ss).children) c =
        runActive files base s (runChildren files s.children) c ∨
      ∃ r : RunStatement, Outcomes files g { g with statements := ss } c
        (fun x => { r with children := [.file x] })
        (runActive files base s (runChildren files s.children) c)
        (runActive files base (s.withChild j ss) (runChildren files (s.withChild j ss).children)
          c) := by
  have hpause : (s.withChild j ss).isPause = s.isPause := rfl
  have hcommand : command c (s.withChild j ss) = command c s := rfl
  have hkind : (s.withChild j ss).kind = s.kind := rfl
  simp only [runActive, bind, pure, hpause, hcommand, value_withChild, hkind]
  split
  · exact .inl rfl
  · split
    · exact .inl rfl
    · rename_i written hwritten
      split
      · exact .inl rfl
      · rename_i meaning paths hmeaning
        split
        · rename_i hchild
          have hlength := length_paths_of_hasChild hchild hmeaning
          rcases runFiles_withChild hd hg hlength with hsame | houtcomes
          · left
            rw [hsame]
            rfl
          · exact .inr ⟨⟨s.id, written, meaning, s.kind, s.file, s.line, paths,
              layers base s meaning, []⟩, houtcomes.map _⟩
        · exact .inl rfl

/-- What the statement comes to is the same, but for the run of the file. -/
theorem runStatement_withChild :
    runStatement files base (s.withChild j ss) (runChildren files (s.withChild j ss).children) c =
        runStatement files base s (runChildren files s.children) c ∨
      ∃ r : RunStatement, Outcomes files g { g with statements := ss } c
        (fun x => [{ r with children := [.file x] }])
        (runStatement files base s (runChildren files s.children) c)
        (runStatement files base (s.withChild j ss)
          (runChildren files (s.withChild j ss).children) c) := by
  have hcheck : checkBranches (s.withChild j ss) = checkBranches s := rfl
  have hcontent : (s.withChild j ss).isContent = s.isContent := rfl
  have hscope : (s.withChild j ss).scope = s.scope := rfl
  simp only [runStatement, bind, pure, hcheck, hcontent, hscope]
  split
  · exact .inl rfl
  · split
    · exact .inl rfl
    · rcases runActive_withChild hd hg with hsame | ⟨r, houtcomes⟩
      · left
        rw [hsame]
      · exact .inr ⟨r, houtcomes.map fun run => [run]⟩

end

/-! ## The file above -/

theorem runStatements_append (before after : List Statement) (base : Path) (c : Context) :
    runStatements files (before ++ after) base c =
      (runStatements files before base c).bind fun first =>
        (runStatements files after base c).map fun rest =>
          (first.1 ++ rest.1, first.2 ++ rest.2) := by
  induction before with
  | nil =>
    rw [List.nil_append, runStatements]
    cases runStatements files after base c <;> rfl
  | cons t before ih =>
    rw [List.cons_append, runStatements_cons, runStatements_cons, ih]
    cases runStatement files base t (runChildren files t.children) c with
    | error e => rfl
    | ok here =>
      cases runStatements files before base c with
      | error e => rfl
      | ok first =>
        cases runStatements files after base c with
        | error e => rfl
        | ok rest => simp [Except.bind, Except.map]

/-- The parts of what some statements come to. -/
theorem exists_of_runStatements_append {before after : List Statement}
    {out : List RunStatement × List Finding}
    (h : runStatements files (before ++ s :: after) base c = .ok out) :
    ∃ first here rest, runStatements files before base c = .ok first ∧
      runStatement files base s (runChildren files s.children) c = .ok here ∧
      runStatements files after base c = .ok rest ∧
      out = (first.1 ++ (here.1 ++ rest.1), first.2 ++ (here.2 ++ rest.2)) := by
  rw [runStatements_append, runStatements_cons] at h
  obtain ⟨first, hfirst, h⟩ := Except.bind_eq_ok.mp h
  obtain ⟨others, hothers, rfl⟩ := Except.map_eq_ok.mp h
  obtain ⟨here, hhere, hothers⟩ := Except.bind_eq_ok.mp hothers
  obtain ⟨rest, hrest, rfl⟩ := Except.map_eq_ok.mp hothers
  exact ⟨first, here, rest, hfirst, hhere, hrest, rfl⟩

theorem setFile_eq (f : ControlFile) (c : Context) :
    setFile files f c = setStatements files f.statements f.path.directory c := by
  cases f
  rfl

section
variable {f : ControlFile} {i : Nat}

/-- The statements of a file that hands back no variables do not count for those of the file
above. -/
theorem setFile_withChild (hs : f.statements[i]? = some s)
    (hkind : s.kind ≠ .controlFileReference .trd) (c : Context) :
    setFile files (f.withChild i j ss) c = setFile files f c := by
  obtain ⟨before, after, hstatements, hmodify⟩ := exists_modify_of_getElem? hs
  rw [setFile_eq, setFile_eq]
  simp only [ControlFile.withChild, hmodify]
  rw [hstatements, setStatements_append, setStatements_append, setStatements_cons,
    setStatements_cons, setStatement_withChild hkind]

theorem declared_withChild (hs : f.statements[i]? = some s) (chosen : Chosen) :
    declared (f.withChild i j ss).statements chosen = declared f.statements chosen := by
  obtain ⟨before, after, hstatements, hmodify⟩ := exists_modify_of_getElem? hs
  have hscope : (s.withChild j ss).scope = s.scope := rfl
  have hscenarios : (s.withChild j ss).scenarioDeclaration? = s.scenarioDeclaration? := rfl
  have hevents : (s.withChild j ss).eventDeclaration? = s.eventDeclaration? := rfl
  simp only [ControlFile.withChild, hmodify]
  rw [hstatements, declared, declared, List.filter_append, List.filter_append, List.filter_cons,
    List.filter_cons, hscope]
  split
  · simp only [List.foldl_append, List.foldl_cons, hscenarios, hevents]
  · rfl

section
variable {d : Child} {g : ControlFile} (hs : f.statements[i]? = some s)
  (hd : s.children[j]? = some d) (hg : d.content = .file g)
  (hnone : ∀ t ∈ g.walk, EventTable.defines t = false)
  (hnone' : ∀ t ∈ ControlFile.walkStatements ss, EventTable.defines t = false)
include hs hd hg hnone hnone'

/-- Statements that define no events do not count for the events of the tree. -/
theorem events_withChild : (f.withChild i j ss).events = f.events := by
  obtain ⟨before, after, hstatements, hmodify⟩ := exists_modify_of_getElem? hs
  obtain ⟨first, rest, hchildren, hmodify'⟩ := exists_modify_of_getElem? hd
  -- the statements of the file are passed over, whichever they are
  have hskip {d' : Child} {g' : ControlFile} (hg' : d'.content = .file g')
      (hnone : ∀ t ∈ g'.walk, EventTable.defines t = false) (acc : EventTable.Collecting) :
      (ControlFile.walkChildren (first ++ d' :: rest)).foldl EventTable.Collecting.step acc =
        (ControlFile.walkChildren (first ++ rest)).foldl EventTable.Collecting.step acc := by
    have hfile : d'.content.file? = some g' := by rw [hg', Content.file?]
    simp only [ControlFile.walkChildren_eq, List.filterMap_append, List.filterMap_cons, hfile,
      List.flatMap_append, List.flatMap_cons, List.foldl_append,
      EventTable.Collecting.foldl_of_not_defines hnone]
  have hother : (d.withStatements ss).content = .file { g with statements := ss } := by
    rw [Child.withStatements, hg, Content.withStatements]
  have hstep (acc : EventTable.Collecting) :
      EventTable.Collecting.step acc (s.withChild j ss) = EventTable.Collecting.step acc s := rfl
  have hchildren' : (s.withChild j ss).children = first ++ d.withStatements ss :: rest :=
    hmodify' _
  simp only [ControlFile.events, ControlFile.walk_eq, ControlFile.withChild, hmodify]
  rw [hstatements]
  simp only [ControlFile.walkStatements_append, ControlFile.walkStatements_cons, List.foldl_append,
    List.foldl_cons, hstep, hchildren', hchildren, hskip hg hnone, hskip hother hnone']

/-- What the run of the root starts from is the same, whatever stands in a file that defines no
events. -/
theorem rootContext_withChild (c : Context) :
    rootContext (f.withChild i j ss) c = rootContext f c := by
  rw [rootContext, rootContext, events_withChild hs hd hg hnone hnone', declared_withChild hs]

end

/-- What some statements come to is the same, but for the run of the file. -/
theorem runStatements_withChild {statements : List Statement} {d : Child} {g : ControlFile}
    (hs : statements[i]? = some s) (hd : s.children[j]? = some d) (hg : d.content = .file g)
    {out out' : List RunStatement × List Finding}
    (h : runStatements files statements base c = .ok out)
    (h' : runStatements files (statements.modify i (Statement.withChild j ss)) base c = .ok out') :
    out' = out ∨ ∃ (x y : Resolution) (first rest : List RunStatement × List Finding)
        (r : RunStatement),
      runFile files g c = .ok x ∧ runFile files { g with statements := ss } c = .ok y ∧
      out = (first.1 ++ { r with children := [.file x.run] } :: rest.1,
        first.2 ++ (x.findings ++ rest.2)) ∧
      out' = (first.1 ++ { r with children := [.file y.run] } :: rest.1,
        first.2 ++ (y.findings ++ rest.2)) := by
  obtain ⟨before, after, rfl, hmodify⟩ := exists_modify_of_getElem? hs
  rw [hmodify] at h'
  obtain ⟨first, here, rest, hfirst, hhere, hrest, rfl⟩ := exists_of_runStatements_append h
  obtain ⟨first', here', rest', hfirst', hhere', hrest', rfl⟩ := exists_of_runStatements_append h'
  obtain rfl : first' = first := Except.ok.inj (hfirst'.symm.trans hfirst)
  obtain rfl : rest' = rest := Except.ok.inj (hrest'.symm.trans hrest)
  rcases runStatement_withChild hd hg with hsame | ⟨r, hrun, hrun'⟩
  · obtain rfl : here' = here := Except.ok.inj (hhere'.symm.trans (hsame.trans hhere))
    exact .inl rfl
  · obtain ⟨x, hx, rfl⟩ := Except.map_eq_ok.mp (hrun.symm.trans hhere)
    obtain ⟨y, hy, rfl⟩ := Except.map_eq_ok.mp (hrun'.symm.trans hhere')
    exact .inr ⟨x, y, first', rest', r, hx, hy, rfl, rfl⟩

end

end Resolve

/-- The outcomes are equal, but for what the file of a child comes to: `x` in the one and `y` in the
other. -/
structure Resolution.DifferWithin (a b x y : Resolution) : Prop where
  run : RunFile.DifferWithin a.run b.run x.run y.run
  findings : ∃ before after, a.findings = before ++ (x.findings ++ after) ∧
    b.findings = before ++ (y.findings ++ after)

/-- A file has a child of which the kind of its statement says that it hands back no variables. If
other statements stand in the child, and neither they nor those that stood there define events, then
the run is the same, but for the run of the child: that is what the child with the one or the other
statements comes to in the context that all statements of the file are resolved in. -/
theorem resolve_withChild {files : Files Id} {f : ControlFile} {c : Context} {i j : Nat}
    {s : Statement} {d : Child} {g : ControlFile} {ss : List Statement} {res res' : Resolution}
    (hs : f.statements[i]? = some s) (hkind : s.kind ≠ .controlFileReference .trd)
    (hd : s.children[j]? = some d) (hg : d.content = .file g)
    (hnone : ∀ t ∈ g.walk, EventTable.defines t = false)
    (hnone' : ∀ t ∈ ControlFile.walkStatements ss, EventTable.defines t = false)
    (h : f.resolve files c = .ok res) (h' : (f.withChild i j ss).resolve files c = .ok res') :
    res' = res ∨ ∃ x y,
      Resolve.runFile files g (Resolve.setFile files f (Resolve.rootContext f c)) = .ok x ∧
      Resolve.runFile files { g with statements := ss }
        (Resolve.setFile files f (Resolve.rootContext f c)) = .ok y ∧
      res.DifferWithin res' x y := by
  rw [ControlFile.resolve, Resolve.runFile_eq] at h
  rw [ControlFile.resolve, Resolve.rootContext_withChild hs hd hg hnone hnone', Resolve.runFile_eq,
    Resolve.setFile_withChild hs hkind] at h'
  obtain ⟨out, hout, rfl⟩ := Except.map_eq_ok.mp h
  obtain ⟨out', hout', rfl⟩ := Except.map_eq_ok.mp h'
  rcases Resolve.runStatements_withChild hs hd hg hout hout' with
    rfl | ⟨x, y, first, rest, r, hx, hy, rfl, rfl⟩
  · exact .inl rfl
  · exact .inr ⟨x, y, hx, hy, ⟨first.1, r, rest.1, rfl, rfl⟩, first.2, rest.2, rfl, rfl⟩

/-- A geometry file that sets a variable of the file above to other values. -/
theorem resolve_withChild_geometry : ∃ (store : Store) (f : ControlFile) (ss : List Statement)
    (res res' : Resolution), ControlFile.load store.files .standard ⟨"/m/m.tcf"⟩ = .ok f ∧
      f.resolve store.files (.ofChosen ⟨["A"], []⟩) = .ok res ∧
      (f.withChild 1 0 ss).resolve store.files (.ofChosen ⟨["A"], []⟩) = .ok res' ∧
      res'.run.toText ≠ res.run.toText ∧ ∃ x y, res.DifferWithin res' x y := by
  let store := Store.ofList [
    (⟨"/m/m.tcf"⟩, "Set Variable V == 1\nGeometry Control File == g.tgc\nX == <<V>>\n"),
    (⟨"/m/g.tgc"⟩, "Set Variable V == 2\nY == <<V>>\n")]
  let c := Context.ofChosen ⟨["A"], []⟩
  have hrun : ((ControlFile.load store.files .standard ⟨"/m/m.tcf"⟩).toOption.any fun f =>
      (ControlFile.ofText ⟨"/m/g.tgc"⟩
          "Set Variable V == 3\nZ == <<V>>\n").toOption.any fun other =>
        f.statements[1]?.any fun s =>
          s.children[0]?.any fun d =>
            d.content.file?.any fun g =>
              s.kind != .controlFileReference .trd && g.walk.all (!EventTable.defines ·) &&
                (ControlFile.walkStatements other.statements).all (!EventTable.defines ·) &&
                (f.resolve store.files c).toOption.any fun res =>
                  ((f.withChild 1 0 other.statements).resolve
                      store.files c).toOption.any fun res' =>
                    res'.run.toText != res.run.toText) = true := by
    decide +kernel
  obtain ⟨f, hf, hrun⟩ := Except.toOption_any_iff.mp hrun
  obtain ⟨other, -, hrun⟩ := Except.toOption_any_iff.mp hrun
  obtain ⟨s, hs, hrun⟩ := (Option.any_eq_true _ _).mp hrun
  obtain ⟨d, hd, hrun⟩ := (Option.any_eq_true _ _).mp hrun
  obtain ⟨g, hg, hrun⟩ := (Option.any_eq_true _ _).mp hrun
  simp only [Bool.and_eq_true, bne_iff_ne, List.all_eq_true, Bool.not_eq_true'] at hrun
  obtain ⟨⟨⟨hkind, hnone⟩, hnone'⟩, hrun⟩ := hrun
  obtain ⟨res, hres, hrun⟩ := Except.toOption_any_iff.mp hrun
  obtain ⟨res', hres', hrun⟩ := Except.toOption_any_iff.mp hrun
  have hdiffer : res'.run.toText ≠ res.run.toText := by simpa using hrun
  refine ⟨store, f, other.statements, res, res', hf, hres, hres', hdiffer, ?_⟩
  rcases resolve_withChild hs hkind hd (Content.file?_eq_some.mp hg) hnone hnone' hres hres' with
    hsame | ⟨x, y, -, -, hwithin⟩
  · exact absurd (by rw [hsame]) hdiffer
  · exact ⟨x, y, hwithin⟩

end ControlFiles
