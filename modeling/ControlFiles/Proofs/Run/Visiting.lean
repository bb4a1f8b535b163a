import ControlFiles.Proofs.ControlFile.Chains
import ControlFiles.Proofs.Run.Inactive

/-!
# The files that a run gets to

From the root, a run gets to every file that a statement in force names and that is loaded, and
resolves it in its own copy of the context of the file above (`Resolve.Visits`). What the statements
of such a file come to there, and what is noted about them, is part of the run as a whole
(`Resolve.Visits.exists_runStatement`), by induction on the way down from the root. The other way
round, each file of a run is what such a file comes to (`Resolve.Visits.exists_of_includes`).
-/

namespace ControlFiles

/-- The file is that of the run, or one that a statement of the run refers to. -/
inductive RunFile.Includes (run : RunFile) : RunFile → Prop where
  | root : Includes run run
  | child {f g : RunFile} (hf : Includes run f) (hg : g ∈ f.children) : Includes run g

namespace Resolve

variable {files : Files Id} {base path : Path} {s : Statement} {c : Context}

/-! ## The files of a statement -/

/-- The first of some children with the path, however it is written. -/
def childAt? (ds : List Child) (path : Path) : Option Child :=
  ds.find? fun d => Path.key d.path.text = Path.key path.text

/-- What a loaded file comes to in a run is the first child's with the path. -/
theorem findChild_runChildren (ds : List Child) (path : Path) :
    findChild (runChildren files ds) path =
      (childAt? ds path).map fun d => runContent files d.content := by
  have hmap : runChildren files ds =
      ds.map fun d => (Path.key d.path.text, runContent files d.content) := by
    induction ds with
    | nil => rfl
    | cons d ds ih =>
      cases d
      rw [runChildren, ih]
      rfl
  rw [findChild, hmap, List.find?_map, Option.map_map]
  rfl

theorem runContent_file (f : ControlFile) (c : Context) :
    runContent files (.file f) c =
      (runFile files f c).map fun res => .run (.file res.run) res.findings := rfl

section RunFiles

variable {children : List (Text × Runner Id)} {run : List RunChild} {findings : List Finding}

theorem runFiles_singleton_none (h : findChild children path = none) :
    runFiles s children c [path] = .ok ([], [note s c (.notLoaded path)]) := by
  simp only [runFiles, bind, pure, h]
  rfl

theorem runFiles_singleton_some {runner : Runner Id} (h : findChild children path = some runner) :
    runFiles s children c [path] = (runner c).map fun
      | .run child findings => ([child], findings)
      | .missing why => ([], [note s c (.missing why)]) := by
  simp only [runFiles, bind, pure, h]
  rcases runner c with e | ⟨child, found⟩ | why
  · rfl
  · simp [Except.map]
  · simp [Except.map]

section OfChildren

variable {ds : List Child} {d : Child} {g : ControlFile}

/-- The first child with the path is a file, which leaves its run and what is noted in it. -/
theorem runFiles_singleton_file (hd : childAt? ds path = some d) (hg : d.content = .file g) :
    runFiles s (runChildren files ds) c [path] =
      (runFile files g c).map fun res => ([.file res.run], res.findings) := by
  have hfind : findChild (runChildren files ds) path = some (runContent files (.file g)) := by
    rw [findChild_runChildren, hd, Option.map_some, hg]
  rw [runFiles_singleton_some hfind, runContent_file]
  cases runFile files g c <;> rfl

end OfChildren

theorem runFiles_cons (path : Path) (paths : List Path) :
    runFiles s children c (path :: paths) = (runFiles s children c [path]).bind fun here =>
      (runFiles s children c paths).map fun others =>
        (here.1 ++ others.1, here.2 ++ others.2) := by
  cases hfind : findChild children path with
  | none =>
    rw [runFiles_singleton_none hfind]
    simp only [runFiles, bind, pure, hfind]
    rfl
  | some runner =>
    rw [runFiles_singleton_some hfind]
    simp only [runFiles, bind, pure, hfind]
    rcases runner c with e | ⟨child, found⟩ | why <;> rfl

/-- Each of the files that a statement names leaves its own part. -/
theorem exists_runFiles_singleton {paths : List Path}
    (h : runFiles s children c paths = .ok (run, findings)) (hpath : path ∈ paths) :
    ∃ here found, runFiles s children c [path] = .ok (here, found) ∧ here ⊆ run ∧
      found ⊆ findings := by
  induction paths generalizing run findings with
  | nil => cases hpath
  | cons first rest ih =>
    rw [runFiles_cons] at h
    obtain ⟨here, hfirst, h⟩ := Except.bind_eq_ok.mp h
    obtain ⟨others, hothers, heq⟩ := Except.map_eq_ok.mp h
    obtain ⟨rfl, rfl⟩ := Prod.mk.inj heq
    obtain rfl | hpath := List.mem_cons.mp hpath
    · exact ⟨here.1, here.2, hfirst, List.subset_append_left _ _, List.subset_append_left _ _⟩
    · obtain ⟨here', found', hhere', hrun, hfindings⟩ := ih hothers hpath
      exact ⟨here', found', hhere', List.subset_append_of_subset_right _ hrun,
        List.subset_append_of_subset_right _ hfindings⟩

/-- What a statement has for a child is what some child comes to, the first with a path that the
statement names. -/
theorem exists_of_mem_runFiles {ds : List Child} {paths : List Path}
    (h : runFiles s (runChildren files ds) c paths = .ok (run, findings)) {child : RunChild}
    (hchild : child ∈ run) :
    ∃ path ∈ paths, ∃ d found, childAt? ds path = some d ∧
      runContent files d.content c = .ok (.run child found) := by
  induction paths generalizing run findings with
  | nil =>
    obtain ⟨rfl, -⟩ := Prod.mk.inj (Except.ok.inj h)
    cases hchild
  | cons path paths ih =>
    rw [runFiles_cons] at h
    obtain ⟨here, hfirst, h⟩ := Except.bind_eq_ok.mp h
    obtain ⟨others, hothers, heq⟩ := Except.map_eq_ok.mp h
    obtain ⟨rfl, -⟩ := Prod.mk.inj heq
    obtain hchild | hchild := List.mem_append.mp hchild
    · have hfind := @findChild_runChildren files ds path
      cases hd : childAt? ds path with
      | none =>
        rw [hd, Option.map_none] at hfind
        rw [runFiles_singleton_none hfind] at hfirst
        obtain rfl := Except.ok.inj hfirst
        cases hchild
      | some d =>
        rw [hd, Option.map_some] at hfind
        rw [runFiles_singleton_some hfind] at hfirst
        obtain ⟨ran, hran, rfl⟩ := Except.map_eq_ok.mp hfirst
        cases ran with
        | missing why => cases hchild
        | run first found =>
          obtain rfl := List.mem_singleton.mp hchild
          exact ⟨path, List.mem_cons_self, d, found, hd, hran⟩
    · obtain ⟨path', hpath', hrest⟩ := ih hothers hchild
      exact ⟨path', List.mem_cons_of_mem _ hpath', hrest⟩

/-- Nothing but a file leaves the run of a file. -/
theorem exists_of_runContent {content : Content} {rf : RunFile}
    (h : runContent files content c = .ok (.run (.file rf) findings)) :
    ∃ g res, content = .file g ∧ runFile files g c = .ok res ∧ res.run = rf := by
  cases content with
  | file g =>
    obtain ⟨res, hres, heq⟩ := Except.map_eq_ok.mp h
    obtain ⟨hrun, -⟩ := ChildRun.run.inj heq
    exact ⟨g, res, rfl, hres, RunChild.file.inj hrun⟩
  | table table => cases h
  | failed why => cases h

theorem exists_child_of_runFiles {ds : List Child} {rf : RunFile}
    (h : runFiles s (runChildren files ds) c [path] = .ok ([.file rf], findings)) :
    ∃ d g, childAt? ds path = some d ∧ d.content = .file g := by
  obtain ⟨path', hpath', d, found, hd, hrun⟩ := exists_of_mem_runFiles h (List.mem_singleton_self _)
  obtain rfl := List.mem_singleton.mp hpath'
  obtain ⟨g, -, hg, -⟩ := exists_of_runContent hrun
  exact ⟨d, g, hd, hg⟩

end RunFiles

/-! ## The statements of a file -/

theorem runFile_eq (f : ControlFile) (c : Context) :
    runFile files f c =
      (runStatements files f.statements f.path.directory (setFile files f c)).map fun found =>
        ⟨⟨f.path, f.kind, Context.describe (setFile files f c), found.1⟩, found.2⟩ := by
  cases f
  rfl

theorem runFile_path {f : ControlFile} {res : Resolution} (h : runFile files f c = .ok res) :
    res.run.path = f.path := by
  rw [runFile_eq] at h
  obtain ⟨found, -, rfl⟩ := Except.map_eq_ok.mp h
  rfl

/-- Each statement of a file leaves its own part. -/
theorem exists_runStatement {statements : List Statement} {run : List RunStatement}
    {findings : List Finding} (h : runStatements files statements base c = .ok (run, findings))
    (hs : s ∈ statements) :
    ∃ here found, runStatement files base s (runChildren files s.children) c = .ok (here, found) ∧
      here ⊆ run ∧ found ⊆ findings := by
  induction statements generalizing run findings with
  | nil => cases hs
  | cons first rest ih =>
    rw [runStatements_cons] at h
    obtain ⟨here, hfirst, h⟩ := Except.bind_eq_ok.mp h
    obtain ⟨others, hothers, heq⟩ := Except.map_eq_ok.mp h
    obtain ⟨rfl, rfl⟩ := Prod.mk.inj heq
    obtain rfl | hs := List.mem_cons.mp hs
    · exact ⟨here.1, here.2, hfirst, List.subset_append_left _ _, List.subset_append_left _ _⟩
    · obtain ⟨here', found', hhere', hrun, hfindings⟩ := ih hothers hs
      exact ⟨here', found', hhere', List.subset_append_of_subset_right _ hrun,
        List.subset_append_of_subset_right _ hfindings⟩

/-- A statement in force that refers to files becomes one statement, with what its files come to. -/
theorem exists_runFiles {children : List (Text × Runner Id)} {here : List RunStatement}
    {found : List Finding} (hchild : s.kind.hasChild = true) (hactive : c.isActive s.scope = true)
    (h : runStatement files base s children c = .ok (here, found)) :
    ∃ r, here = [r] ∧ Becomes files base c s r ∧
      runFiles s children c r.files = .ok (r.children, found) := by
  have hcontent : s.isContent = true := by
    rw [Statement.isContent]
    cases hkind : s.kind <;>
      simp [hkind, StatementKind.hasChild, StatementKind.isContent] at hchild ⊢
  obtain ⟨r, rfl, hr⟩ := exists_runActive hcontent hactive h
  obtain ⟨hbecomes, -, hchildren⟩ := runActive_eq_ok hr
  rw [if_pos hchild] at hchildren
  exact ⟨r, rfl, hbecomes, hchildren⟩

/-- Each statement of a run comes from one of the file. -/
theorem exists_of_mem_runStatements {statements : List Statement} {run : List RunStatement}
    {findings : List Finding} (h : runStatements files statements base c = .ok (run, findings))
    {r : RunStatement} (hr : r ∈ run) :
    ∃ s ∈ statements, c.isActive s.scope = true ∧
      ∃ found, runActive files base s (runChildren files s.children) c = .ok (r, found) := by
  induction statements generalizing run findings with
  | nil =>
    obtain ⟨rfl, -⟩ := Prod.mk.inj (Except.ok.inj h)
    cases hr
  | cons first rest ih =>
    obtain ⟨here, found, others, more, hhere, hothers, rfl⟩ := runStatements_cons_ok h
    obtain hr | hr := List.mem_append.mp hr
    · obtain ⟨hactive, found, hrun, -⟩ := runStatement_ok hhere r hr
      exact ⟨first, List.mem_cons_self, hactive, found, hrun⟩
    · obtain ⟨s, hs, hrest⟩ := ih hothers hr
      exact ⟨s, List.mem_cons_of_mem _ hs, hrest⟩

/-! ## The files of a run -/

/-- The run of a tree from a context gets to the file at the end of a chain, and its statements are
resolved in the last context. -/
inductive Visits (files : Files Id) (t : ControlFile) (c : Context) :
    List ControlFile → Context → ControlFile → Prop where
  | root : Visits files t c [t] (setFile files t c) t
  | child {fs : List ControlFile} {cf : Context} {f g : ControlFile} {s : Statement}
      {value : Option Text} {paths : List Path} {path : Path} {d : Child}
      (hvisit : Visits files t c fs cf f) (hs : s ∈ f.statements)
      (hkind : s.kind.hasChild = true) (hactive : cf.isActive s.scope = true)
      (hvalue : Resolve.value files f.path.directory cf s = .ok (value, paths))
      (hpath : path ∈ paths) (hd : childAt? s.children path = some d) (hg : d.content = .file g) :
      Visits files t c (fs ++ [g]) (setFile files g cf) g

namespace Visits

variable {t f : ControlFile} {cf : Context} {fs : List ControlFile}

theorem chain (h : Visits files t c fs cf f) : t.Chain fs f := by
  induction h with
  | root => exact .root
  | child _ hs _ _ _ _ hd hg ih => exact .child ih hs (List.mem_of_find?_eq_some hd) hg

/-- The statements of a file that the run gets to are resolved, as a part of the run. -/
theorem exists_runStatements (h : Visits files t c fs cf f) {res : Resolution}
    (hres : runFile files t c = .ok res) :
    ∃ run findings, runStatements files f.statements f.path.directory cf = .ok (run, findings) ∧
      RunFile.walkStatements run ⊆ res.run.walk ∧ findings ⊆ res.findings := by
  induction h with
  | root =>
    rw [runFile_eq] at hres
    obtain ⟨⟨run, findings⟩, hrun, rfl⟩ := Except.map_eq_ok.mp hres
    exact ⟨run, findings, hrun, List.Subset.refl _, List.Subset.refl _⟩
  | @child fs cf f g s value paths path d hvisit hs hkind hactive hvalue hpath hd hg ih =>
    obtain ⟨run, findings, hrun, hwalk, hfindings⟩ := ih
    obtain ⟨here, found, hhere, hsub, hfound⟩ := exists_runStatement hrun hs
    obtain ⟨r, rfl, hbecomes, hfiles⟩ := exists_runFiles hkind hactive hhere
    obtain ⟨-, rfl⟩ := Prod.mk.inj (Except.ok.inj (hbecomes.value.symm.trans hvalue))
    obtain ⟨child, noted, hchild, hchildren, hnoted⟩ := exists_runFiles_singleton hfiles hpath
    obtain ⟨res, hres, heq⟩ :=
      Except.map_eq_ok.mp ((runFiles_singleton_file hd hg).symm.trans hchild)
    obtain ⟨rfl, rfl⟩ := Prod.mk.inj heq
    rw [runFile_eq] at hres
    obtain ⟨⟨run', findings'⟩, hrun', rfl⟩ := Except.map_eq_ok.mp hres
    refine ⟨run', findings', hrun', fun x hx => hwalk ?_,
      fun x hx => hfindings (hfound (hnoted hx))⟩
    obtain ⟨before, after, rfl⟩ := List.append_of_mem (hsub List.mem_cons_self)
    rw [RunFile.walkStatements_append, RunFile.walkStatements_cons]
    refine List.mem_append_right _ (List.mem_cons_of_mem _ (List.mem_append_left _ ?_))
    exact RunFile.mem_walkChildren.mpr ⟨_, hchildren List.mem_cons_self, hx⟩

/-- Each file of a run is the run of a file that it gets to. -/
theorem exists_of_includes {res : Resolution} (hres : runFile files t c = .ok res) {rf : RunFile}
    (hrf : res.run.Includes rf) :
    ∃ fs cf f findings, Visits files t c fs cf f ∧ rf.path = f.path ∧
      runStatements files f.statements f.path.directory cf = .ok (rf.statements, findings) := by
  have hself : ∀ {f : ControlFile} {c : Context} {res : Resolution}, runFile files f c = .ok res →
      res.run.path = f.path ∧ ∃ findings, runStatements files f.statements f.path.directory
        (setFile files f c) = .ok (res.run.statements, findings) := by
    intro f c res hres
    refine ⟨runFile_path hres, ?_⟩
    rw [runFile_eq] at hres
    obtain ⟨⟨run, findings⟩, hrun, rfl⟩ := Except.map_eq_ok.mp hres
    exact ⟨findings, hrun⟩
  induction hrf with
  | root =>
    obtain ⟨hpath, findings, hrun⟩ := hself hres
    exact ⟨[t], _, t, findings, .root, hpath, hrun⟩
  | @child rf rg hrf hrg ih =>
    obtain ⟨fs, cf, f, findings, hvisit, -, hrun⟩ := ih
    obtain ⟨r, hr, hrg⟩ := List.mem_flatMap.mp hrg
    obtain ⟨x, hx, hfile⟩ := List.mem_filterMap.mp hrg
    obtain ⟨s, hs, hactive, found, hactiveRun⟩ := exists_of_mem_runStatements hrun hr
    obtain ⟨hbecomes, -, hchildren⟩ := runActive_eq_ok hactiveRun
    split at hchildren
    · rename_i hkind
      obtain ⟨path, hpath, d, found, hd, hd'⟩ := exists_of_mem_runFiles hchildren hx
      cases x with
      | table table => cases hfile
      | file rg' =>
        obtain rfl := Option.some.inj hfile
        obtain ⟨g, res', hg, hres', rfl⟩ := exists_of_runContent hd'
        obtain ⟨hpath', findings', hrun'⟩ := hself hres'
        exact ⟨fs ++ [g], _, g, findings',
          .child hvisit hs hkind hactive hbecomes.value hpath hd hg, hpath', hrun'⟩
    · obtain ⟨hnil, -⟩ := Prod.mk.inj (Except.ok.inj hchildren)
      rw [← hnil] at hx
      cases hx

/-- A statement in force that refers to files is in the run of the tree, with what its files come
to. -/
theorem exists_runStatement (h : Visits files t c fs cf f) {res : Resolution}
    (hres : runFile files t c = .ok res) (hs : s ∈ f.statements) (hkind : s.kind.hasChild = true)
    (hactive : cf.isActive s.scope = true) :
    ∃ r ∈ res.run.walk, ∃ found, found ⊆ res.findings ∧ Becomes files f.path.directory cf s r ∧
      runFiles s (runChildren files s.children) cf r.files = .ok (r.children, found) := by
  obtain ⟨run, findings, hrun, hwalk, hfindings⟩ := h.exists_runStatements hres
  obtain ⟨here, found, hhere, hsub, hfound⟩ := Resolve.exists_runStatement hrun hs
  obtain ⟨r, rfl, hbecomes, hfiles⟩ := exists_runFiles hkind hactive hhere
  obtain ⟨before, after, rfl⟩ := List.append_of_mem (hsub List.mem_cons_self)
  refine ⟨r, hwalk ?_, found, List.Subset.trans hfound hfindings, hbecomes, hfiles⟩
  rw [RunFile.walkStatements_append, RunFile.walkStatements_cons]
  exact List.mem_append_right _ List.mem_cons_self

end Visits

end Resolve

end ControlFiles
