import ControlFiles.Proofs.ControlFile.Chains
import ControlFiles.Proofs.Reference.Searching
import ControlFiles.Proofs.Run.Confinement

/-!
# Which child a reference has in a run

Loading keeps a child for each file that it finds for a reference. A run takes the first of them
that is written like the path that the reference comes to, with letters of either case
(`Resolve.childAt?`), and has what that child comes to (`runs_first`). This is the child that was
loaded from the path, unless another one that is written alike comes before it
(`not_childrenMatch`): a statement never has two children with one path
(`ControlFile.Chain.nodup_children`).
-/

namespace ControlFiles

namespace Load

/-- A reference does not name a file twice. -/
theorem nodup_targets {files : Files Id} {base : Path} {template : Text} {paths : List Path}
    (h : targets files base template = .ok paths) : paths.Nodup := by
  rw [targets] at h
  split at h
  · exact (Reference.ascending_of_searchAll h List.Pairwise.nil).nodup
  · obtain rfl := Except.ok.inj h
    exact List.nodup_singleton _

/-- The children of a statement of a loaded file have different paths. -/
theorem IsLoaded.nodup_children {files : Files Id} {o : LoadOptions} {c : Candidates} {budget : Nat}
    {chain : List Path} {path : Path} {kind : FileKind} {f : ControlFile}
    (h : IsLoaded files o c budget chain path kind f) {s : Statement} (hs : s ∈ f.statements) :
    (s.children.map Child.path).Nodup := by
  obtain ⟨real, s₀, -, -, hnone, rfl, -⟩ := h.exists_of_mem hs
  have hassign : ∀ s : Statement,
      (Variants.assignStatement c s).children.map Child.path = s.children.map Child.path := by
    simp [Variants.assignStatement, Variants.assignChild, Function.comp_def]
  rw [hassign, follow]
  split
  · obtain ⟨-, heq⟩ | ⟨template, -, -, ⟨-, reason, heq⟩ | ⟨paths, htargets, -, heq⟩⟩ :=
      statement_cases files o path.directory (opener files o budget (chain ++ [real])) s₀
    · simp [heq, hnone]
    · simp [heq, hnone]
    · simp only [heq, List.map_filterMap, Option.map_map]
      refine (nodup_targets htargets).filterMap fun p q b hp hq => ?_
      obtain ⟨_, _, hp⟩ := Option.map_eq_some_iff.mp hp
      obtain ⟨_, _, hq⟩ := Option.map_eq_some_iff.mp hq
      exact hp.trans hq.symm
  · simp [hnone]

end Load

theorem ControlFile.Chain.nodup_children {store : Store} {o : LoadOptions} {root : Path}
    {t g : ControlFile} {fs : List ControlFile} (ht : load store.files o root = .ok t)
    (hchain : t.Chain fs g) {s : Statement} (hs : s ∈ g.statements) :
    (s.children.map Child.path).Nodup := by
  obtain ⟨c, hloaded⟩ := isLoaded_of_load ht
  obtain ⟨_, _, _, hg, -⟩ := hloaded.of_chain hchain
  exact hg.nodup_children hs

open Resolve

/-- The children of a statement of a run are what the content of a child comes to: nothing, if it
could not be loaded. -/
def ComesTo (files : Files Id) (content : Content) (c : Context) (children : List RunChild) :
    Prop :=
  ∃ ran, runContent files content c = .ok ran ∧
    match ran with
    | .run child _ => children = [child]
    | .missing _ => children = []

/-- The statement of a file that a run of the tree gets to becomes the one of the run. -/
structure RunsTo (files : Files Id) (t : ControlFile) (c : Context) (fs : List ControlFile)
    (cg : Context) (g : ControlFile) (s : Statement) (r : RunStatement) : Prop where
  visits : Visits files t c fs cg g
  mem : s ∈ g.statements
  active : cg.isActive s.scope = true
  runs : ∃ found,
    runActive files g.path.directory s (runChildren files s.children) cg = .ok (r, found)

/-- Each statement of a run is what some statement becomes. -/
theorem exists_runsTo {files : Files Id} {t : ControlFile} {c : Context} {res : Resolution}
    (hres : runFile files t c = .ok res) {rf : RunFile} (hrf : res.run.Includes rf)
    {r : RunStatement} (hr : r ∈ rf.statements) :
    ∃ fs cg g s, RunsTo files t c fs cg g s r ∧ rf.path = g.path := by
  obtain ⟨fs, cg, g, findings, hvisit, hpath, hrun⟩ := Visits.exists_of_includes hres hrf
  obtain ⟨s, hs, hactive, found, hr⟩ := exists_of_mem_runStatements hrun hr
  exact ⟨fs, cg, g, s, ⟨hvisit, hs, hactive, found, hr⟩, hpath⟩

namespace RunsTo

variable {store : Store} {o : LoadOptions} {root path : Path} {t g : ControlFile} {c cg : Context}
  {fs : List ControlFile} {s : Statement} {r : RunStatement} {d first : Child}

theorem becomes (h : RunsTo store.files t c fs cg g s r) :
    Becomes store.files g.path.directory cg s r := by
  obtain ⟨found, hr⟩ := h.runs
  exact (runActive_ok hr).1

/-- A reference has what the first child that is written like its path comes to. -/
theorem comesTo_first (h : RunsTo store.files t c fs cg g s r) (hkind : r.kind.hasChild = true)
    (hpath : path ∈ r.files) (hfirst : childAt? s.children path = some first) :
    ComesTo store.files first.content cg r.children := by
  have hs : s.kind.hasChild = true := h.becomes.kind ▸ hkind
  have hfiles : r.files = [path] := by
    have hlength := length_paths_of_hasChild hs h.becomes.value
    cases hr : r.files with
    | nil => rw [hr] at hpath; cases hpath
    | cons first rest =>
      rw [hr] at hpath hlength
      obtain rfl := List.length_eq_zero_iff.mp (Nat.le_zero.mp (Nat.le_of_succ_le_succ hlength))
      rw [List.mem_singleton.mp hpath]
  obtain ⟨found, hr⟩ := h.runs
  obtain ⟨-, -, hrun⟩ := runActive_eq_ok hr
  rw [if_pos hs, hfiles] at hrun
  have hfind : findChild (runChildren store.files s.children) path =
      some (runContent store.files first.content) := by
    rw [findChild_runChildren, hfirst]
    rfl
  rw [runFiles_singleton_some hfind] at hrun
  obtain ⟨ran, hran, heq⟩ := Except.map_eq_ok.mp hrun
  refine ⟨ran, hran, ?_⟩
  cases ran <;> exact (Prod.mk.inj heq).1.symm

/-- Two children of which the first is a file come to the same only if they are the same. -/
theorem eq_of_comesTo (h : RunsTo store.files t c fs cg g s r)
    (ht : ControlFile.load store.files o root = .ok t) (hfirst : first ∈ s.children)
    (hd : d ∈ s.children) {f : ControlFile} (hf : d.content = .file f)
    (hcomes : ComesTo store.files first.content cg r.children)
    (hcomes' : ComesTo store.files d.content cg r.children) : first = d := by
  obtain ⟨ran', hran', hchildren'⟩ := hcomes'
  rw [hf] at hran'
  obtain ⟨res', hres', rfl⟩ := Except.map_eq_ok.mp hran'
  obtain ⟨ran, hran, hchildren⟩ := hcomes
  have hrun : ∃ found, ran = .run (.file res'.run) found := by
    cases ran with
    | missing why => cases hchildren.symm.trans hchildren'
    | run child found =>
      obtain rfl := List.singleton_inj.mp (hchildren.symm.trans hchildren')
      exact ⟨found, rfl⟩
  obtain ⟨found, rfl⟩ := hrun
  obtain ⟨f', res, hf', hres, hsame⟩ := exists_of_runContent hran
  have hpaths : first.path = d.path := by
    calc first.path = f'.path := (h.visits.chain.path_of_child ht h.mem hfirst hf').symm
      _ = res.run.path := (runFile_path hres).symm
      _ = res'.run.path := congrArg RunFile.path hsame
      _ = f.path := runFile_path hres'
      _ = d.path := h.visits.chain.path_of_child ht h.mem hd hf
  exact List.inj_on_of_nodup_map (h.visits.chain.nodup_children ht h.mem) hfirst hd hpaths

end RunsTo

/-- In a run of a loaded tree each statement is what a statement of a file becomes that the run gets
to. If one of its children was loaded from a path that its reference comes to, it has what the first
child comes to that is written like this path. That is the child itself, and not another one's file,
exactly if it is the first; and so if every child that is written alike has its path. -/
theorem runs_first {store : Store} {o : LoadOptions} {root : Path} {t : ControlFile} {c : Context}
    {res : Resolution} (ht : ControlFile.load store.files o root = .ok t)
    (hres : t.resolve store.files c = .ok res) :
    (∀ rf, res.run.Includes rf → ∀ r ∈ rf.statements, ∃ fs cg g s,
      RunsTo store.files t (rootContext t c) fs cg g s r ∧ rf.path = g.path) ∧
    ∀ fs cg g s r, RunsTo store.files t (rootContext t c) fs cg g s r → r.kind.hasChild = true →
      ∀ d ∈ s.children, d.path ∈ r.files →
        ∃ first, childAt? s.children d.path = some first ∧
          ComesTo store.files first.content cg r.children ∧
          (∀ f, d.content = .file f →
            (ComesTo store.files d.content cg r.children ↔ first = d)) ∧
          ((∀ e ∈ s.children, Path.key e.path.text = Path.key d.path.text → e.path = d.path) →
            ComesTo store.files d.content cg r.children) := by
  refine ⟨fun rf hrf r hr => exists_runsTo hres hrf hr, ?_⟩
  intro fs cg g s r h hkind d hd hpath
  obtain ⟨first, hfirst⟩ : ∃ first, childAt? s.children d.path = some first :=
    Option.isSome_iff_exists.mp (List.find?_isSome.mpr ⟨d, hd, by simp⟩)
  have hmem := List.mem_of_find?_eq_some hfirst
  have hkey : Path.key first.path.text = Path.key d.path.text := by
    simpa using List.find?_some hfirst
  have hcomes := h.comesTo_first hkind hpath hfirst
  refine ⟨first, hfirst, hcomes, fun f hf => ⟨h.eq_of_comesTo ht hmem hd hf hcomes, ?_⟩,
    fun hunique => ?_⟩
  · rintro rfl
    exact hcomes
  · have hsame : first = d := List.inj_on_of_nodup_map
      (h.visits.chain.nodup_children ht h.mem) hmem hd (hunique first hmem hkey)
    exact hsame ▸ hcomes

/-! ## References in the root -/

/-- Some statement of the root that refers to files passes a check, with what it becomes. -/
def RunsTo.checks (store : Store) (t : ControlFile) (cg : Context)
    (check : Statement → RunStatement → Bool) : Bool :=
  t.statements.any fun s => cg.isActive s.scope &&
    (Except.toOption (runActive (m := Id) store.files t.path.directory s
      (runChildren store.files s.children) cg)).any fun ran => ran.1.kind.hasChild && check s ran.1

theorem RunsTo.exists_of_checks {store : Store} {t : ControlFile} {c : Context}
    {check : Statement → RunStatement → Bool}
    (h : checks store t (setFile store.files t c) check = true) :
    ∃ s r, RunsTo store.files t c [t] (setFile store.files t c) t s r ∧
      r.kind.hasChild = true ∧ check s r = true := by
  simp only [checks, List.any_eq_true, Bool.and_eq_true, Except.toOption_any_iff] at h
  obtain ⟨s, hs, hactive, ⟨r, found⟩, hr, hkind, hcheck⟩ := h
  exact ⟨s, r, ⟨.root, hs, hactive, found, hr⟩, hkind, hcheck⟩

/-- Two files are found for a reference, and the run has the one that its name selects. -/
theorem runs_first_variant :
    let store := Store.ofList [
      (⟨"/m/m.tcf"⟩, "Geometry Control File == geo_<<~s1~>>.tgc\n"),
      (⟨"/m/geo_A.tgc"⟩, "X == 1\n"), (⟨"/m/geo_b.tgc"⟩, "X == 2\n")]
    ∃ t res fs cg g s r d f, ControlFile.load store.files .standard ⟨"/m/m.tcf"⟩ = .ok t ∧
      t.resolve store.files (.ofChosen ⟨["b"], []⟩) = .ok res ∧
      RunsTo store.files t (rootContext t (.ofChosen ⟨["b"], []⟩)) fs cg g s r ∧
      r.kind.hasChild = true ∧ s.children.length = 2 ∧ d ∈ s.children ∧ d.path ∈ r.files ∧
      d.content = .file f ∧ ComesTo store.files d.content cg r.children := by
  intro store
  have hrun : ((ControlFile.load store.files .standard ⟨"/m/m.tcf"⟩).toOption.any fun t =>
      (t.resolve store.files (.ofChosen ⟨["b"], []⟩)).toOption.isSome &&
        RunsTo.checks store t (setFile store.files t (rootContext t (.ofChosen ⟨["b"], []⟩)))
          fun s r => s.children.length == 2 && s.children.any fun d =>
            r.files.contains d.path && d.content.file?.isSome && s.children.all fun e =>
              Path.key e.path.text != Path.key d.path.text || e.path == d.path) = true := by
    decide +kernel
  obtain ⟨t, ht, hrun⟩ := Except.toOption_any_iff.mp hrun
  obtain ⟨hres, hchecks⟩ := Bool.and_eq_true_iff.mp hrun
  obtain ⟨res, hres⟩ := Except.toOption_isSome_iff.mp hres
  obtain ⟨s, r, hruns, hkind, hcheck⟩ := RunsTo.exists_of_checks hchecks
  simp only [Bool.and_eq_true, beq_iff_eq, List.any_eq_true, List.all_eq_true, Bool.or_eq_true,
    bne_iff_ne, List.contains_iff_mem, Option.isSome_iff_exists] at hcheck
  obtain ⟨hlength, d, hd, ⟨hpath, f, hf⟩, hunique⟩ := hcheck
  obtain ⟨first, -, -, -, hcomes⟩ := (runs_first ht hres).2 _ _ _ s r hruns hkind d hd hpath
  exact ⟨t, res, _, _, t, s, r, d, f, ht, hres, hruns, hkind, hlength, hd, hpath,
    Content.file?_eq_some.mp hf, hcomes fun e he hkey => (hunique e he).resolve_left (absurd hkey)⟩

/-- In every run of a loaded tree, a statement that refers to a path from which one of its children
was loaded has what this child comes to. -/
def ChildrenMatch : Prop :=
  ∀ (files : List (Path × Text)) (root : Path) (t : ControlFile) (c : Context) (res : Resolution)
    (fs : List ControlFile) (cg : Context) (g : ControlFile) (s : Statement) (r : RunStatement),
    ControlFile.load (Store.ofList files).files .standard root = .ok t →
      t.resolve (Store.ofList files).files c = .ok res →
        RunsTo (Store.ofList files).files t (rootContext t c) fs cg g s r →
          r.kind.hasChild = true → ∀ d ∈ s.children, d.path ∈ r.files →
            ComesTo (Store.ofList files).files d.content cg r.children

/-- Some child of a root was loaded from the path that its reference comes to, and is not in the
run. -/
theorem not_childrenMatch_of_any (files : List (Path × Text)) (root : Path) (c : Context)
    (h : ((ControlFile.load (Store.ofList files).files .standard root).toOption.any fun t =>
      (t.resolve (Store.ofList files).files c).toOption.isSome &&
        RunsTo.checks (.ofList files) t (setFile (Store.ofList files).files t (rootContext t c))
          fun s r => s.children.any fun d => r.files.contains d.path &&
            d.content.file?.any (·.path == d.path) &&
              r.children.all fun child => child.file?.all (·.path != d.path)) = true) :
    ¬ ChildrenMatch := by
  intro hall
  obtain ⟨t, ht, h⟩ := Except.toOption_any_iff.mp h
  obtain ⟨hres, hchecks⟩ := Bool.and_eq_true_iff.mp h
  obtain ⟨res, hres⟩ := Except.toOption_isSome_iff.mp hres
  obtain ⟨s, r, hruns, hkind, hcheck⟩ := RunsTo.exists_of_checks hchecks
  simp only [Bool.and_eq_true, beq_iff_eq, List.any_eq_true, List.all_eq_true, bne_iff_ne,
    List.contains_iff_mem, Option.any_eq_true, Option.all_eq_true] at hcheck
  obtain ⟨d, hd, ⟨hpath, f, hf, hfpath⟩, hnone⟩ := hcheck
  obtain ⟨ran, hran, hchildren⟩ := hall files root t c res _ _ t s r ht hres hruns hkind d hd
    hpath
  rw [Content.file?_eq_some.mp hf] at hran
  obtain ⟨res', hres', rfl⟩ := Except.map_eq_ok.mp hran
  have hmem : RunChild.file res'.run ∈ r.children := hchildren ▸ List.mem_singleton_self _
  exact hnone _ hmem _ rfl ((runFile_path hres').trans hfpath)

/-- Two files have names that differ in case only: the run has the one that comes first, though the
other one is named. -/
theorem not_childrenMatch : ¬ ChildrenMatch :=
  not_childrenMatch_of_any [
    (⟨"/m/m.tcf"⟩, "Geometry Control File == geo_<<~s1~>>.tgc\n"),
    (⟨"/m/geo_A.tgc"⟩, "X == 1\n"), (⟨"/m/geo_a.tgc"⟩, "X == 2\n")]
    ⟨"/m/m.tcf"⟩ (.ofChosen ⟨["a"], []⟩) (by decide +kernel)

end ControlFiles
