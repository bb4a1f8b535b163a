import ControlFiles.Proofs.Reference.Searching
import ControlFiles.Proofs.Run.Visiting

/-!
# References that a run selects

A run that puts values for all tokens of a reference comes to one path, and loading has met it or
not. `Selects` gathers what there is to expect of such a reference: the path can be read, and
loading would follow a reference to it. Its statement in the run then has the file for its only
child exactly if loading foresees the path (`carries_iff_foresees`), as it does for a reference that
search can meet, under a name that is the only one of its kind (`Foreseeable`).

Not every reference is like that (`not_selectedCarried`): the text of the directory and a slash are
put in front of every pattern, also of an absolute one, and also where the directory has no text;
and two tokens in a row make no pattern at all.
-/

namespace ControlFiles

open Resolve

/-- The path that a reference with the value `raw` comes to in a file. -/
def ControlFile.selected (g : ControlFile) (c : Context) (raw : Text) : Path :=
  g.path.directory.resolve (c.substitute raw)

/-- A run of a tree that was loaded gets to the file at the end of a chain and selects a control
file there: a statement in force refers to it, no token is left in its value, the file can be read,
it is not on the chain, and the chain is not too long for it. -/
structure Selects (store : Store) (o : LoadOptions) (t : ControlFile) (c : Context)
    (fs : List ControlFile) (cg : Context) (g : ControlFile) (s : Statement) (raw : Text) :
    Prop where
  visits : Visits store.files t c fs cg g
  mem : s ∈ g.statements
  isReference : ∃ kind, s.kind = .controlFileReference kind
  value : s.value = some raw
  active : cg.isActive s.scope = true
  plain : Text.hasTokens (cg.substitute raw) = false
  parses : store.Parses o.marks (g.selected cg raw)
  new : (g.selected cg raw).normalize ∉ canonicalPaths fs
  depth : fs.length ≤ o.maxDepth

/-- A statement of the run has the run of the loaded file with the path for its only child, and
nothing is noted about its files but what is noted in that one. -/
def Carries (files : Files Id) (s : Statement) (c : Context) (path : Path) (r : RunStatement)
    (found : List Finding) : Prop :=
  ∃ d ∈ s.children, ∃ f res, d.content = .file f ∧ f.path = path ∧ runFile files f c = .ok res ∧
    r.children = [.file res.run] ∧ found = res.findings

/-- What loading can tell of a reference before there is a run: the events leave it as it is, and if
it has tokens, search meets what they stand for, which no other file is written like. -/
structure Foreseeable (store : Store) (base : Path) (raw : Text) (c : Context) : Prop where
  events : c.replaceEvents raw = raw
  searchable : Text.hasTokens raw = true → Reference.Searchable base raw c.substitutions
  unique : Text.hasTokens raw = true → ∀ q ∈ store.paths,
    Path.key q.text = Path.key (base.resolve (c.substitute raw)).text →
      q = base.resolve (c.substitute raw)

theorem Foreseeable.foresees {files : List (Path × Text)} {base : Path} {raw : Text} {c : Context}
    (h : Foreseeable (.ofList files) base raw c)
    (hplain : Text.hasTokens (c.substitute raw) = false)
    (hstored : base.resolve (c.substitute raw) ∈ (Store.ofList files).paths) :
    Load.Foresees (.ofList files) base raw (base.resolve (c.substitute raw)) := by
  have hunique := h.unique
  have hsubstitute : c.substitute raw = c.substitutions.expand raw := by
    rw [Context.substitute, h.events]
  rw [hsubstitute] at hplain hstored hunique ⊢
  by_cases hraw : Text.hasTokens raw = true
  · exact Load.foresees_of_searchable (h.searchable hraw) hplain hstored (hunique hraw)
  · exact Load.foresees_of_not_hasTokens (by simpa using hraw)

namespace Resolve

/-- Without tokens, the value of a reference to control files names one path. -/
theorem value_of_plain {files : Files Id} {base : Path} {c : Context} {s : Statement}
    {kind : FileKind} {raw : Text} (hkind : s.kind = .controlFileReference kind)
    (hvalue : s.value = some raw) (hplain : Text.hasTokens (c.substitute raw) = false) :
    value files base c s = .ok (some (c.substitute raw), [base.resolve (c.substitute raw)]) := by
  have hchild : s.kind.hasChild = true := by rw [hkind]; rfl
  have hknown : Means files base c s _ _ := .known hvalue hplain
  rw [if_pos (namesFiles_of_hasChild hchild), segments_of_hasChild hchild, List.map_singleton,
    Path.resolve, Text.trim_trim] at hknown
  exact value_eq_ok_iff.mpr hknown

end Resolve

namespace Selects

variable {store : Store} {o : LoadOptions} {root : Path} {t g : ControlFile} {c cg : Context}
  {fs : List ControlFile} {s : Statement} {raw : Text} {r : RunStatement} {found : List Finding}

/-- The first child with the path of a selected reference has that very path exactly if loading
foresees it. -/
theorem childAt?_iff (h : Selects store o t c fs cg g s raw)
    (ht : ControlFile.load store.files o root = .ok t) (hfollow : o.followReferences = true) :
    (∃ d, childAt? s.children (g.selected cg raw) = some d ∧ d.path = g.selected cg raw) ↔
      Load.Foresees store g.path.directory raw (g.selected cg raw) := by
  obtain ⟨kind, hkind⟩ := h.isReference
  obtain ⟨hpaths, htargets, -⟩ := h.visits.chain.children ht hfollow h.mem hkind h.value
  have hfind : ∀ path, (s.children.map Child.path).find?
      (fun p => Path.key p.text = Path.key path.text) = (childAt? s.children path).map Child.path :=
    fun path => List.find?_map
  constructor
  · rintro ⟨d, hd, hpath⟩
    obtain ⟨paths, htarget⟩ := htargets (List.ne_nil_of_mem (List.mem_of_find?_eq_some hd))
    refine ⟨paths, htarget, ?_⟩
    rw [← hpaths paths htarget, hfind, hd, Option.map_some, hpath]
  · rintro ⟨paths, htarget, hpath⟩
    rw [← hpaths paths htarget, hfind, Option.map_eq_some_iff] at hpath
    exact hpath

/-- The child of a selected reference that has its path is a file with that path. -/
theorem exists_file (h : Selects store o t c fs cg g s raw)
    (ht : ControlFile.load store.files o root = .ok t) (hfollow : o.followReferences = true)
    {d : Child} (hd : d ∈ s.children) (hpath : d.path = g.selected cg raw) :
    ∃ f, d.content = .file f ∧ f.path = g.selected cg raw := by
  obtain ⟨kind, hkind⟩ := h.isReference
  obtain ⟨-, -, hcontent⟩ := h.visits.chain.children ht hfollow h.mem hkind h.value
  have hrefusal : o.refusal? (canonicalPaths fs) d.path = none := by
    have hlength : ¬ o.maxDepth < (canonicalPaths fs).length := by
      rw [canonicalPaths, List.length_map]
      exact Nat.not_lt.mpr h.depth
    rw [LoadOptions.refusal?, if_neg hlength, hpath, if_neg h.new]
  have hfile := hcontent d hd
  rw [hrefusal] at hfile
  obtain ⟨f, hf⟩ := hfile.mpr (hpath ▸ h.parses)
  exact ⟨f, hf, (h.visits.chain.path_of_child ht h.mem hd hf).trans hpath⟩

/-- The statement of the run carries the file exactly if the first child with the path of the
reference has that very path. -/
theorem carries_iff (h : Selects store o t c fs cg g s raw)
    (ht : ControlFile.load store.files o root = .ok t) (hfollow : o.followReferences = true)
    (hrun : runFiles s (runChildren store.files s.children) cg [g.selected cg raw] =
      .ok (r.children, found)) :
    Carries store.files s cg (g.selected cg raw) r found ↔
      ∃ d, childAt? s.children (g.selected cg raw) = some d ∧ d.path = g.selected cg raw := by
  constructor
  · rintro ⟨-, -, f, res, -, hf, hres, hchildren, -⟩
    rw [hchildren] at hrun
    obtain ⟨d, f', hd, hcontent⟩ := exists_child_of_runFiles hrun
    obtain ⟨res', hres', heq⟩ :=
      Except.map_eq_ok.mp ((runFiles_singleton_file hd hcontent).symm.trans hrun)
    have hsame : res'.run = res.run :=
      RunChild.file.inj (List.singleton_inj.mp (Prod.mk.inj heq).1)
    have hpath := h.visits.chain.path_of_child ht h.mem (List.mem_of_find?_eq_some hd) hcontent
    refine ⟨d, hd, ?_⟩
    calc d.path = res'.run.path := by rw [runFile_path hres', hpath]
      _ = f.path := by rw [hsame, runFile_path hres]
      _ = g.selected cg raw := hf
  · rintro ⟨d, hd, hpath⟩
    have hmem := List.mem_of_find?_eq_some hd
    obtain ⟨f, hcontent, hf⟩ := h.exists_file ht hfollow hmem hpath
    obtain ⟨res, hres, heq⟩ :=
      Except.map_eq_ok.mp ((runFiles_singleton_file hd hcontent).symm.trans hrun)
    obtain ⟨hchildren, hfound⟩ := Prod.mk.inj heq
    exact ⟨d, hmem, f, res, hcontent, hf, hres, hchildren.symm, hfound.symm⟩

end Selects

/-- A control file that a run selects is carried by the statement of the run that refers to it
exactly if it is the first of the files found for the reference that is written like the selected
one; and it is, if loading can tell what the reference may stand for. -/
theorem carries_iff_foresees (files : List (Path × Text)) (o : LoadOptions) (root : Path)
    (t : ControlFile) (c : Context) (res : Resolution)
    (ht : ControlFile.load (Store.ofList files).files o root = .ok t)
    (hfollow : o.followReferences = true)
    (hres : t.resolve (Store.ofList files).files c = .ok res)
    (fs : List ControlFile) (cg : Context) (g : ControlFile) (s : Statement) (raw : Text)
    (h : Selects (.ofList files) o t (rootContext t c) fs cg g s raw) :
    ∃ r ∈ res.run.walk, ∃ found, found ⊆ res.findings ∧
      Becomes (Store.ofList files).files g.path.directory cg s r ∧ r.files = [g.selected cg raw] ∧
      runFiles s (runChildren (Store.ofList files).files s.children) cg r.files =
        .ok (r.children, found) ∧
      (Carries (Store.ofList files).files s cg (g.selected cg raw) r found ↔
        Load.Foresees (.ofList files) g.path.directory raw (g.selected cg raw)) ∧
      (Foreseeable (.ofList files) g.path.directory raw cg →
        Carries (Store.ofList files).files s cg (g.selected cg raw) r found) := by
  obtain ⟨kind, hkind⟩ := h.isReference
  have hchild : s.kind.hasChild = true := by rw [hkind]; rfl
  obtain ⟨r, hr, found, hfound, hbecomes, hrun⟩ :=
    h.visits.exists_runStatement hres h.mem hchild h.active
  have hvalue := hbecomes.value.symm.trans (value_of_plain hkind h.value h.plain)
  have hfiles : r.files = [g.selected cg raw] := (Prod.mk.inj (Except.ok.inj hvalue)).2
  have hiff : Carries (Store.ofList files).files s cg (g.selected cg raw) r found ↔
      Load.Foresees (.ofList files) g.path.directory raw (g.selected cg raw) :=
    (h.carries_iff ht hfollow (hfiles ▸ hrun)).trans (h.childAt?_iff ht hfollow)
  refine ⟨r, hr, found, hfound, hbecomes, hfiles, hrun, hiff, fun hforeseeable => ?_⟩
  obtain ⟨text, -, htext, -⟩ := h.parses
  have hstored := Store.mem_paths_of_read htext
  rw [ControlFile.selected, Path.resolve, Path.normalize_normalize] at hstored
  exact hiff.mpr (hforeseeable.foresees h.plain hstored)

/-! ## One reference in the root -/

namespace Selects

/-- The checks that a statement of the root is a selected reference. -/
def checks (store : Store) (o : LoadOptions) (t : ControlFile) (cg : Context) (s : Statement)
    (kind : FileKind) (raw : Text) : Bool :=
  s.kind == .controlFileReference kind && s.value == some raw && cg.isActive s.scope &&
    !Text.hasTokens (cg.substitute raw) &&
    ((store.read (t.selected cg raw)).toOption.any fun text =>
      (readStatements (.ofPath o.marks (t.selected cg raw)) text).toOption.isSome) &&
    !(canonicalPaths [t]).contains (t.selected cg raw).normalize && decide (1 ≤ o.maxDepth)

theorem of_checks {store : Store} {o : LoadOptions} {t : ControlFile} {c : Context} {s : Statement}
    {kind : FileKind} {raw : Text} (hs : s ∈ t.statements)
    (h : checks store o t (setFile store.files t c) s kind raw = true) :
    Selects store o t c [t] (setFile store.files t c) t s raw := by
  simp only [checks, Bool.and_eq_true, beq_iff_eq, Bool.not_eq_true', decide_eq_true_eq,
    List.contains_eq_mem, decide_eq_false_iff_not] at h
  obtain ⟨⟨⟨⟨⟨⟨hkind, hvalue⟩, hactive⟩, hplain⟩, hparses⟩, hnew⟩, hdepth⟩ := h
  obtain ⟨text, htext, hparses⟩ := Except.toOption_any_iff.mp hparses
  obtain ⟨ss, hss⟩ := Except.toOption_isSome_iff.mp hparses
  exact ⟨.root, hs, ⟨kind, hkind⟩, hvalue, hactive, hplain, ⟨text, ss, htext, hss⟩, hnew, hdepth⟩

end Selects

/-- A variant that a scenario selects is foreseen and carried. -/
theorem carries_iff_foresees_variant :
    let store := Store.ofList [
      (⟨"/m/a.tcf"⟩, "Geometry Control File == geo_<<~s1~>>.tgc\n"), (⟨"/m/geo_A.tgc"⟩, "X == 1\n"),
      (⟨"/m/geo_B.tgc"⟩, "X == 2\n")]
    ∃ t res, ControlFile.load store.files .standard ⟨"/m/a.tcf"⟩ = .ok t ∧
      t.resolve store.files (.ofChosen ⟨["A"], []⟩) = .ok res ∧
      ∃ r ∈ res.run.walk, ∃ f, r.children = [.file f] ∧ f.path = ⟨"/m/geo_A.tgc"⟩ := by
  intro store
  have hrun : ((ControlFile.load store.files .standard ⟨"/m/a.tcf"⟩).toOption.any fun t =>
      t.path == ⟨"/m/a.tcf"⟩ &&
        (t.resolve store.files (.ofChosen ⟨["A"], []⟩)).toOption.isSome &&
        t.statements.any fun s =>
          let cg : Context := setFile store.files t (rootContext t (.ofChosen ⟨["A"], []⟩))
          cg == ⟨⟨["A"], []⟩, .empty, []⟩ &&
            Selects.checks store .standard t cg s .tgc "geo_<<~s1~>>.tgc") = true := by
    decide +kernel
  obtain ⟨t, ht, hrun⟩ := Except.toOption_any_iff.mp hrun
  simp only [Bool.and_eq_true, beq_iff_eq, Except.toOption_isSome_iff, List.any_eq_true] at hrun
  obtain ⟨⟨hpath, res, hres⟩, s, hs, hcontext, hchecks⟩ := hrun
  have htokens : ((Template.ofText "geo_<<~s1~>>.tgc").all fun p =>
      (Template.token? p).all fun token =>
        (Context.substitutions ⟨⟨["A"], []⟩, .empty, []⟩ |>.get? token.name).all
          (Text.trim · == "A")) = true := by
    decide
  have hforeseeable : Foreseeable store ⟨"/m"⟩ "geo_<<~s1~>>.tgc" ⟨⟨["A"], []⟩, .empty, []⟩ := by
    refine ⟨rfl, fun _ => ⟨by decide, by decide, ?_, fun token v htoken hv => ?_⟩,
      fun _ => by decide⟩
    · rw [Template.Spaced]
      decide
    · have hvalue := List.all_eq_true.mp htokens _ htoken
      rw [Template.token?, Option.all_some, hv, Option.all_some, beq_iff_eq] at hvalue
      rw [hvalue]
      exact ⟨by decide, by decide, by decide, ⟨'A', by decide, by decide⟩⟩
  obtain ⟨r, hr, found, -, -, -, -, -, hcarries⟩ :=
    carries_iff_foresees _ .standard _ t _ res ht rfl hres _ _ _ _ _ (Selects.of_checks hs hchecks)
  have hdirectory : t.path.directory = ⟨"/m"⟩ := by rw [hpath]; decide
  rw [hcontext, hdirectory] at hcarries
  obtain ⟨d, -, f, ran, -, hf, hran, hchildren, -⟩ := hcarries hforeseeable
  refine ⟨t, res, ht, hres, r, hr, ran.run, hchildren, ?_⟩
  rw [runFile_path hran, hf, ControlFile.selected, hdirectory]
  decide

/-! ## References that are not foreseen -/

/-- In every tree that is loaded, each control file that a run selects is below a statement of the
run, and is not noted as one that was not loaded, where the directory and the reference are as
given. -/
def SelectedCarried (P : Path → Text → Prop) : Prop :=
  ∀ (files : List (Path × Text)) (root : Path) (t : ControlFile) (c : Context) (res : Resolution)
    (fs : List ControlFile) (cg : Context) (g : ControlFile) (s : Statement) (raw : Text),
    ControlFile.load (Store.ofList files).files .standard root = .ok t →
      t.resolve (Store.ofList files).files c = .ok res →
        Selects (.ofList files) .standard t (rootContext t c) fs cg g s raw →
          P g.path.directory raw →
            (∃ r ∈ res.run.walk, r.id = s.id ∧
              ∃ f, RunChild.file f ∈ r.children ∧ f.path = g.selected cg raw) ∧
            note s cg (.notLoaded (g.selected cg raw)) ∉ res.findings

/-- Some selected file of a root is below no statement of the run. -/
theorem not_selectedCarried_of_any {P : Path → Text → Prop} (files : List (Path × Text))
    (root : Path) (c : Context) (kind : FileKind) (raw : Text) (hP : P root.directory raw)
    (h : ((ControlFile.load (Store.ofList files).files .standard root).toOption.any fun t =>
      t.path == root && ((t.resolve (Store.ofList files).files c).toOption.any fun res =>
        res.run.walk.all (·.children.isEmpty)) && t.statements.any fun s =>
          Selects.checks (.ofList files) .standard t
            (setFile (Store.ofList files).files t (rootContext t c)) s kind raw) = true) :
    ¬ SelectedCarried P := by
  intro hall
  obtain ⟨t, ht, h⟩ := Except.toOption_any_iff.mp h
  simp only [Bool.and_eq_true, beq_iff_eq, List.any_eq_true, Except.toOption_any_iff,
    List.all_eq_true, List.isEmpty_iff] at h
  obtain ⟨⟨rfl, res, hres, hnone⟩, s, hs, hchecks⟩ := h
  obtain ⟨⟨r, hr, -, f, hf, -⟩, -⟩ := hall files t.path t c res _ _ t s raw ht hres
    (Selects.of_checks hs hchecks) hP
  rw [hnone r hr] at hf
  cases hf

/-- It does not hold that each selected control file is in the run: a file beside the root is not
met if the root is named without a directory, nor is one that is named by its whole path, nor one
whose name is made of two values. -/
theorem not_selectedCarried :
    ¬ SelectedCarried (fun _ raw => ¬ (Path.mk raw).isAbsolute ∧ (Template.ofText raw).Spaced) ∧
      ¬ SelectedCarried (fun base raw => base.text ≠ [] ∧ (Template.ofText raw).Spaced) ∧
        ¬ SelectedCarried (fun base raw => base.text ≠ [] ∧ ¬ (Path.mk raw).isAbsolute) := by
  refine ⟨?_, ?_, ?_⟩
  · refine not_selectedCarried_of_any [
      (⟨"a.tcf"⟩, "Geometry Control File == geo_<<~s1~>>.tgc\n"), (⟨"geo_A.tgc"⟩, "X == 1\n")]
      ⟨"a.tcf"⟩ (.ofChosen ⟨["A"], []⟩) .tgc "geo_<<~s1~>>.tgc" ?_ (by decide +kernel)
    rw [Template.Spaced]
    decide
  · refine not_selectedCarried_of_any [
      (⟨"/m/a.tcf"⟩, "Geometry Control File == /m/geo_<<~s1~>>.tgc\n"),
      (⟨"/m/geo_A.tgc"⟩, "X == 1\n")]
      ⟨"/m/a.tcf"⟩ (.ofChosen ⟨["A"], []⟩) .tgc "/m/geo_<<~s1~>>.tgc" ?_ (by decide +kernel)
    rw [Template.Spaced]
    decide
  · refine not_selectedCarried_of_any [
      (⟨"/m/a.tcf"⟩, "Geometry Control File == <<~s1~>><<~s2~>>.tgc\n"),
      (⟨"/m/AB.tgc"⟩, "X == 1\n")]
      ⟨"/m/a.tcf"⟩ (.ofChosen ⟨["A", "B"], []⟩) .tgc "<<~s1~>><<~s2~>>.tgc" ?_ (by decide +kernel)
    decide

end ControlFiles
