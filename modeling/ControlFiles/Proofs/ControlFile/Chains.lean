import ControlFiles.Proofs.ControlFile.Loading
import ControlFiles.Proofs.Except
import ControlFiles.Proofs.Files.Store

/-!
# Chains of files

Each file of a loaded tree stands at the end of one chain of files that leads down to it from the
root. No chain holds a file twice, under whatever names, and no chain is longer than the loading
allows (`IsLoaded.of_chain`). The references at the end of a chain are all followed but those that
would break one of the two rules; these leave a failed child and a finding, and nothing else
(`ControlFile.Chain.children`).
-/

namespace ControlFiles

/-- Some files of a tree from its root down to one of them, each referred to by the one before. -/
inductive ControlFile.Chain (t : ControlFile) : List ControlFile → ControlFile → Prop where
  | root : Chain t [t] t
  | child {fs : List ControlFile} {f g : ControlFile} {s : Statement} {d : Child}
      (hchain : Chain t fs f) (hs : s ∈ f.statements) (hd : d ∈ s.children)
      (hg : d.content = .file g) : Chain t (fs ++ [g]) g

/-- The paths of some files without the differences in how they are written. -/
def canonicalPaths (fs : List ControlFile) : List Path := fs.map fun f => f.path.normalize

/-- Why a reference is not followed behind a chain of files. -/
def LoadOptions.refusal? (o : LoadOptions) (chain : List Path) (path : Path) :
    Option ChildFailure :=
  if o.maxDepth < chain.length then some (.tooDeep path o.maxDepth)
  else if path.normalize ∈ chain then
    some (.file (.ofFile path (.cycle ((chain ++ [path]).map Path.fileName))))
  else none

/-- The file is stored, and its text can be read as statements. -/
def Store.Parses (store : Store) (marks : Text) (path : Path) : Prop :=
  ∃ text ss, store.read path = .ok text ∧ readStatements (.ofPath marks path) text = .ok ss

namespace Load

variable {store : Store} {o : LoadOptions} {c : Candidates} {n : Nat} {root : Path}
  {kind : FileKind} {t g : ControlFile} {fs : List ControlFile}

/-- The files of a chain are found, are all different, and use up one reference each but for the
root. -/
theorem IsLoaded.of_chain (h : IsLoaded store.files o c n [] root kind t) (hchain : t.Chain fs g) :
    ∃ chain budget kind', IsLoaded store.files o c budget chain g.path kind' g ∧
      budget + chain.length = n ∧ canonicalPaths fs = chain ++ [g.path.normalize] ∧
      (canonicalPaths fs).Nodup ∧ ∀ p, p.normalize ∈ canonicalPaths fs → store.holds p = true := by
  induction hchain with
  | root =>
    obtain ⟨opened, hopened, hpath, -⟩ := h.exists_opened
    obtain ⟨real, -, -, hreal, -⟩ := openFile_ok hopened
    obtain ⟨hholds, -⟩ := Store.canonical_ok.mp hreal
    refine ⟨[], n, kind, hpath ▸ h, rfl, rfl, by simp [canonicalPaths], fun p hp => ?_⟩
    rw [canonicalPaths, List.map_singleton, List.mem_singleton, hpath] at hp
    rw [Store.holds_congr hp, hholds]
  | @child fs f g s d hchain hs hd hg ih =>
    obtain ⟨chain, budget, kind', hf, hbudget, hfs, hnodup, hholds⟩ := ih
    obtain ⟨real, budget', kind'', hreal, -, rfl, hloaded⟩ := hf.child hs hd hg
    obtain ⟨-, rfl⟩ := Store.canonical_ok.mp hreal
    rw [← hfs] at hloaded
    obtain ⟨opened, hopened, hpath, -⟩ := hloaded.exists_opened
    obtain ⟨real', -, -, hreal', hnew, -⟩ := openFile_ok hopened
    obtain ⟨hholds', rfl⟩ := Store.canonical_ok.mp hreal'
    rw [← hpath] at hloaded hnew hholds'
    have happend : canonicalPaths (fs ++ [g]) = canonicalPaths fs ++ [g.path.normalize] := by
      simp [canonicalPaths]
    refine ⟨canonicalPaths fs, budget', kind'', hloaded, ?_, happend, ?_, fun p hp => ?_⟩
    · rw [hfs, List.length_append, List.length_singleton]
      omega
    · rw [happend]
      exact List.concat_eq_append ▸ hnodup.concat hnew
    · rw [happend, List.mem_append, List.mem_singleton] at hp
      obtain hp | hp := hp
      · exact hholds p hp
      · rw [Store.holds_congr hp, hholds']

variable {chain : List Path} {budget : Nat}

/-- What opens the files that the last file of a chain refers to, refuses some paths, and opens the
others if they can be read. -/
theorem opener_eq (hbudget : budget + chain.length = o.maxDepth + 1)
    (hholds : ∀ p, p.normalize ∈ chain → store.holds p = true) (path : Path) (k : FileKind) :
    match o.refusal? chain path with
    | some why => opener store.files o budget chain path k = .error why
    | none =>
      (∃ f, opener store.files o budget chain path k = .ok f) ↔ store.Parses o.marks path := by
  rw [LoadOptions.refusal?]
  cases budget with
  | zero =>
    rw [if_pos (by omega)]
    rfl
  | succ budget =>
    rw [if_neg (by omega)]
    obtain ⟨e, hreal, hopen⟩ | ⟨real, hreal, hcases⟩ := openFile_cases store.files o chain path
    · have hnot : ¬ store.holds path = true := fun hpath =>
        nomatch hreal.symm.trans (Store.canonical_ok.mpr ⟨hpath, rfl⟩)
      rw [if_neg (mt (hholds path) hnot)]
      refine iff_of_false (fun ⟨f, hf⟩ => ?_) fun ⟨text, _, htext, _⟩ =>
        hnot (Store.holds_of_read htext)
      cases (opener_succ_of_error hopen).symm.trans hf
    obtain ⟨-, rfl⟩ := Store.canonical_ok.mp hreal
    obtain ⟨hcycle, hopen⟩ | ⟨hnew, hcases⟩ := hcases
    · rw [if_pos hcycle]
      exact opener_succ_of_error hopen
    rw [if_neg hnew]
    obtain ⟨e, htext, hopen⟩ | ⟨text, htext, ⟨fault, hss, hopen⟩ | ⟨ss, hss, hopen⟩⟩ := hcases
    · refine iff_of_false (fun ⟨f, hf⟩ => ?_) fun ⟨text, _, htext', _⟩ => ?_
      · cases (opener_succ_of_error hopen).symm.trans hf
      · cases htext.symm.trans htext'
    · refine iff_of_false (fun ⟨f, hf⟩ => ?_) fun ⟨text', _, htext', hss'⟩ => ?_
      · cases (opener_succ_of_error hopen).symm.trans hf
      · obtain rfl := Except.ok.inj (htext.symm.trans htext')
        cases hss.symm.trans hss'
    · exact iff_of_true ⟨_, opener_succ_of_ok hopen⟩ ⟨text, ss, htext, hss⟩

end Load

namespace ControlFile

variable {store : Store} {o : LoadOptions} {root : Path} {t g : ControlFile}
  {fs : List ControlFile}

/-- A chain starts with the root, holds no file twice, and has at most as many references as are
followed. -/
theorem Chain.bounded (ht : load store.files o root = .ok t) (hchain : t.Chain fs g) :
    (canonicalPaths fs).Nodup ∧ fs.length ≤ o.maxDepth + 1 := by
  obtain ⟨c, hloaded⟩ := isLoaded_of_load ht
  obtain ⟨chain, budget, kind, -, hbudget, hfs, hnodup, -⟩ := hloaded.of_chain hchain
  refine ⟨hnodup, ?_⟩
  have hlength := congrArg List.length hfs
  rw [canonicalPaths, List.length_map, List.length_append, List.length_singleton] at hlength
  omega

/-- What a reference to control files at the end of a chain has for children. -/
theorem Chain.children (ht : load store.files o root = .ok t) (hchain : t.Chain fs g)
    (hfollow : o.followReferences = true) {s : Statement} (hs : s ∈ g.statements) {kind : FileKind}
    (hkind : s.kind = .controlFileReference kind) {template : Text}
    (hvalue : s.value = some template) :
    (∀ paths, Load.targets store.files g.path.directory template = .ok paths →
      s.children.map Child.path = paths) ∧
    (s.children ≠ [] →
      ∃ paths, Load.targets store.files g.path.directory template = .ok paths) ∧
    ∀ d ∈ s.children,
      match o.refusal? (canonicalPaths fs) d.path with
      | some why => d.content = .failed why ∧ Load.note s (.failed why) ∈ g.findings
      | none => (∃ f, d.content = .file f) ↔ store.Parses o.marks d.path := by
  obtain ⟨c, hloaded⟩ := isLoaded_of_load ht
  obtain ⟨chain, budget, kind', hg, hbudget, hfs, -, hholds⟩ := hloaded.of_chain hchain
  have hlength : budget + (canonicalPaths fs).length = o.maxDepth + 1 := by
    rw [hfs, List.length_append, List.length_singleton]
    omega
  obtain ⟨real, hreal, -, hpaths, htargets, hcontent⟩ :=
    hg.children_of_controlFile hfollow hs hkind hvalue
  obtain ⟨-, rfl⟩ := Store.canonical_ok.mp hreal
  rw [← hfs] at hcontent
  refine ⟨hpaths, htargets, fun d hd => ?_⟩
  obtain ⟨hcontent, hnote⟩ := hcontent d hd
  have hopener := Load.opener_eq (o := o) hlength hholds d.path kind
  split at hopener
  · rw [hopener] at hcontent
    exact ⟨hcontent, hnote _ hcontent⟩
  · rw [← hopener, hcontent]
    constructor
    · rintro ⟨f, hf⟩
      obtain ⟨f₀, hf₀, -⟩ := (Variants.assignContent_eq_file c).mp hf
      exact ⟨f₀, Load.contentOf_eq_file.mp hf₀⟩
    · rintro ⟨f, hf⟩
      rw [hf]
      exact ⟨_, rfl⟩

/-- A file below another has the path that it is referred to by. -/
theorem Chain.path_of_child (ht : load store.files o root = .ok t) (hchain : t.Chain fs g)
    {s : Statement} (hs : s ∈ g.statements) {d : Child} (hd : d ∈ s.children) {f : ControlFile}
    (hf : d.content = .file f) : f.path = d.path := by
  obtain ⟨c, hloaded⟩ := isLoaded_of_load ht
  obtain ⟨_, _, _, hg, -⟩ := hloaded.of_chain hchain
  obtain ⟨_, _, _, -, -, -, hchild⟩ := hg.child hs hd hf
  obtain ⟨-, -, hpath, -⟩ := hchild.exists_opened
  exact hpath

/-- A store yields a tree exactly if the root can be read. -/
theorem exists_load_iff : (∃ t, load store.files o root = .ok t) ↔ store.Parses o.marks root := by
  obtain ⟨fault, hload, hroot⟩ | ⟨t, real, text, ss, hload, -, htext, hss⟩ :=
    load_cases store.files o root
  · refine iff_of_false (fun ⟨t, ht⟩ => nomatch hload.symm.trans ht)
      fun ⟨text, ss, htext, hss⟩ => ?_
    obtain ⟨e, hreal⟩ | ⟨e, htext'⟩ | ⟨text', fault', htext', hss'⟩ := hroot
    · cases hreal.symm.trans (Store.canonical_ok.mpr ⟨Store.holds_of_read htext, rfl⟩)
    · cases htext'.symm.trans htext
    · obtain rfl := Except.ok.inj (htext'.symm.trans htext)
      cases hss'.symm.trans hss
  · exact iff_of_true ⟨t, hload⟩ ⟨text, ss, htext, hss⟩

/-- A store yields a tree exactly if the root can be read. Along every chain of files in it the
paths are different, and there are at most as many references as are followed. A reference of the
last file to control files has a child for each path: where the path would break one of these rules,
the failure, with a finding at the reference; otherwise the file, if it can be read. -/
theorem load_chains (store : Store) (o : LoadOptions) (root : Path) :
    ((∃ t, load store.files o root = .ok t) ↔ store.Parses o.marks root) ∧
    ∀ t, load store.files o root = .ok t → ∀ fs g, t.Chain fs g →
      (canonicalPaths fs).Nodup ∧ fs.length ≤ o.maxDepth + 1 ∧
      (o.followReferences = true → ∀ s ∈ g.statements, ∀ kind template paths,
        s.kind = .controlFileReference kind → s.value = some template →
          Load.targets store.files g.path.directory template = .ok paths →
            s.children.map Child.path = paths ∧ ∀ d ∈ s.children,
              match o.refusal? (canonicalPaths fs) d.path with
              | some why => d.content = .failed why ∧ Load.note s (.failed why) ∈ g.findings
              | none => (∃ f, d.content = .file f) ↔ store.Parses o.marks d.path) := by
  refine ⟨exists_load_iff, fun t ht fs g hchain => ?_⟩
  obtain ⟨hnodup, hlength⟩ := hchain.bounded ht
  refine ⟨hnodup, hlength, fun hfollow s hs kind template paths hkind hvalue htargets => ?_⟩
  obtain ⟨hpaths, -, hcontent⟩ := hchain.children ht hfollow hs hkind hvalue
  exact ⟨hpaths paths htargets, hcontent⟩

/-- Two files that refer to each other: the one below is loaded for each reference of the one above,
and its reference back is a finding. -/
theorem load_chains_mutual :
    let store := Store.ofList [
      (⟨"/m/a.tcf"⟩, "Geometry Control File == b.tgc\nGeometry Control File == b.tgc\n"),
      (⟨"/m/b.tgc"⟩, "Geometry Control File == ../m/a.tcf\n")]
    let why : ChildFailure := .file ⟨"/m/a.tcf", 0, .cycle ["a.tcf", "b.tgc", "a.tcf"]⟩
    ∃ t f s d, load store.files .standard ⟨"/m/a.tcf"⟩ = .ok t ∧ t.children.length = 2 ∧
      t.Chain [t, f] f ∧ s ∈ f.statements ∧ d ∈ s.children ∧ d.content = .failed why ∧
        Load.note s (.failed why) ∈ f.findings := by
  intro store why
  have hrun : ((load store.files .standard ⟨"/m/a.tcf"⟩).toOption.any fun t =>
      t.path == ⟨"/m/a.tcf"⟩ && t.children.length == 2 &&
        t.statements.any fun s =>
          s.children.any fun d =>
            d.content.file?.any fun f => f.path == ⟨"/m/b.tgc"⟩ &&
              f.statements.any fun s' => s'.kind == .controlFileReference .tgc &&
                s'.value == some "../m/a.tcf") = true := by
    decide +kernel
  obtain ⟨t, ht, hrun⟩ := Except.toOption_any_iff.mp hrun
  simp only [Bool.and_eq_true, beq_iff_eq, List.any_eq_true, Option.any_eq_true] at hrun
  obtain ⟨⟨hpath, hlength⟩, s, hs, d, hd, f, hf, hfpath, s', hs', hkind, hvalue⟩ := hrun
  have hchain : t.Chain [t, f] f := .child .root hs hd (Content.file?_eq_some.mp hf)
  have htargets : Load.targets store.files f.path.directory "../m/a.tcf" = .ok [⟨"/m/a.tcf"⟩] := by
    rw [hfpath]
    rfl
  obtain ⟨-, -, hrefs⟩ := (load_chains store .standard ⟨"/m/a.tcf"⟩).2 t ht _ _ hchain
  obtain ⟨hpaths, hchildren⟩ := hrefs rfl s' hs' .tgc _ _ hkind hvalue htargets
  obtain ⟨d', hd', hd'path⟩ : ∃ d' ∈ s'.children, d'.path = ⟨"/m/a.tcf"⟩ := by
    rw [← List.mem_map, hpaths]
    exact List.mem_singleton_self _
  have hrefusal : LoadOptions.standard.refusal? (canonicalPaths [t, f]) d'.path = some why := by
    rw [canonicalPaths, List.map_cons, List.map_singleton, hpath, hfpath, hd'path]
    decide +kernel
  have hd := hchildren d' hd'
  rw [hrefusal] at hd
  exact ⟨t, f, s', d', ht, hlength, hchain, hs', hd', hd⟩

end ControlFile

end ControlFiles
