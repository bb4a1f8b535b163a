import ControlFiles.Files.Store
import ControlFiles.Proofs.ControlFile.Loading
import ControlFiles.Proofs.Except

/-!
# What loading leaves out, and what it notes

A fault of loading is a fault of the root. Whatever else cannot be loaded leaves its mark on the
statement that asks for it: a failed child, or no child at all (`Statement.IsComplete`). There is
nothing to note about a tree exactly if all its statements are complete (`ControlFile.load_spec`),
which holds of each statement (`Load.follow_findings`) and from there of all files of a tree, by
induction on the references that may still be followed (`Load.IsLoaded.allFindings_eq_nil`).
-/

namespace ControlFiles

/-- Nothing that the statement asks for is missing. -/
structure Statement.IsComplete (s : Statement) : Prop where
  not_failed : ∀ d ∈ s.children, ∀ why, d.content ≠ .failed why
  children_ne_nil : s.kind.hasChild = true → s.value.isSome = true → s.children ≠ []

/-- The statement without what it refers to. -/
def Statement.alone (s : Statement) : Statement := { s with children := [] }

theorem Statement.alone_of_children (s : Statement) (h : s.children = []) : s.alone = s := by
  cases s
  cases h
  rfl

namespace ControlFile

/-! ## The files and statements of a tree -/

theorem allOfChildren_eq (ds : List Child) :
    allOfChildren ds = (ds.filterMap fun d => d.content.file?).flatMap all := by
  induction ds with
  | nil => rfl
  | cons d ds ih =>
    obtain ⟨path, scope, content⟩ := d
    cases content <;> simp [allOfChildren, Content.file?, ih]

theorem all_eq (f : ControlFile) : f.all = f :: f.children.flatMap all := by
  have hstatements : ∀ ss : List Statement, allOfStatements ss =
      (ss.flatMap fun s => s.children.filterMap fun d => d.content.file?).flatMap all := by
    intro ss
    induction ss with
    | nil => rfl
    | cons s ss ih =>
      obtain ⟨_, _, _, _, _, _, _, _, _, ds⟩ := s
      simp [allOfStatements, allOfChildren_eq, ih]
  obtain ⟨path, kind, statements, findings⟩ := f
  rw [all, hstatements]
  rfl

theorem walkChildren_eq (ds : List Child) :
    walkChildren ds = (ds.filterMap fun d => d.content.file?).flatMap walk := by
  induction ds with
  | nil => rfl
  | cons d ds ih =>
    obtain ⟨path, scope, content⟩ := d
    cases content <;> simp [walkChildren, Content.file?, ih]

theorem mem_walk {f : ControlFile} {s : Statement} :
    s ∈ f.walk ↔ s ∈ f.statements ∨ ∃ g ∈ f.children, s ∈ g.walk := by
  have hstatements : ∀ ss : List Statement, s ∈ walkStatements ss ↔
      s ∈ ss ∨ ∃ g ∈ ss.flatMap fun s => s.children.filterMap fun d => d.content.file?,
        s ∈ g.walk := by
    intro ss
    induction ss with
    | nil => simp [walkStatements]
    | cons s' ss ih =>
      cases s'
      simp only [walkStatements, walkChildren_eq, List.mem_cons, List.mem_append, ih,
        List.mem_flatMap (l := List.filterMap _ _), List.flatMap_cons, or_and_right, exists_or]
      rw [← or_assoc, or_or_or_comm]
  obtain ⟨path, kind, statements, findings⟩ := f
  exact hstatements statements

theorem allFindings_eq_nil {f : ControlFile} :
    f.allFindings = [] ↔ f.findings = [] ∧ ∀ g ∈ f.children, g.allFindings = [] := by
  simp only [allFindings, all_eq f, List.flatMap_cons, List.append_eq_nil_iff,
    List.flatMap_eq_nil_iff, List.mem_flatMap, forall_exists_index, and_imp]
  exact and_congr_right fun _ => ⟨fun h g hg f' hf' => h f' g hg hf', fun h f' g hg hf' =>
    h g hg f' hf'⟩

theorem mem_children {f g : ControlFile} :
    g ∈ f.children ↔ ∃ s ∈ f.statements, ∃ d ∈ s.children, d.content = .file g := by
  simp only [children, List.mem_flatMap, List.mem_filterMap, Content.file?_eq_some]

end ControlFile

namespace Load

variable {files : Files Id} {o : LoadOptions} {c : Candidates} {budget : Nat} {chain : List Path}
  {base path : Path} {kind : FileKind} {f : ControlFile} {s : Statement}

/-! ## One statement -/

theorem exists_content (files : Files Id)
    (openChild : Path → FileKind → Except ChildFailure ControlFile)
    (hdatabases : o.readDatabases = true) {kind : StatementKind} (hkind : kind.hasChild = true)
    (path : Path) : ∃ content, content? files o openChild kind path = some content := by
  cases kind with
  | controlFileReference k => exact ⟨_, content?_controlFile k path⟩
  | databaseReference =>
    simp only [content?, bind, pure, hdatabases]
    cases files.readTable path <;> exact ⟨_, rfl⟩
  | _ => cases hkind

theorem follow_findings (hfollow : o.followReferences = true) (hdatabases : o.readDatabases = true)
    (hnone : s.children = []) :
    (follow files o budget chain base s).2 = [] ↔
      (Variants.assignStatement c (follow files o budget chain base s).1).IsComplete := by
  rw [follow, if_pos hfollow]
  obtain ⟨hno, heq⟩ | ⟨template, hvalue, hkind, ⟨-, reason, heq⟩ | ⟨paths, -, hne, heq⟩⟩ :=
    statement_cases files o base (opener files o budget chain) s
  · rw [heq]
    refine iff_of_true rfl ⟨?_, fun hkind hvalue => ?_⟩
    · simp [Variants.assignStatement, hnone]
    · obtain hno | hno := hno
      · simp [Variants.assignStatement, hno] at hvalue
      · simp [Variants.assignStatement, hno] at hkind
  · rw [heq]
    refine iff_of_false (by simp) fun h => h.children_ne_nil hkind ?_ ?_
    · simp [Variants.assignStatement, hvalue]
    · simp [Variants.assignStatement, hnone]
  · rw [heq]
    simp only [List.filterMap_eq_nil_iff, noteChild_eq_none]
    constructor
    · refine fun h => ⟨fun d hd why hwhy => ?_, fun _ _ hnil => ?_⟩
      · obtain ⟨d₀, hd₀, rfl⟩ := List.mem_map.mp hd
        exact h d₀ hd₀ why ((Variants.assignContent_eq_failed c).mp hwhy)
      · obtain ⟨p, paths, rfl⟩ := List.exists_cons_of_ne_nil hne
        obtain ⟨content, hcontent⟩ :=
          exists_content files (opener files o budget chain) hdatabases hkind p
        simp [Variants.assignStatement, hcontent] at hnil
    · exact fun h d hd why hwhy => h.not_failed _ (List.mem_map_of_mem hd) why
        ((Variants.assignContent_eq_failed c).mpr hwhy)

/-- A statement is looked at and keeps all that it says. -/
theorem follow_alone : (follow files o budget chain base s).1.alone = s.alone := by
  rw [follow]
  split
  · obtain ⟨-, heq⟩ | ⟨template, -, -, ⟨-, reason, heq⟩ | ⟨paths, -, -, heq⟩⟩ :=
      statement_cases files o base (opener files o budget chain) s
    · rw [heq]
    · rw [heq]
    · rw [heq]
      rfl
  · rfl

/-! ## A tree -/

/-- There is something to note about a loaded file or one below it exactly if some statement of
them is not complete. -/
theorem IsLoaded.allFindings_eq_nil (hfollow : o.followReferences = true)
    (hdatabases : o.readDatabases = true) (h : IsLoaded files o c budget chain path kind f) :
    f.allFindings = [] ↔ ∀ s ∈ f.walk, s.IsComplete := by
  induction budget using Nat.strong_induction_on generalizing chain path kind f with
  | _ budget ih =>
    obtain ⟨opened, hopened, -, -, hstatements, hfindings⟩ := h.exists_opened
    obtain ⟨real, text, ss, -, -, -, hss, rfl⟩ := openFile_ok hopened
    have hhere : f.findings = [] ↔ ∀ s ∈ f.statements, s.IsComplete := by
      rw [hfindings, hstatements, List.flatMap_eq_nil_iff, List.forall_mem_map]
      exact forall₂_congr fun s hs =>
        follow_findings hfollow hdatabases (children_of_readStatements hss s hs)
    have hbelow : ∀ g ∈ f.children, (g.allFindings = [] ↔ ∀ s ∈ g.walk, s.IsComplete) := by
      intro g hg
      obtain ⟨s, hs, d, hd, hcontent⟩ := ControlFile.mem_children.mp hg
      obtain ⟨_, budget', _, -, -, rfl, hloaded⟩ := h.child hs hd hcontent
      exact ih budget' (Nat.lt_succ_self budget') hloaded
    rw [ControlFile.allFindings_eq_nil, hhere]
    simp only [ControlFile.mem_walk (f := f), or_imp, forall_and, forall_exists_index, and_imp]
    exact and_congr_right fun _ =>
      ⟨fun h s g hg hs => (hbelow g hg).mp (h g hg) s hs,
        fun h g hg => (hbelow g hg).mpr fun s hs => h s g hg hs⟩

end Load

/-- Loading fails exactly if the root is not found, not readable or ill-formed. Otherwise the root
has the statements of its text, to which loading adds nothing but children; and if references are
followed and databases read, there is nothing to note exactly if in the whole tree no child failed
and no statement that asks for a child is without. -/
theorem ControlFile.load_spec (files : Files Id) (o : LoadOptions) (root : Path) :
    ((∃ fault, load files o root = .error fault) ↔
      (∃ e, files.canonical root = .error e) ∨ (∃ e, files.read root = .error e) ∨
        ∃ text fault, files.read root = .ok text ∧
          readStatements (.ofPath o.marks root) text = .error fault) ∧
    ∀ t, load files o root = .ok t →
      (∃ text, files.read root = .ok text ∧
        readStatements (.ofPath o.marks root) text = .ok (t.statements.map Statement.alone)) ∧
      (o.followReferences = true → o.readDatabases = true →
        (t.allFindings = [] ↔ ∀ s ∈ t.walk, s.IsComplete)) := by
  refine ⟨?_, fun t ht => ?_⟩
  · obtain ⟨fault, hload, hroot⟩ | ⟨t, real, text, ss, hload, hreal, htext, hss⟩ :=
      load_cases files o root
    · exact iff_of_true ⟨fault, hload⟩ hroot
    · refine iff_of_false (fun ⟨fault, hfault⟩ => nomatch hload.symm.trans hfault) ?_
      rintro (⟨e, hreal'⟩ | ⟨e, htext'⟩ | ⟨text', fault, htext', hss'⟩)
      · cases hreal.symm.trans hreal'
      · cases htext.symm.trans htext'
      · obtain rfl := Except.ok.inj (htext.symm.trans htext')
        cases hss.symm.trans hss'
  · obtain ⟨c, hloaded⟩ := isLoaded_of_load ht
    refine ⟨?_, fun hfollow hdatabases => hloaded.allFindings_eq_nil hfollow hdatabases⟩
    obtain ⟨opened, hopened, -, -, hstatements, -⟩ := hloaded.exists_opened
    obtain ⟨real, text, ss, -, -, htext, hss, rfl⟩ := Load.openFile_ok hopened
    refine ⟨text, htext, ?_⟩
    have halone : ∀ s ∈ ss, (Statement.alone ∘ fun s => Variants.assignStatement c
        (Load.follow files o o.maxDepth ([] ++ [real]) root.directory s).1) s = id s := by
      intro s hs
      exact Load.follow_alone.trans (s.alone_of_children (children_of_readStatements hss s hs))
    rw [hss, hstatements, List.map_map, List.map_congr_left halone, List.map_id]

/-- A database that is not there leaves a statement without what it asks for, and a tree all the
same. -/
theorem ControlFile.load_spec_missing :
    let store := Store.ofList [(⟨"/m/a.tcf"⟩, "BC Database == bc.csv\nX == 1\n")]
    ∃ t s, load store.files .standard ⟨"/m/a.tcf"⟩ = .ok t ∧ t.statements.length = 2 ∧
      s ∈ t.walk ∧ ¬ s.IsComplete := by
  intro store
  have hrun : ((load store.files .standard ⟨"/m/a.tcf"⟩).toOption.any fun t =>
      t.statements.length == 2 && !t.allFindings.isEmpty) = true := by
    decide +kernel
  obtain ⟨t, ht, hrun⟩ := Except.toOption_any_iff.mp hrun
  simp only [Bool.and_eq_true, beq_iff_eq, Bool.not_eq_true', List.isEmpty_eq_false_iff] at hrun
  obtain ⟨hlength, hfindings⟩ := hrun
  have hcomplete := ((load_spec store.files .standard ⟨"/m/a.tcf"⟩).2 t ht).2 rfl rfl
  have hnot : ¬ ∀ s ∈ t.walk, s.IsComplete := mt hcomplete.mpr hfindings
  simp only [not_forall] at hnot
  obtain ⟨s, hs, hmissing⟩ := hnot
  exact ⟨t, s, ht, hlength, hs, hmissing⟩

end ControlFiles
