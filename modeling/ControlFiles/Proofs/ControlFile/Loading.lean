import ControlFiles.ControlFile.Variants
import ControlFiles.Proofs.ControlFile.Statements

/-!
# What loading makes of a file

Loading asks for files in a monad. In a place of files that is a value every step of it is an
equation: the statements of a file are looked at one by one (`Load.statements_eq`), the paths that a
statement refers to likewise (`Load.children_eq`), and the scopes that are given to the children
afterwards change nothing else (`Variants.assignFile_eq`).

`Load.IsLoaded` ties a file of a loaded tree to the path it was loaded from, the files above it and
the number of references that may still be followed. All that is known of one file is
`IsLoaded.exists_opened`; from a file to those below it leads `IsLoaded.child`. The root is loaded
with no file above it (`ControlFile.isLoaded_of_load`), or not at all (`ControlFile.load_cases`).
-/

namespace ControlFiles

/-! ## Scopes of children -/

namespace Variants

variable (c : Candidates)

/-- The child of a statement with the scopes that its file stands for. -/
def assignChild (reference : Text) (scope : ScopeList) (d : Child) : Child :=
  ⟨d.path, scope ++ fileScopes c reference d.path, assignContent c d.content⟩

/-- The statement with the scopes of all children below it. -/
def assignStatement (s : Statement) : Statement :=
  { s with children := s.children.map (assignChild c (s.value.getD []) s.scope) }

theorem assignChildren_eq_map (reference : Text) (scope : ScopeList) (ds : List Child) :
    assignChildren c reference scope ds = ds.map (assignChild c reference scope) := by
  induction ds with
  | nil => rfl
  | cons d ds ih =>
    obtain ⟨path, _, content⟩ := d
    rw [assignChildren, ih, List.map_cons, assignChild]

theorem assignStatements_eq_map (ss : List Statement) :
    assignStatements c ss = ss.map (assignStatement c) := by
  induction ss with
  | nil => rfl
  | cons s ss ih =>
    cases s
    rw [assignStatements, ih, assignChildren_eq_map, List.map_cons, assignStatement]

theorem assignFile_eq (f : ControlFile) :
    assignFile c f = { f with statements := f.statements.map (assignStatement c) } := by
  obtain ⟨path, kind, statements, findings⟩ := f
  rw [assignFile, assignStatements_eq_map]

theorem assignContent_eq_file {content : Content} {g : ControlFile} :
    assignContent c content = .file g ↔ ∃ f, content = .file f ∧ g = assignFile c f := by
  cases content <;> simp [assignContent, eq_comm]

theorem assignContent_eq_failed {content : Content} {why : ChildFailure} :
    assignContent c content = .failed why ↔ content = .failed why := by
  cases content <;> simp [assignContent]

end Variants

theorem Content.file?_eq_some {content : Content} {f : ControlFile} :
    content.file? = some f ↔ content = .file f := by
  cases content <;> simp [file?]

/-- What is read from a text refers to nothing yet. -/
theorem children_of_readStatements {o : ReadOptions} {text : Text} {ss : List Statement}
    (h : readStatements o text = .ok ss) : ∀ s ∈ ss, s.children = [] := by
  obtain ⟨t, -, -, hgives⟩ := exists_outline_of_readStatements h
  intro s hs
  obtain ⟨e, -, id, rfl⟩ := exists_gives_of_mem hgives hs
  cases he : e.line? <;> simp [Entry.statement, he, Statement.ofLine, Statement.placeholder]

namespace Load

variable {files : Files Id} {o : LoadOptions}

/-! ## The steps of loading -/

/-- A file is opened or not: it is not found, open already, not readable, ill-formed or in order. -/
theorem openFile_cases (files : Files Id) (o : LoadOptions) (chain : List Path) (path : Path) :
    (∃ e, files.canonical path = .error e ∧
      openFile files o chain path = .error (.ofFile path (.cannotOpen e))) ∨
    ∃ real, files.canonical path = .ok real ∧
      ((real ∈ chain ∧ openFile files o chain path =
        .error (.ofFile path (.cycle ((chain ++ [path]).map Path.fileName)))) ∨
      real ∉ chain ∧
        ((∃ e, files.read path = .error e ∧
          openFile files o chain path = .error (.ofFile path (.cannotRead e))) ∨
        ∃ text, files.read path = .ok text ∧
          ((∃ fault, readStatements (.ofPath o.marks path) text = .error fault ∧
            openFile files o chain path = .error fault) ∨
          ∃ ss, readStatements (.ofPath o.marks path) text = .ok ss ∧
            openFile files o chain path = .ok ⟨chain ++ [real], ss⟩))) := by
  simp only [openFile, bind, pure]
  cases files.canonical path with
  | error e => exact .inl ⟨e, rfl, rfl⟩
  | ok real =>
    refine .inr ⟨real, rfl, ?_⟩
    by_cases hcycle : chain.contains real = true
    · exact .inl ⟨List.contains_iff_mem.mp hcycle, if_pos hcycle⟩
    · refine .inr ⟨mt List.contains_iff_mem.mpr hcycle, ?_⟩
      simp only [if_neg hcycle]
      cases files.read path with
      | error e => exact .inl ⟨e, rfl, rfl⟩
      | ok text =>
        refine .inr ⟨text, rfl, ?_⟩
        cases hss : readStatements (.ofPath o.marks path) text with
        | error fault => exact .inl ⟨fault, rfl, congrArg (Except.map _) hss⟩
        | ok ss => exact .inr ⟨ss, rfl, congrArg (Except.map _) hss⟩

theorem openFile_ok {chain : List Path} {path : Path} {opened : Opened}
    (h : openFile files o chain path = .ok opened) :
    ∃ real text ss, files.canonical path = .ok real ∧ real ∉ chain ∧ files.read path = .ok text ∧
      readStatements (.ofPath o.marks path) text = .ok ss ∧ opened = ⟨chain ++ [real], ss⟩ := by
  obtain ⟨e, -, hopen⟩ | ⟨real, hreal, ⟨-, hopen⟩ | ⟨hnew, ⟨e, -, hopen⟩ | ⟨text, htext,
    ⟨fault, -, hopen⟩ | ⟨ss, hss, hopen⟩⟩⟩⟩ := openFile_cases files o chain path
  · cases hopen.symm.trans h
  · cases hopen.symm.trans h
  · cases hopen.symm.trans h
  · cases hopen.symm.trans h
  · exact ⟨real, text, ss, hreal, hnew, htext, hss, Except.ok.inj (h.symm.trans hopen)⟩

/-- What opens the files that a statement refers to, where `budget` references are left. -/
def opener (files : Files Id) (o : LoadOptions) : Nat → Opener Id
  | 0 => fun _ path _ => .error (.tooDeep path o.maxDepth)
  | budget + 1 => fun chain path kind =>
    match file files o budget chain path kind with
    | .ok f => .ok f
    | .error fault => .error (.file fault)

theorem file_eq (budget : Nat) (chain : List Path) (path : Path) (kind : FileKind) :
    file files o budget chain path kind =
      fileWith files o (opener files o budget) chain path kind := by
  cases budget with
  | zero => rw [file]; rfl
  | succ budget =>
    rw [file]
    rfl

theorem noteChild_of_failed {s : Statement} {d : Child} {why : ChildFailure}
    (h : d.content = .failed why) : noteChild s d = some (note s (.failed why)) := by
  rw [noteChild, h]

theorem noteChild_eq_none {s : Statement} {d : Child} :
    noteChild s d = none ↔ ∀ why, d.content ≠ .failed why := by
  rw [noteChild]
  cases d.content <;> simp

variable {base : Path} {openChild : Path → FileKind → Except ChildFailure ControlFile}

theorem children_eq (load : Path → Option Content) (paths : List Path) :
    children (m := Id) load paths = paths.filterMap fun p => (load p).map (Child.mk p []) := by
  induction paths with
  | nil => rfl
  | cons p paths ih =>
    simp only [children, bind, pure, List.filterMap_cons]
    rw [ih]
    cases load p <;> rfl

/-- What a control file that a statement refers to is as a child. -/
def contentOf : Except ChildFailure ControlFile → Content
  | .ok f => .file f
  | .error why => .failed why

theorem contentOf_eq_file {x : Except ChildFailure ControlFile} {f : ControlFile} :
    contentOf x = .file f ↔ x = .ok f := by
  cases x <;> simp [contentOf]

theorem content?_controlFile (kind : FileKind) (path : Path) :
    content? files o openChild (.controlFileReference kind) path =
      some (contentOf (openChild path kind)) := by
  simp only [content?, bind, pure]
  cases openChild path kind <;> rfl

theorem statement_of_no_value {s : Statement} (h : s.value = none ∨ s.kind.hasChild = false) :
    statement files o base openChild s = (s, []) := by
  rw [statement]
  cases hvalue : s.value with
  | none => rfl
  | some template =>
    rw [hvalue] at h
    have hkind : s.kind.hasChild = false := h.resolve_left nofun
    simp [hkind, pure]

variable {s : Statement} {template : Text}

theorem statement_of_targets_nil (hvalue : s.value = some template) (hkind : s.kind.hasChild = true)
    (h : ∀ paths, targets files base template = .ok paths → paths = []) :
    ∃ reason, statement files o base openChild s = (s, [note s reason]) := by
  simp only [statement, hvalue, hkind, bind, pure]
  cases htargets : targets files base template with
  | error e => exact ⟨_, rfl⟩
  | ok paths =>
    obtain rfl := h paths htargets
    exact ⟨_, rfl⟩

theorem statement_of_targets {paths : List Path} (hvalue : s.value = some template)
    (hkind : s.kind.hasChild = true) (htargets : targets files base template = .ok paths)
    (hne : paths ≠ []) :
    statement files o base openChild s =
      let loaded := paths.filterMap fun p => (content? files o openChild s.kind p).map (.mk p [])
      ({ s with children := loaded }, loaded.filterMap (noteChild s)) := by
  cases paths with
  | nil => exact absurd rfl hne
  | cons p paths =>
    simp only [statement, hvalue, hkind, htargets, bind, pure, ← children_eq]
    rfl

theorem content?_eq_file {kind : StatementKind} {path : Path} {f : ControlFile}
    (h : content? files o openChild kind path = some (.file f)) :
    ∃ k, kind = .controlFileReference k ∧ openChild path k = .ok f := by
  cases kind with
  | controlFileReference k =>
    rw [content?_controlFile] at h
    exact ⟨k, rfl, contentOf_eq_file.mp (Option.some.inj h)⟩
  | databaseReference =>
    simp only [content?, bind, pure] at h
    split at h
    · cases h
    · split at h <;> cases h
  | _ => cases h

theorem opener_ok {budget : Nat} {chain : List Path} {path : Path} {kind : FileKind}
    {f : ControlFile} (h : opener files o budget chain path kind = .ok f) :
    ∃ budget', budget = budget' + 1 ∧ file files o budget' chain path kind = .ok f := by
  cases budget with
  | zero => cases h
  | succ budget =>
    refine ⟨budget, rfl, ?_⟩
    simp only [opener] at h
    split at h
    · rename_i g hfile
      obtain rfl := Except.ok.inj h
      exact hfile
    · cases h

/-- What a statement becomes, and what there is to note: nothing, if it refers to no file; only a
finding, if no file is found for it; a child for each path otherwise. -/
theorem statement_cases (files : Files Id) (o : LoadOptions) (base : Path)
    (openChild : Path → FileKind → Except ChildFailure ControlFile) (s : Statement) :
    ((s.value = none ∨ s.kind.hasChild = false) ∧
      statement files o base openChild s = (s, [])) ∨
    ∃ template, s.value = some template ∧ s.kind.hasChild = true ∧
      (((∀ paths, targets files base template = .ok paths → paths = []) ∧
        ∃ reason, statement files o base openChild s = (s, [note s reason])) ∨
      ∃ paths, targets files base template = .ok paths ∧ paths ≠ [] ∧
        statement files o base openChild s =
          let loaded :=
            paths.filterMap fun p => (content? files o openChild s.kind p).map (.mk p [])
          ({ s with children := loaded }, loaded.filterMap (noteChild s))) := by
  by_cases hno : s.value = none ∨ s.kind.hasChild = false
  · exact .inl ⟨hno, statement_of_no_value hno⟩
  rw [not_or, Bool.not_eq_false, ← ne_eq, Option.ne_none_iff_exists'] at hno
  obtain ⟨⟨template, hvalue⟩, hkind⟩ := hno
  refine .inr ⟨template, hvalue, hkind, ?_⟩
  by_cases hnil : ∀ paths, targets files base template = .ok paths → paths = []
  · exact .inl ⟨hnil, statement_of_targets_nil hvalue hkind hnil⟩
  · simp only [not_forall] at hnil
    obtain ⟨paths, htargets, hne⟩ := hnil
    exact .inr ⟨paths, htargets, hne, statement_of_targets hvalue hkind htargets hne⟩

theorem statements_eq (ss : List Statement) :
    statements files o base openChild ss =
      (ss.map fun s => (statement files o base openChild s).1,
        ss.flatMap fun s => (statement files o base openChild s).2) := by
  induction ss with
  | nil => rfl
  | cons s ss ih =>
    simp only [statements, bind, pure]
    rw [ih]
    rfl

/-! ## A loaded file -/

/-- What a statement becomes, where `budget` references may still be followed. -/
def follow (files : Files Id) (o : LoadOptions) (budget : Nat) (chain : List Path) (base : Path)
    (s : Statement) : Statement × List Finding :=
  if o.followReferences then statement files o base (opener files o budget chain) s else (s, [])

/-- Loading makes `f` of the file at `path`, with the files of `chain` open above it and `budget`
references left to follow; its children have the scopes that the candidates give them. -/
def IsLoaded (files : Files Id) (o : LoadOptions) (c : Candidates) (budget : Nat)
    (chain : List Path) (path : Path) (kind : FileKind) (f : ControlFile) : Prop :=
  ∃ f₀, file files o budget chain path kind = .ok f₀ ∧ f = Variants.assignFile c f₀

variable {c : Candidates} {budget : Nat} {chain : List Path} {path : Path} {kind : FileKind}
  {f g : ControlFile}

/-- The file with what its statements become, once it is open. -/
def built (files : Files Id) (o : LoadOptions) (budget : Nat) (path : Path) (kind : FileKind)
    (opened : Opened) : ControlFile :=
  ⟨path, kind,
    opened.statements.map fun s => (follow files o budget opened.chain path.directory s).1,
    opened.statements.flatMap fun s => (follow files o budget opened.chain path.directory s).2⟩

/-- A file is loaded if it can be opened; what its statements refer to does not matter for that. -/
theorem file_eq_map : file files o budget chain path kind =
    Except.map (built files o budget path kind) (openFile files o chain path) := by
  rw [file_eq, fileWith]
  simp only [bind, pure]
  cases openFile files o chain path with
  | error fault => rfl
  | ok opened =>
    cases hfollow : o.followReferences with
    | false => exact congrArg Except.ok (by simp [built, follow, hfollow])
    | true => simp [built, follow, hfollow, statements_eq, Except.map]

theorem opener_succ_of_ok {opened : Opened} (h : openFile files o chain path = .ok opened) :
    opener files o (budget + 1) chain path kind = .ok (built files o budget path kind opened) := by
  have hfile : file files o budget chain path kind = .ok (built files o budget path kind opened) :=
    file_eq_map.trans (congrArg (Except.map _) h)
  simp only [opener, hfile]

theorem opener_succ_of_error {fault : Fault} (h : openFile files o chain path = .error fault) :
    opener files o (budget + 1) chain path kind = .error (.file fault) := by
  have hfile : file files o budget chain path kind = .error fault :=
    file_eq_map.trans (congrArg (Except.map _) h)
  simp only [opener, hfile]

namespace IsLoaded

/-- What there is to know about a loaded file. -/
theorem exists_opened (h : IsLoaded files o c budget chain path kind f) :
    ∃ opened, openFile files o chain path = .ok opened ∧ f.path = path ∧ f.kind = kind ∧
      (f.statements = opened.statements.map fun s => Variants.assignStatement c
        (follow files o budget opened.chain path.directory s).1) ∧
      f.findings = opened.statements.flatMap fun s =>
        (follow files o budget opened.chain path.directory s).2 := by
  obtain ⟨f₀, hf₀, rfl⟩ := h
  rw [file_eq_map] at hf₀
  obtain ⟨opened, hopened, rfl⟩ := Except.map_eq_ok.mp hf₀
  refine ⟨opened, hopened, ?_⟩
  rw [Variants.assignFile_eq, built, List.map_map]
  exact ⟨rfl, rfl, rfl, rfl⟩

/-- What a statement of a loaded file was read as, and what it became. -/
theorem exists_of_mem (h : IsLoaded files o c budget chain path kind f) {s : Statement}
    (hs : s ∈ f.statements) :
    ∃ real s₀, files.canonical path = .ok real ∧ real ∉ chain ∧ s₀.children = [] ∧
      s = Variants.assignStatement c
        (follow files o budget (chain ++ [real]) path.directory s₀).1 ∧
      ∀ d ∈ (follow files o budget (chain ++ [real]) path.directory s₀).2, d ∈ f.findings := by
  obtain ⟨opened, hopened, -, -, hstatements, hfindings⟩ := h.exists_opened
  obtain ⟨real, text, ss, hreal, hnew, -, hss, rfl⟩ := openFile_ok hopened
  rw [hstatements] at hs
  obtain ⟨s₀, hs₀, rfl⟩ := List.mem_map.mp hs
  refine ⟨real, s₀, hreal, hnew, children_of_readStatements hss s₀ hs₀, rfl, fun d hd => ?_⟩
  rw [hfindings]
  exact List.mem_flatMap.mpr ⟨s₀, hs₀, hd⟩

/-- A file below a loaded file is loaded with one reference fewer. -/
theorem child (h : IsLoaded files o c budget chain path kind f) {s : Statement}
    (hs : s ∈ f.statements) {d : Child} (hd : d ∈ s.children) (hg : d.content = .file g) :
    ∃ real budget' kind', files.canonical path = .ok real ∧ real ∉ chain ∧ budget = budget' + 1 ∧
      IsLoaded files o c budget' (chain ++ [real]) d.path kind' g := by
  obtain ⟨real, s₀, hreal, hnew, hnone, rfl, -⟩ := h.exists_of_mem hs
  obtain ⟨d₀, hd₀, rfl⟩ := List.mem_map.mp hd
  obtain ⟨g₀, hg₀, rfl⟩ := (Variants.assignContent_eq_file c).mp hg
  rw [follow] at hd₀
  split at hd₀
  · obtain ⟨-, heq⟩ | ⟨template, -, -, ⟨-, reason, heq⟩ | ⟨paths, -, -, heq⟩⟩ :=
      statement_cases files o path.directory (opener files o budget (chain ++ [real])) s₀
    · simp [heq, hnone] at hd₀
    · simp [heq, hnone] at hd₀
    · simp only [heq, List.mem_filterMap, Option.map_eq_some_iff] at hd₀
      obtain ⟨p, -, content, hcontent, rfl⟩ := hd₀
      obtain rfl : content = .file g₀ := hg₀
      obtain ⟨k, -, hopen⟩ := content?_eq_file hcontent
      obtain ⟨budget', rfl, hfile⟩ := opener_ok hopen
      exact ⟨real, budget', k, hreal, hnew, rfl, g₀, hfile, rfl⟩
  · simp [hnone] at hd₀

/-- The children of a statement that refers to control files: one for each path, which is a file or
the failure to open it, and then there is a finding. -/
theorem children_of_controlFile (h : IsLoaded files o c budget chain path kind f)
    (hfollow : o.followReferences = true) {s : Statement} (hs : s ∈ f.statements) {k : FileKind}
    (hk : s.kind = .controlFileReference k) {template : Text} (hvalue : s.value = some template) :
    ∃ real, files.canonical path = .ok real ∧ real ∉ chain ∧
      (∀ paths, targets files path.directory template = .ok paths →
        s.children.map Child.path = paths) ∧
      (s.children ≠ [] → ∃ paths, targets files path.directory template = .ok paths) ∧
      ∀ d ∈ s.children,
        d.content = Variants.assignContent c
          (contentOf (opener files o budget (chain ++ [real]) d.path k)) ∧
        ∀ why, d.content = .failed why → note s (.failed why) ∈ f.findings := by
  obtain ⟨real, s₀, hreal, hnew, hnone, rfl, hfindings⟩ := h.exists_of_mem hs
  refine ⟨real, hreal, hnew, ?_⟩
  rw [follow, if_pos hfollow] at hk hvalue hfindings ⊢
  obtain ⟨hno, heq⟩ | ⟨template', hvalue', hkind', ⟨hnil, reason, heq⟩ |
      ⟨paths, htargets, -, heq⟩⟩ :=
    statement_cases files o path.directory (opener files o budget (chain ++ [real])) s₀
  · simp only [heq, Variants.assignStatement] at hk hvalue
    rw [hk, hvalue] at hno
    cases hno <;> contradiction
  · simp only [heq, Variants.assignStatement] at hvalue ⊢
    obtain rfl := Option.some.inj (hvalue.symm.trans hvalue')
    refine ⟨fun paths htargets => ?_, fun hne => absurd (by simp [hnone]) hne, by simp [hnone]⟩
    simp [hnone, hnil paths htargets]
  · simp only [heq, Variants.assignStatement] at hk hvalue hfindings ⊢
    obtain rfl := Option.some.inj (hvalue.symm.trans hvalue')
    simp only [hk, content?_controlFile, Option.map_some, List.filterMap_eq_map'] at hfindings ⊢
    refine ⟨fun paths' htargets' => ?_, fun _ => ⟨paths, htargets⟩, fun d hd => ?_⟩
    · obtain rfl := Except.ok.inj (htargets.symm.trans htargets')
      simp [Variants.assignChild, Function.comp_def]
    · obtain ⟨d₀, hd₀, rfl⟩ := List.mem_map.mp hd
      obtain ⟨p, -, rfl⟩ := List.mem_map.mp hd₀
      refine ⟨rfl, fun why hwhy => hfindings _ (List.mem_filterMap.mpr ⟨_, hd₀, ?_⟩)⟩
      rw [noteChild_of_failed ((Variants.assignContent_eq_failed c).mp hwhy)]
      rfl

end IsLoaded

end Load

/-! ## A loaded tree -/

namespace ControlFile

variable {files : Files Id} {o : LoadOptions} {root : Path} {t : ControlFile}

theorem load_eq_map : load files o root =
    Except.map (fun f => Variants.assignFile f.candidates f)
      (Load.file files o o.maxDepth [] root (.ofPath root)) := by
  simp only [load, bind, pure]
  cases Load.file files o o.maxDepth [] root (.ofPath root) <;> rfl

theorem isLoaded_of_load (h : load files o root = .ok t) :
    ∃ c, Load.IsLoaded files o c o.maxDepth [] root (.ofPath root) t := by
  obtain ⟨f, hfile, rfl⟩ := Except.map_eq_ok.mp (load_eq_map.symm.trans h)
  exact ⟨f.candidates, f, hfile, rfl⟩

/-- There is a tree or not, whatever the files below the root are. -/
theorem load_cases (files : Files Id) (o : LoadOptions) (root : Path) :
    (∃ fault, load files o root = .error fault ∧
      ((∃ e, files.canonical root = .error e) ∨ (∃ e, files.read root = .error e) ∨
        ∃ text fault, files.read root = .ok text ∧
          readStatements (.ofPath o.marks root) text = .error fault)) ∨
    ∃ t real text ss, load files o root = .ok t ∧ files.canonical root = .ok real ∧
      files.read root = .ok text ∧ readStatements (.ofPath o.marks root) text = .ok ss := by
  have herror : ∀ {fault}, Load.openFile files o [] root = .error fault →
      load files o root = .error fault := fun h =>
    load_eq_map.trans (congrArg (Except.map _) (Load.file_eq_map.trans (congrArg (Except.map _) h)))
  obtain ⟨e, hreal, hopen⟩ | ⟨real, hreal, ⟨hcycle, -⟩ | ⟨-, ⟨e, htext, hopen⟩ | ⟨text, htext,
    ⟨fault, hss, hopen⟩ | ⟨ss, hss, hopen⟩⟩⟩⟩ := Load.openFile_cases files o [] root
  · exact .inl ⟨_, herror hopen, .inl ⟨e, hreal⟩⟩
  · simp at hcycle
  · exact .inl ⟨_, herror hopen, .inr (.inl ⟨e, htext⟩)⟩
  · exact .inl ⟨_, herror hopen, .inr (.inr ⟨text, fault, htext, hss⟩)⟩
  · exact .inr ⟨_, real, text, ss, load_eq_map.trans (congrArg (Except.map _)
      (Load.file_eq_map.trans (congrArg (Except.map _) hopen))), hreal, htext, hss⟩

end ControlFile

end ControlFiles
