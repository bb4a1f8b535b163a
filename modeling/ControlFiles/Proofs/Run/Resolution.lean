import ControlFiles.Files.Store
import ControlFiles.Proofs.Except
import ControlFiles.Proofs.Text.Tokens
import ControlFiles.Run.Resolve

/-!
# Where the statements of a run come from

A resolution that ends without a fault is a tree of statements, and every one of them is what a
statement in force becomes (`resolve_becomes`): its command and its value are those of
`Resolve.command` and `Resolve.value`, in the context that the statement's own file is resolved in
(`Resolve.InForce`).
-/

namespace ControlFiles

mutual

/-- The statements of a run and of the files that they refer to. -/
def RunFile.walk : RunFile → List RunStatement
  | ⟨_, _, _, statements⟩ => RunFile.walkStatements statements

/-- Some statements of a run and those of the files that they refer to. -/
def RunFile.walkStatements : List RunStatement → List RunStatement
  | [] => []
  | ⟨id, command, value, kind, file, line, files, layers, children⟩ :: rest =>
    ⟨id, command, value, kind, file, line, files, layers, children⟩ ::
      (RunFile.walkChildren children ++ RunFile.walkStatements rest)

/-- The statements of some files that a statement of a run refers to. -/
def RunFile.walkChildren : List RunChild → List RunStatement
  | [] => []
  | .file f :: rest => RunFile.walk f ++ RunFile.walkChildren rest
  | .table _ :: rest => RunFile.walkChildren rest

end

namespace RunFile

theorem walkStatements_cons (r : RunStatement) (rest : List RunStatement) :
    walkStatements (r :: rest) = r :: (walkChildren r.children ++ walkStatements rest) := by
  cases r
  rfl

theorem walkStatements_append (a b : List RunStatement) :
    walkStatements (a ++ b) = walkStatements a ++ walkStatements b := by
  induction a with
  | nil => rfl
  | cons r a ih => simp only [List.cons_append, walkStatements_cons, ih, List.append_assoc]

theorem mem_walkChildren {r : RunStatement} {children : List RunChild} :
    r ∈ walkChildren children ↔ ∃ f, RunChild.file f ∈ children ∧ r ∈ f.walk := by
  induction children with
  | nil => simp [walkChildren]
  | cons child children ih =>
    cases child with
    | file f => simp [walkChildren, ih, or_and_right, exists_or]
    | table t => simp [walkChildren, ih]

end RunFile

namespace Resolve

variable {files : Files Id}

/-- The statement of the file or of one below is in force; its own file has the directory `base`
and is resolved in the context `c'`. -/
inductive InForce (files : Files Id) : ControlFile → Context → Path → Context → Statement → Prop
  | here {f : ControlFile} {c : Context} {s : Statement} (hs : s ∈ f.statements)
      (hactive : Context.isActive (setFile files f c) s.scope = true) :
      InForce files f c f.path.directory (setFile files f c) s
  | inside {f g : ControlFile} {c c' : Context} {base : Path} {s t : Statement} {child : Child}
      (hs : s ∈ f.statements) (hchild : child ∈ s.children) (hg : child.content = .file g)
      (ht : InForce files g (setFile files f c) base c' t) : InForce files f c base c' t

/-- The statement becomes the one of the run. -/
structure Becomes (files : Files Id) (base : Path) (c : Context) (s : Statement)
    (r : RunStatement) : Prop where
  id : r.id = s.id
  kind : r.kind = s.kind
  line : r.line = s.line
  command : Resolve.command c s = .ok r.command
  value : Resolve.value files base c s = .ok (r.value, r.files)

/-! ## The value of a statement -/

theorem segments_of_hasChild {kind : StatementKind} (h : kind.hasChild = true) (t : Text) :
    segments kind t = [(Text.trim t, [])] := by
  rw [segments, if_pos h]

theorem namesFiles_of_hasChild {s : Statement} (h : s.kind.hasChild = true) :
    namesFiles s = true := by
  cases hkind : s.kind <;>
    simp [hkind, namesFiles, StatementKind.hasChild, StatementKind.referencesFile] at h ⊢

/-- What the value of a statement comes to: nothing, the text with what its tokens stand for, or,
with tokens left of which a file can be found, what is found for its parts. -/
inductive Means (files : Files Id) (base : Path) (c : Context) (s : Statement) :
    Option Text → List Path → Prop
  | absent (hraw : s.value = none) : Means files base c s none []
  | known {raw : Text} (hraw : s.value = some raw)
      (hplain : Text.hasTokens (c.substitute raw) = false) :
      Means files base c s (some (c.substitute raw))
        (if namesFiles s then
          (segments s.kind (c.substitute raw)).map fun p => base.resolve p.1
        else [])
  | searched {raw : Text} {found : List (Text × Path)} (hraw : s.value = some raw)
      (hleft : Text.hasTokens (c.substitute raw) = true) (hnames : namesFiles s = true)
      (haxis : ∀ t ∈ Text.tokens (c.substitute raw), t.axis?.isSome = true)
      (hfound : findSegments files base c s (segments s.kind (c.substituteVariables raw)) =
        .ok found) :
      Means files base c s (some (Text.join " | " (found.map (·.1)))) (found.map (·.2))

theorem value_eq_ok_iff {base : Path} {c : Context} {s : Statement} {value : Option Text}
    {paths : List Path} :
    Resolve.value files base c s = .ok (value, paths) ↔ Means files base c s value paths := by
  constructor
  · intro h
    cases hraw : s.value with
    | none =>
      simp only [Resolve.value, pure, hraw] at h
      obtain ⟨rfl, rfl⟩ := Prod.mk.inj (Except.ok.inj h)
      exact .absent hraw
    | some raw =>
      cases hleft : Text.hasTokens (c.substitute raw) with
      | false =>
        have hmeans : Means files base c s _ _ := .known hraw hleft
        simp only [Resolve.value, bind, pure, hraw, Text.tokens_isEmpty, hleft, Bool.not_false,
          if_true] at h
        split at h <;> rename_i hnames <;> obtain ⟨rfl, rfl⟩ := Prod.mk.inj (Except.ok.inj h)
        · rwa [if_pos hnames] at hmeans
        · rwa [if_neg hnames] at hmeans
      | true =>
        simp only [Resolve.value, bind, pure, hraw, Text.tokens_isEmpty, hleft, Bool.not_true,
          Bool.false_eq_true, if_false] at h
        split at h
        · cases h
        · rename_i hnamed
          obtain ⟨found, hfound, heq⟩ := Except.map_eq_ok.mp h
          obtain ⟨rfl, rfl⟩ := Prod.mk.inj heq
          simp only [Bool.or_eq_true, Bool.not_eq_true', List.any_eq_true, not_or, not_exists,
            not_and, Bool.not_eq_false, Option.isNone_iff_eq_none] at hnamed
          exact .searched hraw hleft hnamed.1
            (fun t ht => Option.isSome_iff_ne_none.mpr (hnamed.2 t ht)) hfound
  · rintro (hraw | ⟨hraw, hplain⟩ | ⟨hraw, hleft, hnames, haxis, hfound⟩)
    · simp only [Resolve.value, hraw]
      rfl
    · simp only [Resolve.value, bind, pure, hraw, Text.tokens_isEmpty, hplain, Bool.not_false,
        if_true]
      split <;> rfl
    · have hnone : (Text.tokens (c.substitute _)).any (fun t => t.axis?.isNone) = false :=
        List.any_eq_false.mpr fun t ht => by
          rw [Option.isNone_iff_eq_none]
          exact Option.isSome_iff_ne_none.mp (haxis t ht)
      simp only [Resolve.value, bind, pure, hraw, Text.tokens_isEmpty, hleft, hnames, hnone, hfound]
      rfl

/-! ## One statement -/

/-- The files that a statement refers to come from its children. -/
theorem runFiles_ok {s : Statement} {children : List (Text × Runner Id)} {c : Context}
    {paths : List Path} {run : List RunChild} {findings : List Finding}
    (h : runFiles s children c paths = .ok (run, findings)) :
    ∀ child ∈ run, ∃ p ∈ children, ∃ found, p.2 c = .ok (.run child found) := by
  induction paths generalizing run findings with
  | nil =>
    obtain ⟨rfl, -⟩ := Prod.mk.inj (Except.ok.inj h)
    simp
  | cons path paths ih =>
    simp only [runFiles, bind, pure] at h
    cases hfind : findChild children path with
    | none =>
      simp only [hfind] at h
      obtain ⟨others, hothers, heq⟩ := Except.map_eq_ok.mp h
      obtain ⟨rfl, -⟩ := Prod.mk.inj heq
      exact ih hothers
    | some runner =>
      simp only [hfind] at h
      obtain ⟨p, hp, rfl⟩ := Option.map_eq_some_iff.mp hfind
      have hmem : p ∈ children := List.mem_of_find?_eq_some hp
      split at h
      · rename_i first found hrun
        obtain ⟨others, hothers, heq⟩ := Except.map_eq_ok.mp h
        obtain ⟨rfl, -⟩ := Prod.mk.inj heq
        intro child hchild
        rcases List.mem_append.mp hchild with hchild | hchild
        · rw [List.mem_singleton.mp hchild]
          exact ⟨p, hmem, found, hrun⟩
        · exact ih hothers child hchild
      · obtain ⟨others, hothers, heq⟩ := Except.map_eq_ok.mp h
        obtain ⟨rfl, -⟩ := Prod.mk.inj heq
        exact ih hothers
      · cases h

/-- What resolving a statement in force can end in: its command, its value and its layers, and the
children that its files come to, if it is one that can have any. -/
theorem runActive_eq_ok {base : Path} {s : Statement} {children : List (Text × Runner Id)}
    {c : Context} {r : RunStatement} {findings : List Finding}
    (h : runActive files base s children c = .ok (r, findings)) :
    Becomes files base c s r ∧ r.layers = layers base s r.value ∧
      (if s.kind.hasChild then runFiles s children c r.files else .ok ([], [])) =
        .ok (r.children, findings) := by
  simp only [runActive, bind, pure] at h
  split at h
  · cases h
  · cases hcommand : command c s with
    | error e => simp [hcommand] at h
    | ok written =>
      cases hvalue : value files base c s with
      | error e => simp [hcommand, hvalue] at h
      | ok meaning =>
        simp only [hcommand, hvalue] at h
        split at h
        · rename_i hkind
          obtain ⟨loaded, hloaded, heq⟩ := Except.map_eq_ok.mp h
          obtain ⟨rfl, rfl⟩ := Prod.mk.inj heq
          exact ⟨⟨rfl, rfl, rfl, hcommand, hvalue⟩, rfl, (if_pos hkind).trans hloaded⟩
        · rename_i hkind
          obtain ⟨loaded, hloaded, heq⟩ := Except.map_eq_ok.mp h
          obtain ⟨rfl, rfl⟩ := Prod.mk.inj heq
          exact ⟨⟨rfl, rfl, rfl, hcommand, hvalue⟩, rfl, (if_neg hkind).trans hloaded⟩

/-- What becomes of a statement in force, and of the files that it refers to. -/
theorem runActive_ok {base : Path} {s : Statement} {children : List (Text × Runner Id)}
    {c : Context} {r : RunStatement} {findings : List Finding}
    (h : runActive files base s children c = .ok (r, findings)) :
    Becomes files base c s r ∧
      ∀ child ∈ r.children, ∃ p ∈ children, ∃ found, p.2 c = .ok (.run child found) := by
  obtain ⟨hbecomes, -, hchildren⟩ := runActive_eq_ok h
  refine ⟨hbecomes, ?_⟩
  split at hchildren
  · exact runFiles_ok hchildren
  · rw [← (Prod.mk.inj (Except.ok.inj hchildren)).1]
    simp

/-- A statement gives one of the run at most, and only if it is in force. -/
theorem runStatement_ok {base : Path} {s : Statement} {children : List (Text × Runner Id)}
    {c : Context} {run : List RunStatement} {findings : List Finding}
    (h : runStatement files base s children c = .ok (run, findings)) :
    ∀ r ∈ run, c.isActive s.scope = true ∧
      ∃ found, runActive files base s children c = .ok (r, found) ∧ run = [r] := by
  simp only [runStatement, bind, pure] at h
  split at h
  · cases h
  · split at h
    · obtain ⟨rfl, -⟩ := Prod.mk.inj (Except.ok.inj h)
      simp
    · rename_i hactive
      obtain ⟨⟨r, found⟩, hr, heq⟩ := Except.map_eq_ok.mp h
      obtain ⟨rfl, -⟩ := Prod.mk.inj heq
      intro r' hr'
      obtain rfl := List.mem_singleton.mp hr'
      exact ⟨by simp_all, found, hr, rfl⟩

/-- A statement in force that says something is resolved to one statement. -/
theorem exists_runActive {base : Path} {s : Statement} {children : List (Text × Runner Id)}
    {c : Context} {here : List RunStatement} {findings : List Finding}
    (hcontent : s.isContent = true) (hactive : c.isActive s.scope = true)
    (h : runStatement files base s children c = .ok (here, findings)) :
    ∃ r, here = [r] ∧ runActive files base s children c = .ok (r, findings) := by
  simp only [runStatement, bind, pure] at h
  split at h
  · cases h
  · rw [if_neg (by simp [hcontent, hactive])] at h
    obtain ⟨⟨r, found⟩, hr, heq⟩ := Except.map_eq_ok.mp h
    obtain ⟨rfl, rfl⟩ := Prod.mk.inj heq
    exact ⟨r, rfl, hr⟩

theorem runStatements_cons (s : Statement) (rest : List Statement) (base : Path) (c : Context) :
    runStatements files (s :: rest) base c =
      (runStatement files base s (runChildren files s.children) c).bind fun here =>
        (runStatements files rest base c).map fun others =>
          (here.1 ++ others.1, here.2 ++ others.2) := by
  cases s
  simp only [runStatements, bind, pure]
  split
  · rename_i heq
    rw [heq]
    rfl
  · rename_i heq
    rw [heq]
    rfl

theorem runStatements_cons_ok {base : Path} {s : Statement} {rest : List Statement} {c : Context}
    {run : List RunStatement} {findings : List Finding}
    (h : runStatements files (s :: rest) base c = .ok (run, findings)) :
    ∃ here found others more,
      runStatement files base s (runChildren files s.children) c = .ok (here, found) ∧
      runStatements files rest base c = .ok (others, more) ∧ run = here ++ others := by
  rw [runStatements_cons] at h
  obtain ⟨⟨here, found⟩, hhere, h⟩ := Except.bind_eq_ok.mp h
  obtain ⟨⟨others, more⟩, hothers, heq⟩ := Except.map_eq_ok.mp h
  obtain ⟨rfl, -⟩ := Prod.mk.inj heq
  exact ⟨here, found, others, more, hhere, hothers, rfl⟩

/-! ## Trees -/

/-- The statement of the run comes from a file, resolved in a context. -/
def Comes (files : Files Id) (f : ControlFile) (c : Context) (r : RunStatement) : Prop :=
  ∃ base c' s, InForce files f c base c' s ∧ Becomes files base c' s r

/-- The statement of the run comes from some statements of a file in the directory `base`, or from
a file that they refer to. -/
def ComesFrom (files : Files Id) (statements : List Statement) (base : Path) (c : Context)
    (r : RunStatement) : Prop :=
  ∃ s ∈ statements, c.isActive s.scope = true ∧ Becomes files base c s r ∨
    ∃ child ∈ s.children, ∃ g, child.content = .file g ∧ Comes files g c r

mutual

theorem runFile_comes : ∀ (f : ControlFile) {c : Context} {res : Resolution},
    runFile files f c = .ok res → ∀ r ∈ res.run.walk, Comes files f c r
  | ⟨path, kind, statements, findings⟩, c, res, h, r, hr => by
    simp only [runFile, bind, pure] at h
    obtain ⟨⟨run, found⟩, hrun, rfl⟩ := Except.map_eq_ok.mp h
    obtain ⟨s, hs, hcomes⟩ := runStatements_comes statements hrun r hr
    rcases hcomes with ⟨hactive, hbecomes⟩ | ⟨child, hchild, g, hg, base, c', t, ht, hbecomes⟩
    · exact ⟨_, _, s, .here hs hactive, hbecomes⟩
    · exact ⟨base, c', t, .inside hs hchild hg ht, hbecomes⟩

theorem runStatements_comes : ∀ (statements : List Statement) {base : Path} {c : Context}
    {run : List RunStatement} {findings : List Finding},
    runStatements files statements base c = .ok (run, findings) →
      ∀ r ∈ RunFile.walkStatements run, ComesFrom files statements base c r
  | [], base, c, run, findings, h, r, hr => by
    obtain ⟨rfl, -⟩ := Prod.mk.inj (Except.ok.inj h)
    cases hr
  | ⟨id, raw, command, value, comment, kind, scope, file, line, children⟩ :: rest, base, c, run,
      findings, h, r, hr => by
    obtain ⟨here, found, others, more, hhere, hothers, rfl⟩ := runStatements_cons_ok h
    rw [RunFile.walkStatements_append] at hr
    rcases List.mem_append.mp hr with hr | hr
    · cases here with
      | nil => cases hr
      | cons first tail =>
        obtain ⟨hactive, noted, hrun, hone⟩ := runStatement_ok hhere first List.mem_cons_self
        obtain ⟨hbecomes, hchildren⟩ := runActive_ok hrun
        rw [hone, RunFile.walkStatements_cons] at hr
        refine ⟨_, List.mem_cons_self, ?_⟩
        rcases List.mem_cons.mp hr with rfl | hr
        · exact .inl ⟨hactive, hbecomes⟩
        · obtain ⟨rf, hrf, hr⟩ : ∃ rf, RunChild.file rf ∈ first.children ∧ r ∈ rf.walk := by
            simpa [RunFile.walkStatements, RunFile.mem_walkChildren] using hr
          obtain ⟨p, hp, noted, hp'⟩ := hchildren _ hrf
          exact .inr (runChildren_comes children p hp hp' r hr)
    · obtain ⟨s, hs, hcomes⟩ := runStatements_comes rest hothers r hr
      exact ⟨s, List.mem_cons_of_mem _ hs, hcomes⟩

theorem runChildren_comes : ∀ (children : List Child), ∀ p ∈ runChildren files children,
    ∀ {c : Context} {rf : RunFile} {found : List Finding}, p.2 c = .ok (.run (.file rf) found) →
      ∀ r ∈ rf.walk, ∃ child ∈ children, ∃ g, child.content = .file g ∧ Comes files g c r
  | [], p, hp, _, _, _, _, _, _ => by cases hp
  | ⟨path, scope, content⟩ :: rest, p, hp, c, rf, found, h, r, hr => by
    rw [runChildren, List.mem_cons] at hp
    rcases hp with rfl | hp
    · obtain ⟨g, hg, hcomes⟩ := runContent_comes content h r hr
      exact ⟨_, List.mem_cons_self, g, hg, hcomes⟩
    · obtain ⟨child, hchild, hcomes⟩ := runChildren_comes rest p hp h r hr
      exact ⟨child, List.mem_cons_of_mem _ hchild, hcomes⟩

theorem runContent_comes : ∀ (content : Content) {c : Context} {rf : RunFile}
    {found : List Finding}, runContent files content c = .ok (.run (.file rf) found) →
      ∀ r ∈ rf.walk, ∃ g, content = .file g ∧ Comes files g c r
  | .file f, c, rf, found, h, r, hr => by
    simp only [runContent, bind, pure] at h
    obtain ⟨res, hres, heq⟩ := Except.map_eq_ok.mp h
    cases heq
    exact ⟨f, rfl, runFile_comes f hres r hr⟩
  | .table t, c, rf, found, h, r, hr => by
    simp only [runContent, pure] at h
    cases h
  | .failed why, c, rf, found, h, r, hr => by
    simp only [runContent, pure] at h
    cases h

end

end Resolve

/-- Every statement of a run is what a statement in force becomes. -/
theorem resolve_becomes {files : Files Id} {f : ControlFile} {c : Context} {res : Resolution}
    (h : f.resolve files c = .ok res) {r : RunStatement} (hr : r ∈ res.run.walk) :
    ∃ base c' s, Resolve.InForce files f (Resolve.rootContext f c) base c' s ∧
      Resolve.Becomes files base c' s r := Resolve.runFile_comes f h r hr

end ControlFiles
