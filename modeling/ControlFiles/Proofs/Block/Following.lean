import ControlFiles.Proofs.Block.Sourceless
import ControlFiles.Proofs.ControlFile.WrittenOutline

/-!
# How the levels of a text follow each other

From a statement to the next, some of the levels stay, at most one block goes on with its next
branch, and further blocks are opened (`Level.Follows`). This is all that is left of the blocks of a
text when the places are lost that its scopes were read from, and it holds all along the entries of
an outline (`Outline.walks`).
-/

namespace ControlFiles

namespace Level

/-! ## From one statement to the next -/

/-- The level `k` can be the branch behind `l`. -/
structure Precedes (l k : Level) : Prop where
  isLater : k.IsLater l.uses
  sameBlock : l.leaf.sameBlock k.leaf = true
  notElse : l.isElse = false

/-- A statement inside the levels of the second list can come next after one inside those of the
first. -/
inductive Follows : List Level → List Level → Prop
  /-- All levels are opened. -/
  | opens (p : List Level) {p' : List Level} (hp' : ∀ l ∈ p', l.IsFirst) : Follows p p'
  /-- A block goes on with its next branch. -/
  | next {l k : Level} (h : l.Precedes k) (p : List Level) {p' : List Level}
      (hp' : ∀ l ∈ p', l.IsFirst) : Follows (l :: p) (k :: p')
  /-- The outermost level stays. -/
  | inside (l : Level) {p p' : List Level} (h : Follows p p') : Follows (l :: p) (l :: p')

theorem Follows.formed {p p' : List Level} (h : Follows p p') (hp : ∀ l ∈ p, l.Formed) :
    ∀ l ∈ p', l.Formed := by
  induction h with
  | opens p hp' => exact fun l hl => (hp' l hl).formed
  | next h p hp' => exact List.forall_mem_cons.mpr ⟨h.isLater.formed, fun l hl => (hp' l hl).formed⟩
  | inside l _ ih =>
    obtain ⟨hl, hp⟩ := List.forall_mem_cons.mp hp
    exact List.forall_mem_cons.mpr ⟨hl, ih hp⟩

/-- Statements inside the levels `path` can come next, and such in blocks that are opened there. -/
def Reaches (p path : List Level) : Prop :=
  ∀ deep : List Level, (∀ l ∈ deep, l.IsFirst) → Follows p (path ++ deep)

theorem Reaches.follows {p path : List Level} (h : Reaches p path) : Follows p path := by
  have := h [] (by simp)
  rwa [List.append_nil] at this

theorem Reaches.opening {p path : List Level} (h : Reaches p path) {l : Level} (hl : l.IsFirst) :
    Reaches p (path ++ [l]) := by
  intro deep hdeep
  rw [List.append_assoc, List.singleton_append]
  exact h (l :: deep) (List.forall_mem_cons.mpr ⟨hl, hdeep⟩)

theorem reaches_nil (p : List Level) : Reaches p [] := fun _ hdeep => .opens p hdeep

/-- Further inside the levels that stay. -/
theorem Reaches.prepend {p path : List Level} (h : Reaches p path) (front : List Level) :
    Reaches (front ++ p) (front ++ path) := by
  induction front with
  | nil => exact h
  | cons l front ih => exact fun deep hdeep => .inside l (ih deep hdeep)

theorem reaches_of_prefix {p path : List Level} (h : path <+: p) : Reaches p path := by
  obtain ⟨rest, rfl⟩ := h
  have := (reaches_nil rest).prepend path
  rwa [List.append_nil] at this

theorem reaches_next {p path : List Level} {l k : Level} (h : path ++ [l] <+: p)
    (hk : l.Precedes k) : Reaches p (path ++ [k]) := by
  obtain ⟨rest, rfl⟩ := h
  have hnext : Reaches (l :: rest) [k] := fun _ hdeep => .next hk rest hdeep
  rw [List.append_assoc, List.singleton_append]
  exact hnext.prepend path

end Level

/-- The entries follow one after the other, the first of them the levels `p`; the last is inside the
levels `p'`. -/
def Walks (p' : List Level) : List Level → List Entry → Prop
  | p, [] => p = p'
  | p, e :: es => Level.Follows p e.path ∧ Walks p' e.path es

theorem Walks.append {p p' p'' : List Level} {es es' : List Entry} (h : Walks p' p es)
    (h' : Walks p'' p' es') : Walks p'' p (es ++ es') := by
  induction es generalizing p with
  | nil =>
    obtain rfl : p = p' := h
    exact h'
  | cons e es ih => exact ⟨h.1, ih h.2⟩

/-! ## The branches of a block -/

/-- The level is the branch of a block that asks a question, and the branches so far have used the
names `seen`; it is an `Else` branch if `hasElse`. -/
structure Level.Runs (q : Question) (seen : List Text) (hasElse : Bool) (l : Level) : Prop where
  openable : q.Openable
  isListed : ∀ name ∈ seen, name.IsListed
  plain : PlainNames seen
  uses : l.uses = Text.addNew [] seen
  kind : l.leaf.kind = q.kind
  qualifier : l.leaf.qualifier.map Text.lower = q.qualifier.map Text.lower
  isElse : l.isElse = hasElse

namespace Level

theorem runs_opening {h : Header} (hh : h.Writable) (source : BlockSource) :
    (opening h source).withoutSource.Runs h.question h.nameList false where
  openable := hh.openable
  isListed := hh.isListed
  plain := hh.plain
  uses := by
    rw [withoutSource_opening hh]
    exact Scope.alternatives_asking _ _
  kind := by rw [withoutSource_opening hh]; rfl
  qualifier := by rw [withoutSource_opening hh]; rfl
  isElse := by rw [withoutSource_opening hh]; rfl

section
variable {q : Question} {seen : List Text} {l : Level} {b : BranchLine}

theorem Runs.later (hl : l.Runs q seen false) (hb : ∀ h ∈ b.header?, h.Writable)
    (hadmits : q.Admits seen b) (source : BlockSource) :
    (Level.later q seen source b.header?).withoutSource.Runs q (seen ++ b.nameList)
      b.header?.isNone := by
  cases hheader : b.header? with
  | none =>
    rw [withoutSource_else hl.isListed hl.plain, BranchLine.nameList, hheader]
    simp only [Option.map_none, Option.getD_none, List.append_nil, Option.isNone_none]
    exact ⟨hl.openable, hl.isListed, hl.plain, Scope.alternatives_excluding _ _ _, rfl, rfl, rfl⟩
  | some h =>
    have hh := hb h hheader
    obtain ⟨hkind, halike, hnew⟩ := hadmits.2 h hheader
    rw [withoutSource_elseIf hl.isListed hl.plain hh, BranchLine.nameList, hheader]
    simp only [Option.map_some, Option.getD_some, Option.isNone_some]
    refine ⟨hl.openable, fun name hname => ?_, hl.plain.append hh.plain, ?_, hkind,
      (Text.alike?_iff.mp halike).symm, rfl⟩
    · rcases List.mem_append.mp hname with hname | hname
      · exact hl.isListed name hname
      · exact hh.isListed name hname
    · rw [Text.addNew_append hnew]
      simp [Level.uses]

/-- The next branch of a block comes behind the one before. -/
theorem Runs.precedes (hl : l.Runs q seen false) (hb : ∀ h ∈ b.header?, h.Writable)
    (hadmits : q.Admits seen b) (source : BlockSource) :
    l.Precedes (Level.later q seen source b.header?).withoutSource where
  isLater := by
    rw [hl.uses]
    exact isLater_later hl.openable hl.isListed hl.plain hb hadmits source
  sameBlock := by
    have hnext := hl.later hb hadmits source
    have hqualifier : Text.alike? l.leaf.qualifier
        (Level.later q seen source b.header?).withoutSource.leaf.qualifier = true := by
      rw [Text.alike?_iff, hl.qualifier, hnext.qualifier]
    simp [Scope.sameBlock, hl.kind, hnext.kind, hqualifier]
  notElse := hl.isElse

end

end Level

/-! ## Whole outlines -/

/-- All headers of the outline can be generated again. -/
def Outline.Writable (t : Outline) : Prop :=
  ∀ l ∈ t.lines, ∀ h ∈ l.directive.header?, h.Writable

/-- All headers of the branches can be generated again. -/
def Branches.Writable (t : Branches) : Prop :=
  ∀ l ∈ t.lines, ∀ h ∈ l.directive.header?, h.Writable

theorem Outline.writable_block {head : OpeningLine} {first : Outline} {more : Branches}
    {close : ClosingLine} {rest : Outline}
    (h : (Outline.block head first more close rest).Writable) :
    head.header.Writable ∧ first.Writable ∧ more.Writable ∧ rest.Writable := by
  simp only [Writable, Branches.Writable, Outline.lines, List.forall_mem_cons,
    List.forall_mem_append] at h ⊢
  exact ⟨h.1 _ head.directive_header?, h.2.1, h.2.2.1, h.2.2.2.2⟩

theorem Branches.writable_branch {head : BranchLine} {body : Outline} {more : Branches}
    (h : (Branches.branch head body more).Writable) :
    (∀ header ∈ head.header?, header.Writable) ∧ body.Writable ∧ more.Writable := by
  simp only [Writable, Outline.Writable, Branches.lines, List.forall_mem_cons,
    List.forall_mem_append] at h ⊢
  rw [← head.directive_header?]
  exact h

/-- From the levels `p` there is a way through the entries, and what comes behind them can be inside
the levels `path`. If `within`, the last levels are inside `path`. -/
def Passes (path p : List Level) (es : List Entry) (within : Prop) : Prop :=
  ∃ p', Walks p' p es ∧ Level.Reaches p' path ∧ (within → path <+: p')

/-- There is an entry for every branch, so that the next one is reached from inside its levels. -/
theorem Outline.passes_branch {closes : Closes} {body : Outline} {n : Nat} {path p : List Level}
    (hbody : Passes (path.map Level.withoutSource) p
      ((body.entries closes n path).map Entry.withoutSources)
      (body.isNil = false ∨ path.map Level.withoutSource <+: p))
    (hp : Level.Reaches p (path.map Level.withoutSource)) :
    ∃ p', Walks p' p ((body.branchEntries closes n path).map Entry.withoutSources) ∧
      path.map Level.withoutSource <+: p' := by
  cases hnil : body.isNil with
  | false =>
    obtain ⟨p', hwalks, -, hwithin⟩ := hbody
    refine ⟨p', ?_, hwithin (.inl hnil)⟩
    rw [branchEntries, placeholder, hnil, if_neg (by decide), List.append_nil]
    exact hwalks
  | true =>
    cases body with
    | nil => exact ⟨path.map Level.withoutSource, ⟨hp.follows, rfl⟩, List.prefix_rfl⟩
    | line l rest => cases hnil
    | block head first more close rest => cases hnil

mutual

/-- The entries of an outline follow one after the other. -/
theorem Outline.walks (closes : Closes) : ∀ (t : Outline) (n : Nat) (path p : List Level),
    t.Valid → t.Writable → Level.Reaches p (path.map Level.withoutSource) →
      Passes (path.map Level.withoutSource) p ((t.entries closes n path).map Entry.withoutSources)
        (t.isNil = false ∨ path.map Level.withoutSource <+: p)
  | .nil, _, path, p, _, _, hp => ⟨p, rfl, hp, fun h => h.resolve_left (by simp)⟩
  | .line l rest, n, path, p, hv, hw, hp => by
    obtain ⟨p', hwalks, hreach, hwithin⟩ := Outline.walks closes rest (n + 1) path
      (path.map Level.withoutSource) hv (fun l' hl' => hw l' (List.mem_cons_of_mem _ hl'))
      (Level.reaches_of_prefix List.prefix_rfl)
    exact ⟨p', ⟨hp.follows, hwalks⟩, hreach, fun _ => hwithin (.inr List.prefix_rfl)⟩
  | .block head first more close rest, n, path, p, hv, hw, hp => by
    obtain ⟨-, hfirst, hmore, hrest⟩ := hv
    obtain ⟨hwhead, hwfirst, hwmore, hwrest⟩ := Outline.writable_block hw
    let lv := Level.opening head.header (closes.source n n head.line.text)
    have hpath : (path ++ [lv]).map Level.withoutSource =
        path.map Level.withoutSource ++ [lv.withoutSource] := List.map_append
    have hp' : Level.Reaches p ((path ++ [lv]).map Level.withoutSource) := by
      rw [hpath]
      exact hp.opening (Level.isFirst_opening hwhead _)
    obtain ⟨p₁, hwalks₁, hwithin₁⟩ := Outline.passes_branch
      (Outline.walks closes first (n + 1) (path ++ [lv]) p hfirst hwfirst hp') hp'
    rw [hpath] at hwithin₁
    obtain ⟨p₂, hwalks₂, hwithin₂⟩ := Branches.walks closes more n (n + 1 + first.size) path p₁
      hmore hwmore (Level.runs_opening hwhead _) hwithin₁
    obtain ⟨p₃, hwalks₃, hreach₃, hwithin₃⟩ := Outline.walks closes rest
      (n + 1 + first.size + more.size + 1) path p₂ hrest hwrest (Level.reaches_of_prefix hwithin₂)
    refine ⟨p₃, ?_, hreach₃, fun _ => hwithin₃ (.inr hwithin₂)⟩
    rw [Outline.entries_block, List.map_append, List.map_append]
    exact hwalks₁.append (hwalks₂.append hwalks₃)

/-- The entries of the further branches of a block follow one after the other. -/
theorem Branches.walks (closes : Closes) : ∀ (t : Branches) (block n : Nat) (path p : List Level)
    {q : Question} {seen : List Text} {hasElse : Bool} {l : Level}, t.Valid q seen hasElse →
      t.Writable → l.Runs q seen hasElse → path.map Level.withoutSource ++ [l] <+: p →
        ∃ p', Walks p' p ((t.entries closes block q seen n path).map Entry.withoutSources) ∧
          path.map Level.withoutSource <+: p'
  | .nil, _, _, _, p, _, _, _, l, _, _, _, hp => ⟨p, rfl, (List.prefix_append _ [l]).trans hp⟩
  | .branch head body more, block, n, path, p, q, seen, hasElse, l, hv, hw, hl, hp => by
    obtain ⟨rfl, hadmits, hbody, hmore⟩ := hv
    obtain ⟨hwhead, hwbody, hwmore⟩ := Branches.writable_branch hw
    let source := closes.source block n head.line.text
    let lv := Level.later q seen source head.header?
    have hpath : (path ++ [lv]).map Level.withoutSource =
        path.map Level.withoutSource ++ [lv.withoutSource] := List.map_append
    have hp' : Level.Reaches p ((path ++ [lv]).map Level.withoutSource) := by
      rw [hpath]
      exact Level.reaches_next hp (hl.precedes hwhead hadmits source)
    obtain ⟨p₁, hwalks₁, hwithin₁⟩ := Outline.passes_branch
      (Outline.walks closes body (n + 1) (path ++ [lv]) p hbody hwbody hp') hp'
    rw [hpath] at hwithin₁
    obtain ⟨p₂, hwalks₂, hwithin₂⟩ := Branches.walks closes more block (n + 1 + body.size) path p₁
      hmore hwmore (hl.later hwhead hadmits source) hwithin₁
    refine ⟨p₂, ?_, hwithin₂⟩
    rw [Branches.entries_branch, List.map_append]
    exact hwalks₁.append hwalks₂

end

end ControlFiles
