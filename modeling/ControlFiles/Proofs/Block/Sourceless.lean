import ControlFiles.Proofs.Block.Generated
import ControlFiles.Proofs.ControlFile.Statements

/-!
# Scopes without a place

The scopes of a text lose the places that they were read from, as scopes are that an edit makes.
What is left of a level asks its question for the names of its header without repetitions: it is a
level that opens a block (`Level.isFirst_opening`), or a later branch behind the names that the
earlier ones have used (`Level.isLater_later`).
-/

namespace ControlFiles

/-! ## Losing the place -/

/-- The scope, not read from any place. -/
def Scope.withoutSource (s : Scope) : Scope := { s with source := none }

/-- The statement with scopes that were not read from any place. -/
def Statement.withoutSources (s : Statement) : Statement :=
  { s with scope := s.scope.map Scope.withoutSource }

/-- The level, not read from any place. -/
def Level.withoutSource (l : Level) : Level :=
  ⟨l.guard.map Scope.withoutSource, l.leaf.withoutSource⟩

/-- The entry with levels that were not read from any place. -/
def Entry.withoutSources (e : Entry) : Entry := { e with path := e.path.map Level.withoutSource }

theorem Level.map_withoutSource_scopes (l : Level) :
    l.scopes.map Scope.withoutSource = l.withoutSource.scopes := by
  cases hg : l.guard <;> simp [scopes, withoutSource, hg]

theorem Level.map_withoutSource_scopeList (path : List Level) :
    (scopeList path).map Scope.withoutSource = scopeList (path.map Level.withoutSource) := by
  simp only [scopeList, List.map_cons, List.map_flatMap, map_withoutSource_scopes,
    List.flatMap_map]
  rfl

theorem Entry.Gives.withoutSources {o : ReadOptions} {e : Entry} {s : Statement}
    (h : e.Gives o s) : e.withoutSources.Gives o s.withoutSources := by
  obtain ⟨id, rfl⟩ := h
  have hscope : e.scope.map Scope.withoutSource = e.withoutSources.scope :=
    Level.map_withoutSource_scopeList e.path
  refine ⟨id, ?_⟩
  cases hl : e.line? with
  | none =>
    simp only [Statement.withoutSources, statement, hl, Statement.placeholder, hscope]
    simp only [Entry.withoutSources, hl]
  | some l =>
    simp only [Statement.withoutSources, statement, hl, Statement.ofLine, hscope]
    simp only [Entry.withoutSources, hl]

/-! ## Levels that can be written -/

namespace Level

/-- A level that opens a block, with a header that can be generated. -/
inductive IsFirst : Level → Prop
  | asking {q : Question} {names : List Text} (hq : q.Openable) (hnames : Listing names)
      (hne : names = [] ↔ q.kind.isAnonymous = true) : IsFirst ⟨none, .asking q names⟩

/-- A level behind branches that used up some names, with a header that can be generated. -/
inductive IsLater : List Text → Level → Prop
  | elseIf {q : Question} {used names : List Text} (hq : q.Readable)
      (hnames : Listing (used ++ names)) (hne : names ≠ []) :
      IsLater used ⟨some (.excluding q used false), .asking q names⟩
  | otherwise {q : Question} {used : List Text} (hq : q.Readable) (hused : Listing used) :
      IsLater used ⟨none, .excluding q used true⟩

theorem IsFirst.formed {l : Level} (h : l.IsFirst) : l.Formed := by
  cases h with
  | @asking q names hq _ _ =>
    refine ⟨?_, nofun, nofun⟩
    rcases hq with rfl | ⟨ws, hws⟩
    · exact nofun
    · intro hglobal
      have hkind : q.kind = .global := hglobal
      have hanonymous := hws.isAnonymous
      rw [hkind] at hanonymous
      cases hanonymous

theorem IsLater.formed {used : List Text} {l : Level} (h : l.IsLater used) : l.Formed := by
  have hglobal : ∀ {q : Question}, q.Readable → q.kind ≠ .global := by
    intro q hq hglobal
    have hbranch := hq.canBranch
    rw [hglobal] at hbranch
    cases hbranch
  cases h with
  | elseIf hq _ _ => exact
      { kind := hglobal hq
        guard := by
          intro g hg
          obtain rfl := Option.mem_some.mp hg
          exact ⟨rfl, rfl, hq.canBranch, by simp [Scope.sameBlock], rfl⟩
        leaf := by simp }
  | otherwise hq _ => exact
      { kind := hglobal hq
        guard := by simp
        leaf := fun _ => ⟨rfl, hq.canBranch⟩ }

end Level

/-! ## Levels of a text -/

/-- A header that can be generated again. -/
structure Header.Writable (h : Header) : Prop where
  openable : h.question.Openable
  isListed : ∀ name ∈ h.nameList, name.IsListed
  plain : PlainNames h.nameList
  named : h.nameList = [] ↔ h.kind.isAnonymous = true

theorem Question.nameList_header (q : Question) {names : List Text} (h : Listing names) :
    (q.header names).nameList = names := Text.alternatives_join h.isName

theorem Question.writable_header {q : Question} {names : List Text} (hq : q.Openable)
    (hnames : Listing names) (hne : names = [] ↔ q.kind.isAnonymous = true) :
    (q.header names).Writable := by
  have hlist := q.nameList_header hnames
  exact ⟨hq, hlist.symm ▸ hnames.isListed, hlist.symm ▸ hnames.plain, hlist.symm ▸ hne⟩

namespace Scope

theorem withoutSource_negationOf {names : List Text} (hnames : ∀ name ∈ names, name.IsListed)
    (hplain : PlainNames names) (kind : ScopeKind) (fromElse : Bool) (qualifier : Option Text)
    (source : BlockSource) :
    ((negationOf kind names fromElse qualifier).withSource source).withoutSource =
      excluding ⟨kind, qualifier⟩ (Text.addNew [] names) fromElse := by
  rw [negationOf_of_plain kind fromElse qualifier (fun name hname => (hnames name hname).isName)
    hplain]
  rfl

theorem withoutSource_ofText {h : Header} (hplain : PlainNames h.nameList) (source : BlockSource) :
    (((ofText h.kind h.names).withQualifier h.qualifier).withSource source).withoutSource =
      asking h.question (Text.addNew [] h.nameList) := by
  rw [ofText_of_plain h.kind hplain]
  rfl

end Scope

namespace Level

theorem withoutSource_opening {h : Header} (hh : h.Writable) (source : BlockSource) :
    (opening h source).withoutSource = ⟨none, .asking h.question (Text.addNew [] h.nameList)⟩ := by
  cases hanonymous : h.kind.isAnonymous with
  | false =>
    rw [← Scope.withoutSource_ofText hh.plain source]
    simp [withoutSource, opening, hanonymous]
  | true =>
    rcases hh.openable with hdomain | ⟨ws, hws⟩
    · have hqualifier : h.qualifier = none := congrArg Question.qualifier hdomain
      simp only [withoutSource, opening, hanonymous, if_true, hh.named.mpr hanonymous]
      simp [Scope.withoutSource, Scope.withSource, Scope.ofNames, Scope.asking, Text.addNew,
        Header.question, hqualifier]
    · have hnot : h.kind.isAnonymous = false := hws.isAnonymous
      rw [hnot] at hanonymous
      cases hanonymous

/-- A header of a text opens a block that can be opened again. -/
theorem isFirst_opening {h : Header} (hh : h.Writable) (source : BlockSource) :
    (opening h source).withoutSource.IsFirst := by
  rw [withoutSource_opening hh]
  refine .asking hh.openable (.addNew hh.isListed hh.plain) ?_
  rw [Text.addNew_eq_nil_iff]
  exact hh.named

section
variable {q : Question} {seen : List Text} {b : BranchLine}

theorem withoutSource_else (hseen : ∀ name ∈ seen, name.IsListed) (hplain : PlainNames seen)
    (source : BlockSource) : (later q seen source none).withoutSource =
      ⟨none, .excluding q (Text.addNew [] seen) true⟩ := by
  rw [← Scope.withoutSource_negationOf hseen hplain]
  rfl

theorem withoutSource_elseIf (hseen : ∀ name ∈ seen, name.IsListed) (hplain : PlainNames seen)
    {h : Header} (hh : h.Writable) (source : BlockSource) :
    (later q seen source (some h)).withoutSource =
      ⟨some (.excluding h.question (Text.addNew [] seen) false),
        .asking h.question (Text.addNew [] h.nameList)⟩ := by
  rw [← Scope.withoutSource_ofText hh.plain source]
  show Level.mk (some _) _ = _
  rw [Scope.withoutSource_negationOf hseen hplain]
  rfl

/-- A later branch of a text is one behind the names that the earlier branches have used. -/
theorem isLater_later (hq : q.Openable) (hseen : ∀ name ∈ seen, name.IsListed)
    (hplain : PlainNames seen) (hb : ∀ h ∈ b.header?, h.Writable) (hadmits : q.Admits seen b)
    (source : BlockSource) :
    (later q seen source b.header?).withoutSource.IsLater (Text.addNew [] seen) := by
  obtain ⟨hbranch, hadmits⟩ := hadmits
  cases hheader : b.header? with
  | none =>
    rw [withoutSource_else hseen hplain]
    exact .otherwise (hq.readable hbranch) (.addNew hseen hplain)
  | some h =>
    have hh := hb h hheader
    obtain ⟨hkind, -, hnew⟩ := hadmits h hheader
    have hbranch' : h.kind.canBranch = true := by rw [hkind, hbranch]
    rw [withoutSource_elseIf hseen hplain hh]
    refine .elseIf (hh.openable.readable hbranch') ?_ ?_
    · rw [← Text.addNew_append hnew]
      refine .addNew (fun name hname => ?_) (hplain.append hh.plain)
      rcases List.mem_append.mp hname with hname | hname
      · exact hseen name hname
      · exact hh.isListed name hname
    · rw [Ne, Text.addNew_eq_nil_iff, hh.named]
      simp [ScopeKind.isAnonymous_of_canBranch hbranch']

end

end Level

end ControlFiles
