import ControlFiles.Proofs.Block.Outline
import ControlFiles.Proofs.Text.Alike

/-!
# Levels and their scopes

The writer takes the scopes of a statement apart into levels again. For levels of branches
(`Level.Formed`) this gives back what the scopes were made of (`Level.ofScopes_scopeList`).
-/

namespace ControlFiles

/-! ## Scopes of headers -/

namespace Scope

theorem foldl_addAlternative (parts : List Text) (s : Scope) :
    ∃ names token, parts.foldl addAlternative s = { s with names, token } := by
  induction parts generalizing s with
  | nil => exact ⟨s.names, s.token, rfl⟩
  | cons part parts ih =>
    have hstep : ∃ names token, s.addAlternative part = { s with names, token } := by
      rw [addAlternative]
      split
      · split
        · exact ⟨_, _, rfl⟩
        · exact ⟨_, _, rfl⟩
      · exact ⟨_, _, rfl⟩
    obtain ⟨names, token, hstep⟩ := hstep
    obtain ⟨names', token', hrest⟩ := ih (s.addAlternative part)
    rw [List.foldl_cons, hrest, hstep]
    exact ⟨names', token', rfl⟩

/-- The scope of a header has the names and the token of the header, and nothing else. -/
theorem ofText_eq (kind : ScopeKind) (t : Text) :
    ∃ names token, ofText kind t = { ofNames kind [] with names, token } :=
  foldl_addAlternative _ _

@[simp] theorem ofText_kind (kind : ScopeKind) (t : Text) : (ofText kind t).kind = kind := by
  obtain ⟨names, token, h⟩ := ofText_eq kind t
  rw [h]
  rfl

@[simp] theorem ofText_negated (kind : ScopeKind) (t : Text) :
    (ofText kind t).negated = false := by
  obtain ⟨names, token, h⟩ := ofText_eq kind t
  rw [h]
  rfl

@[simp] theorem negationOf_kind (kind : ScopeKind) (names : List Text) (fromElse : Bool)
    (qualifier : Option Text) : (negationOf kind names fromElse qualifier).kind = kind :=
  ofText_kind kind _

@[simp] theorem withSource_source (s : Scope) (source : BlockSource) :
    (s.withSource source).source = some source := rfl

@[simp] theorem withSource_kind (s : Scope) (source : BlockSource) :
    (s.withSource source).kind = s.kind := rfl

@[simp] theorem identical_self (s : Scope) : s.identical s = true := by
  simp [identical]

end Scope

namespace Level

/-! ## Levels as they are read -/

/-- The level is that of a branch: if a guard or a negation stands in it, it is of a block that can
branch. -/
structure Formed (l : Level) : Prop where
  kind : l.leaf.kind ≠ .global
  guard : ∀ g ∈ l.guard, g.negated = true ∧ g.fromElse = false ∧ g.kind.canBranch = true ∧
    g.sameBlock l.leaf = true ∧ l.leaf.negated = false
  leaf : l.leaf.negated = true → l.leaf.fromElse = true ∧ l.leaf.kind.canBranch = true

/-- The level is that of a branch, and was read from a place. -/
structure Proper (l : Level) : Prop extends Formed l where
  source : l.leaf.source.isSome = true

theorem opening_leaf_kind (h : Header) (source : BlockSource) :
    (opening h source).leaf.kind = h.kind := by
  simp only [opening, Scope.withSource_kind]
  split
  · rfl
  · exact Scope.ofText_kind h.kind h.names

theorem opening_leaf_negated (h : Header) (source : BlockSource) :
    (opening h source).leaf.negated = false := by
  rw [opening]
  show (if h.kind.isAnonymous = true then _ else _ : Scope).negated = false
  split
  · rfl
  · exact Scope.ofText_negated h.kind h.names

theorem proper_opening {h : Header} (hkind : h.kind ≠ .global) (source : BlockSource) :
    (opening h source).Proper where
  source := rfl
  kind := by rwa [opening_leaf_kind]
  guard := by simp [opening]
  leaf := by simp [opening_leaf_negated]

theorem proper_later {q : Question} {seen : List Text} {b : BranchLine} (h : q.Admits seen b)
    (left : List Text) (source : BlockSource) : (later q left source b.header?).Proper := by
  obtain ⟨hbranch, hadmits⟩ := h
  have hglobal : ∀ kind : ScopeKind, kind.canBranch = true → kind ≠ .global := by
    rintro kind hkind rfl
    cases hkind
  cases hb : b.header? with
  | none => exact
      { source := rfl
        kind := by simpa [later] using hglobal q.kind hbranch
        guard := by simp [later]
        leaf := fun _ => ⟨rfl, by simpa [later] using hbranch⟩ }
  | some header =>
    obtain ⟨hkind, -, -⟩ := hadmits header (by simp [hb])
    have hbranch' : header.kind.canBranch = true := by rw [hkind, hbranch]
    exact
      { source := rfl
        kind := by
          show (Scope.ofText header.kind header.names).kind ≠ .global
          rw [Scope.ofText_kind]
          exact hglobal _ hbranch'
        guard := by
          intro g hg
          obtain rfl := Option.mem_some.mp hg
          refine ⟨rfl, rfl, ?_, ?_, Scope.ofText_negated _ _⟩
          · simpa using hbranch'
          · simp [Scope.sameBlock, later, Scope.withSource, Scope.withQualifier, Scope.negationOf]
        leaf := by
          intro hneg
          have hfalse : (Scope.ofText header.kind header.names).negated = true := hneg
          rw [Scope.ofText_negated] at hfalse
          cases hfalse }

/-! ## Taking scopes apart -/

theorem group_scopes {l : Level} (h : l.Formed) (rest : List Scope) :
    group none (l.scopes ++ rest) = (group none rest).map (l :: ·) := by
  obtain ⟨guard, leaf⟩ := l
  cases guard with
  | none =>
    show group none (leaf :: rest) = _
    rw [group]
    cases hneg : leaf.negated with
    | false => simp
    | true =>
      obtain ⟨helse, hbranch⟩ := h.leaf hneg
      rw [helse, hbranch]
      simp
  | some g =>
    obtain ⟨hneg, helse, hbranch, hsame, hleaf⟩ := h.guard g rfl
    have hleaf : leaf.negated = false := hleaf
    show group none (g :: leaf :: rest) = _
    rw [group, hneg, helse, hbranch]
    simp only [Bool.not_true, Bool.and_false, Bool.false_eq_true, if_false, Bool.not_false,
      Bool.and_true, if_true]
    rw [group, hleaf]
    have hsame : g.sameBlock leaf = true := hsame
    simp [hsame]

theorem group_flatMap_scopes {path : List Level} (h : ∀ l ∈ path, l.Formed) :
    group none (path.flatMap scopes) = .ok path := by
  induction path with
  | nil => rfl
  | cons l path ih =>
    rw [List.flatMap_cons, group_scopes (h l List.mem_cons_self),
      ih fun k hk => h k (List.mem_cons_of_mem _ hk)]
    rfl

theorem mem_scopes_kind {l : Level} (h : l.Formed) : ∀ s ∈ l.scopes, s.kind ≠ .global := by
  intro s hs
  rcases List.mem_append.mp hs with hs | hs
  · obtain ⟨-, -, hbranch, -⟩ := h.guard s (Option.mem_toList.mp hs)
    intro hglobal
    rw [hglobal] at hbranch
    cases hbranch
  · rw [List.mem_singleton.mp hs]
    exact h.kind

/-- The levels of the scopes of some levels are these. -/
theorem ofScopes_scopeList {path : List Level} (h : ∀ l ∈ path, l.Formed) :
    ofScopes (ScopeList.withGlobal (scopeList path)) = .ok path := by
  have hfilter : (path.flatMap scopes).filter (·.kind != .global) = path.flatMap scopes := by
    refine List.filter_eq_self.mpr fun s hs => ?_
    obtain ⟨l, hl, hs⟩ := List.mem_flatMap.mp hs
    simpa using mem_scopes_kind (h l hl) s hs
  show group none (((scopeList path).filter (·.kind != .global))) = _
  rw [scopeList, List.filter_cons_of_neg (by decide), hfilter, group_flatMap_scopes h]

end Level

end ControlFiles
