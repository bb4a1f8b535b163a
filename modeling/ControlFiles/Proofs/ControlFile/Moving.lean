import ControlFiles.Proofs.Block.Following
import ControlFiles.Proofs.ControlFile.Writing
import Mathlib.Data.List.Forall2

/-!
# Moving between levels without a place

The writer compares its open blocks with the levels of a statement by their scopes alone when these
were not read from any place. An open block can then stand for a level of another block
(`OpenLevel.Holds`), but it is never taken for the branch behind its own, and always goes on with
it. So a move between the levels of a text closes blocks and opens others, or closes blocks, begins
the next branch and opens others, and the open blocks stand for the levels again
(`Layout.holds_move`).
-/

namespace ControlFiles

/-! ## Scopes that agree -/

/-- The scope lists agree but for the places that they were read from. -/
def ScopeList.Identical (l k : List Scope) : Prop :=
  List.Forall₂ (fun s t => s.identical t = true) l k

namespace Scope

theorem identical_iff {s t : Scope} : s.identical t = true ↔
    s.kind = t.kind ∧ s.negated = t.negated ∧ s.fromElse = t.fromElse ∧
      s.qualifier.map Text.lower = t.qualifier.map Text.lower ∧
      s.token.map Text.lower = t.token.map Text.lower ∧
      s.names.map Text.lower = t.names.map Text.lower := by
  simp [identical, Text.alike?_iff, and_assoc]

theorem identical_symm {s t : Scope} (h : s.identical t = true) : t.identical s = true := by
  obtain ⟨h₁, h₂, h₃, h₄, h₅, h₆⟩ := identical_iff.mp h
  exact identical_iff.mpr ⟨h₁.symm, h₂.symm, h₃.symm, h₄.symm, h₅.symm, h₆.symm⟩

theorem identical_trans {s t u : Scope} (h : s.identical t = true) (h' : t.identical u = true) :
    s.identical u = true := by
  obtain ⟨h₁, h₂, h₃, h₄, h₅, h₆⟩ := identical_iff.mp h
  obtain ⟨k₁, k₂, k₃, k₄, k₅, k₆⟩ := identical_iff.mp h'
  exact identical_iff.mpr ⟨h₁.trans k₁, h₂.trans k₂, h₃.trans k₃, h₄.trans k₄, h₅.trans k₅,
    h₆.trans k₆⟩

/-- Scopes that agree list the same alternatives. -/
theorem map_lower_alternatives {s t : Scope} (h : s.identical t = true) :
    s.alternatives.map Text.lower = t.alternatives.map Text.lower := by
  obtain ⟨-, -, -, -, htoken, hnames⟩ := identical_iff.mp h
  have hempty : s.names.isEmpty = t.names.isEmpty := by
    rw [← List.isEmpty_map (f := Text.lower), hnames, List.isEmpty_map]
  rw [alternatives, alternatives, hempty]
  split
  · have htokens := congrArg Option.toList htoken
    simpa [Option.toList_map] using htokens
  · exact hnames

end Scope

namespace ScopeList

theorem Identical.refl (l : List Scope) : Identical l l :=
  List.forall₂_same.mpr fun s _ => s.identical_self

theorem Identical.symm {l k : List Scope} (h : Identical l k) : Identical k l :=
  (List.Forall₂.flip h).imp fun _ _ => Scope.identical_symm

theorem Identical.trans {l k m : List Scope} (h : Identical l k) (h' : Identical k m) :
    Identical l m := by
  induction h generalizing m with
  | nil => exact h'
  | cons hs _ ih =>
    cases h' with
    | cons hs' h' => exact .cons (Scope.identical_trans hs hs') (ih h')

end ScopeList

namespace Level

section
variable {l k : Level}

theorem identical_scopes (h : ScopeList.Identical l.scopes k.scopes) :
    sameGuard l.guard k.guard = true ∧ l.leaf.identical k.leaf = true := by
  obtain ⟨guard, leaf⟩ := l
  obtain ⟨guard', leaf'⟩ := k
  cases guard with
  | none =>
    cases guard' with
    | none =>
      cases h with
      | cons hleaf _ => exact ⟨rfl, hleaf⟩
    | some g' =>
      cases h with
      | cons _ h => cases h
  | some g =>
    cases guard' with
    | none =>
      cases h with
      | cons _ h => cases h
    | some g' =>
      cases h with
      | cons hguard h =>
        cases h with
        | cons hleaf _ => exact ⟨hguard, hleaf⟩

theorem identical_withoutSource (l : Level) :
    ScopeList.Identical l.scopes l.withoutSource.scopes := by
  rw [← map_withoutSource_scopes]
  exact List.forall₂_map_right_iff.mpr (ScopeList.Identical.refl l.scopes)

/-- Levels that were not read from any place are the same if their scopes agree. -/
theorem identical_iff (hl : l.leaf.source = none) (hk : k.leaf.source = none) :
    l.identical k = true ↔ ScopeList.Identical l.scopes k.scopes := by
  have hsource : sameSource l.leaf.source k.leaf.source = true := by rw [hl, hk]; rfl
  rw [identical, hsource, Bool.and_true, Bool.and_eq_true]
  refine ⟨fun h => ?_, identical_scopes⟩
  obtain ⟨hguard, hleaf⟩ := h
  obtain ⟨guard, leaf⟩ := l
  obtain ⟨guard', leaf'⟩ := k
  cases guard <;> cases guard' <;> first
    | cases hguard
    | skip
  · exact .cons hleaf .nil
  · exact .cons hguard (.cons hleaf .nil)

theorem map_lower_uses (h : ScopeList.Identical l.scopes k.scopes) :
    l.uses.map Text.lower = k.uses.map Text.lower := by
  obtain ⟨hguard, hleaf⟩ := identical_scopes h
  rw [uses, uses, List.map_append, List.map_append, Scope.map_lower_alternatives hleaf]
  congr 1
  obtain ⟨guard, leaf⟩ := l
  obtain ⟨guard', leaf'⟩ := k
  cases guard <;> cases guard' <;> first
    | cases hguard
    | skip
  · rfl
  · exact Scope.map_lower_alternatives hguard

theorem isElse_congr (h : ScopeList.Identical l.scopes k.scopes) : l.isElse = k.isElse := by
  obtain ⟨hguard, hleaf⟩ := identical_scopes h
  obtain ⟨-, hnegated, -⟩ := Scope.identical_iff.mp hleaf
  rw [isElse, isElse, hnegated]
  cases hl : l.guard <;> cases hk : k.guard <;> simp_all [sameGuard]

theorem IsFirst.source (h : l.IsFirst) : l.leaf.source = none := by
  cases h
  rfl

theorem IsLater.source {used : List Text} (h : l.IsLater used) : l.leaf.source = none := by
  cases h <;> rfl

end

end Level

/-! ## Open blocks -/

/-- The open block stands for the level: their scopes agree, neither was read from any place, and
the block counts the names that the level has used. -/
structure OpenLevel.Holds (o : OpenLevel) (l : Level) : Prop where
  source : o.level.leaf.source = none
  unread : l.leaf.source = none
  agrees : ScopeList.Identical o.level.scopes l.scopes
  listing : Listing o.seen
  counted : o.seen.map Text.lower = o.level.uses.map Text.lower

namespace OpenLevel

theorem Holds.identical {o : OpenLevel} {l : Level} (h : o.Holds l) : o.level.identical l = true :=
  (Level.identical_iff h.source h.unread).mpr h.agrees

/-- An open block stands for every level that the writer takes for its own. -/
theorem Holds.of_identical {o : OpenLevel} {l k : Level} (h : o.Holds l)
    (hk : k.leaf.source = none) (hidentical : o.level.identical k = true) : o.Holds k :=
  ⟨h.source, hk, (Level.identical_iff h.source hk).mp hidentical, h.listing, h.counted⟩

/-- A block is open with the names of its first branch. -/
theorem holds_ofLevel {l : Level} (h : l.IsFirst) : (ofLevel l).Holds l where
  source := h.source
  unread := h.source
  agrees := .refl _
  listing := by
    cases h with
    | asking hq hnames hne => simpa [ofLevel, Level.uses] using hnames
  counted := rfl

section
variable {o : OpenLevel} {l k : Level}

theorem sameNames_of_map_lower {a b : List Text} (h : a.map Text.lower = b.map Text.lower) :
    sameNames a b = true := by
  have hlength : a.length = b.length := by
    rw [← List.length_map (f := Text.lower), h, List.length_map]
  have hall : ∀ name ∈ a, Text.listed b name = true := fun name hname => by
    rw [Text.listed_iff, ← h]
    exact List.mem_map_of_mem hname
  simp [sameNames, hlength, List.all_eq_true.mpr hall]

/-- The names that the open block counts are those behind which the next branch comes. -/
theorem Holds.map_lower_seen (h : o.Holds l) : l.uses.map Text.lower = o.seen.map Text.lower := by
  rw [h.counted, Level.map_lower_uses h.agrees]

theorem Holds.sameBlock (h : o.Holds l) (hk : l.Precedes k) :
    o.level.leaf.sameBlock k.leaf = true := by
  obtain ⟨-, hleaf⟩ := Level.identical_scopes h.agrees
  obtain ⟨hkind, -, -, hqualifier, -, -⟩ := Scope.identical_iff.mp hleaf
  have hsame := hk.sameBlock
  simp only [Scope.sameBlock, Bool.and_eq_true, beq_iff_eq, Text.alike?_iff] at hsame ⊢
  exact ⟨hkind.trans hsame.1, hqualifier.trans hsame.2⟩

theorem Holds.notElse (h : o.Holds l) (hk : l.Precedes k) : o.level.isElse = false := by
  rw [Level.isElse_congr h.agrees, hk.notElse]

/-- A block goes on with the branch behind its own. -/
theorem Holds.continuesWith (h : o.Holds l) (hk : l.Precedes k) : o.continuesWith k = true := by
  have hnames := sameNames_of_map_lower h.map_lower_seen
  have hlater := hk.isLater
  rw [OpenLevel.continuesWith, h.sameBlock hk, h.notElse hk, h.source]
  generalize l.uses = used at hnames hlater
  cases hlater with
  | elseIf hq _ _ => simp [hq.canBranch, hnames]
  | otherwise hq _ => simp [hq.canBranch, hnames]

/-- It is never taken for the branch behind its own: an `Else If` uses more names than the block
counts, and an `Else` has only the names that it counts. -/
theorem Holds.not_identical (h : o.Holds l) (hk : l.Precedes k) :
    o.level.identical k = false := by
  rw [← Bool.not_eq_true, Level.identical_iff h.source hk.isLater.source]
  intro hagrees
  have huses : l.uses.map Text.lower = k.uses.map Text.lower :=
    (Level.map_lower_uses h.agrees).symm.trans (Level.map_lower_uses hagrees)
  have helse : k.isElse = false := (Level.isElse_congr hagrees).symm.trans (h.notElse hk)
  have hlater := hk.isLater
  generalize l.uses = used at huses hlater
  cases hlater with
  | elseIf hq hnames hne =>
    have hlength := congrArg List.length huses
    simp only [Level.uses, Option.map_some, Option.getD_some, Scope.alternatives_excluding,
      Scope.alternatives_asking, List.map_append, List.length_append, List.length_map] at hlength
    exact hne (List.length_eq_zero_iff.mp (by omega))
  | otherwise hq _ => cases helse

/-- The block stands for its next branch when it has gone on. -/
theorem Holds.advance (h : o.Holds l) (hk : l.Precedes k) : (o.advance k).Holds k where
  source := hk.isLater.source
  unread := hk.isLater.source
  agrees := .refl _
  listing := by
    have hseen := h.map_lower_seen
    have hlater := hk.isLater
    generalize l.uses = used at hseen hlater
    cases hlater with
    | elseIf hq hnames hne =>
      have hmore := hnames.of_append_right
      rw [OpenLevel.advance]
      simp only [Option.isSome_some, if_true, Scope.alternatives_asking]
      refine ⟨fun name hname => ?_, h.listing.plain.append hmore.plain, ?_⟩
      · rcases List.mem_append.mp hname with hname | hname
        · exact h.listing.isListed name hname
        · exact hmore.isListed name hname
      · rw [List.map_append, ← hseen, ← List.map_append]
        exact hnames.distinct
    | otherwise hq _ => exact h.listing
  counted := by
    have hseen := h.map_lower_seen
    have hlater := hk.isLater
    generalize l.uses = used at hseen hlater
    cases hlater with
    | elseIf hq hnames hne => simp [OpenLevel.advance, Level.uses, hseen]
    | otherwise hq _ => simp [OpenLevel.advance, Level.uses, hseen]

end

end OpenLevel

namespace Layout

/-! ## Moving -/

theorem continuesWith_isFirst {l : Level} (h : l.IsFirst) (o : OpenLevel) :
    o.continuesWith l = false := by
  cases h with
  | asking _ _ _ => simp [OpenLevel.continuesWith]

theorem common_nil (blocks : List OpenLevel) : common blocks [] = 0 := by
  cases blocks <;> rfl

theorem common_cons (o : OpenLevel) (blocks : List OpenLevel) (l : Level) (target : List Level) :
    common (o :: blocks) (l :: target) =
      if o.level.identical l then common blocks target + 1 else 0 := rfl

variable {blocks kept closed : List OpenLevel} {p p' path opened : List Level}

/-- If only first branches are opened, the blocks that stay stand for the levels that they are taken
for. -/
theorem exists_common_isFirst (hblocks : List.Forall₂ OpenLevel.Holds blocks p)
    (hp' : ∀ l ∈ p', l.IsFirst) : ∃ kept closed path opened, blocks = kept ++ closed ∧
      p' = path ++ opened ∧ common blocks p' = kept.length ∧
        List.Forall₂ OpenLevel.Holds kept path ∧ ∀ l ∈ opened, l.IsFirst := by
  induction p' generalizing blocks p with
  | nil => exact ⟨[], blocks, [], [], rfl, rfl, common_nil blocks, .nil, hp'⟩
  | cons l p' ih =>
    obtain ⟨hl, hrest⟩ := List.forall_mem_cons.mp hp'
    cases hblocks with
    | nil => exact ⟨[], [], [], l :: p', rfl, rfl, rfl, .nil, hp'⟩
    | @cons o l' blocks p ho hblocks =>
      cases hidentical : o.level.identical l with
      | false =>
        refine ⟨[], o :: blocks, [], l :: p', rfl, rfl, ?_, .nil, hp'⟩
        simp [common_cons, hidentical]
      | true =>
        obtain ⟨kept, closed, path, opened, rfl, rfl, hcommon, hkept, hopened⟩ := ih hblocks hrest
        refine ⟨o :: kept, closed, l :: path, opened, rfl, rfl, ?_,
          .cons (ho.of_identical hl.source hidentical) hkept, hopened⟩
        simp [common_cons, hidentical, hcommon]

/-- The blocks that stay open from one statement to the next, and what is left on both sides: either
first branches are opened, or the outermost block that does not stay goes on with its next
branch. -/
theorem exists_common (h : Level.Follows p p') (hblocks : List.Forall₂ OpenLevel.Holds blocks p) :
    ∃ kept closed path opened, blocks = kept ++ closed ∧ p' = path ++ opened ∧
      common blocks p' = kept.length ∧ List.Forall₂ OpenLevel.Holds kept path ∧
        ((∀ l ∈ opened, l.IsFirst) ∨ ∃ o inner l k deep, closed = o :: inner ∧ opened = k :: deep ∧
          o.Holds l ∧ l.Precedes k ∧ ∀ l ∈ deep, l.IsFirst) := by
  induction h generalizing blocks with
  | opens p hp' =>
    obtain ⟨kept, closed, path, opened, hsplit, hsplit', hcommon, hkept, hopened⟩ :=
      exists_common_isFirst hblocks hp'
    exact ⟨kept, closed, path, opened, hsplit, hsplit', hcommon, hkept, .inl hopened⟩
  | @next l k hk p p' hp' =>
    cases hblocks with
    | @cons o _ blocks _ ho hblocks =>
      refine ⟨[], o :: blocks, [], k :: p', rfl, rfl, ?_, .nil,
        .inr ⟨o, blocks, l, k, p', rfl, rfl, ho, hk, hp'⟩⟩
      simp [common_cons, ho.not_identical hk]
  | inside l _ ih =>
    cases hblocks with
    | @cons o _ blocks _ ho hblocks =>
      obtain ⟨kept, closed, path, opened, rfl, rfl, hcommon, hkept, hnew⟩ := ih hblocks
      refine ⟨o :: kept, closed, l :: path, opened, rfl, rfl, ?_, .cons ho hkept, hnew⟩
      simp [common_cons, ho.identical, hcommon]

theorem move_isFirst (hkept : List.Forall₂ OpenLevel.Holds kept path)
    (hcommon : common (kept ++ closed) (path ++ opened) = kept.length)
    (hopened : ∀ l ∈ opened, l.IsFirst) :
    move (kept ++ closed) (path ++ opened) = (kept ++ opened.map .ofLevel,
      closeAll kept.length closed ++ openAll kept.length opened) := by
  rw [move, hcommon]
  simp only [List.take_left', List.drop_left']
  rw [List.drop_left' hkept.length_eq.symm]
  cases closed with
  | nil => simp [closeAll]
  | cons o inner =>
    cases opened with
    | nil => simp [openAll]
    | cons l deep =>
      simp [continuesWith_isFirst (hopened l List.mem_cons_self) o]

theorem move_next {o : OpenLevel} {inner : List OpenLevel} {l k : Level} {deep : List Level}
    (hkept : List.Forall₂ OpenLevel.Holds kept path)
    (hcommon : common (kept ++ o :: inner) (path ++ k :: deep) = kept.length)
    (ho : o.Holds l) (hk : l.Precedes k) :
    move (kept ++ o :: inner) (path ++ k :: deep) = (kept ++ o.advance k :: deep.map .ofLevel,
      closeAll (kept.length + 1) inner ++
        indent kept.length k.branchText :: openAll (kept.length + 1) deep) := by
  rw [move, hcommon]
  simp only [List.take_left', List.drop_left']
  rw [List.drop_left' hkept.length_eq.symm]
  simp [ho.continuesWith hk]

theorem forall₂_holds_ofLevel (h : ∀ l ∈ opened, l.IsFirst) :
    List.Forall₂ OpenLevel.Holds (opened.map .ofLevel) opened :=
  List.forall₂_map_left_iff.mpr
    (List.forall₂_same.mpr fun l hl => OpenLevel.holds_ofLevel (h l hl))

/-- After a move the open blocks stand for the levels of the statement. -/
theorem holds_move (h : Level.Follows p p') (hblocks : List.Forall₂ OpenLevel.Holds blocks p) :
    List.Forall₂ OpenLevel.Holds (move blocks p').1 p' := by
  obtain ⟨kept, closed, path, opened, rfl, rfl, hcommon, hkept, hopened | hnext⟩ :=
    exists_common h hblocks
  · rw [move_isFirst hkept hcommon hopened]
    exact List.rel_append hkept (forall₂_holds_ofLevel hopened)
  · obtain ⟨o, inner, l, k, deep, rfl, rfl, ho, hk, hdeep⟩ := hnext
    rw [move_next hkept hcommon ho hk]
    exact List.rel_append hkept (.cons (ho.advance hk) (forall₂_holds_ofLevel hdeep))

end Layout

end ControlFiles
