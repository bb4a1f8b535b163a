import ControlFiles.Proofs.ControlFile.WrittenOutline
import ControlFiles.Run.Context

/-!
# What a branch asks for and what it excludes

A statement is in force if the run has chosen a name of each branch around it (`Context.enters`) and
none of the names that earlier branches of these blocks have used (`Context.spares`). A statement
that is left of an outline stands behind the same conditions in the pruned outline
(`Outline.matches_pruned`); what is excluded there is up to the branches that are left, and to the
header that is made for those that are gone.
-/

namespace ControlFiles

/-! ## Conditions and exclusions -/

namespace Level

/-- The scope that asks for a name of the branch; an `Else` branch has none. -/
def condition? (l : Level) : Option Scope := if l.isElse then none else some l.leaf

/-- The scope that excludes the names which earlier branches have used. -/
def exclusion? (l : Level) : Option Scope := if l.isElse then some l.leaf else l.guard

/-- The levels ask for the same. -/
def SameCondition (l k : Level) : Prop :=
  ∀ c : Context, l.condition?.all c.holds = k.condition?.all c.holds

theorem all_holds_scopes (c : Context) (l : Level) :
    l.scopes.all c.holds = (l.condition?.all c.holds && l.exclusion?.all c.holds) := by
  rw [scopes, condition?, exclusion?]
  cases helse : l.isElse with
  | true =>
    have hguard : l.guard = none := by
      rw [isElse, Bool.and_eq_true] at helse
      exact Option.isNone_iff_eq_none.mp helse.1
    simp [hguard]
  | false => cases l.guard <;> simp [Bool.and_comm]

theorem sameCondition_opening (h : Header) (source source' : BlockSource) :
    (opening h source).SameCondition (opening h source') := by
  intro c
  rw [condition?, condition?, opening_isElse, opening_isElse]
  rfl

theorem sameCondition_later (q q' : Question) (seen seen' : List Text)
    (source source' : BlockSource) (header? : Option Header) :
    (later q seen source header?).SameCondition (later q' seen' source' header?) := by
  intro c
  rw [condition?, condition?, later_isElse, later_isElse]
  cases header? <;> rfl

end Level

namespace Context

/-- The run has chosen a name of each of the branches. -/
def enters (c : Context) (path : List Level) : Bool :=
  path.all fun l => l.condition?.all c.holds

/-- The run has chosen none of the names that were used before the branches. -/
def spares (c : Context) (path : List Level) : Bool :=
  path.all fun l => l.exclusion?.all c.holds

theorem isActive_eq (c : Context) (path : List Level) :
    c.isActive (Level.scopeList path) = (c.enters path && c.spares path) := by
  have hpath : (path.flatMap Level.scopes).all c.holds = (c.enters path && c.spares path) := by
    induction path with
    | nil => rfl
    | cons l path ih =>
      rw [List.flatMap_cons, List.all_append, ih, Level.all_holds_scopes, enters, enters, spares,
        spares, List.all_cons, List.all_cons]
      ac_rfl
  rw [isActive, Level.scopeList, List.all_cons, hpath]
  rfl

theorem enters_eq (c : Context) {path path' : List Level}
    (h : List.Forall₂ Level.SameCondition path path') : c.enters path = c.enters path' := by
  induction h with
  | nil => rfl
  | cons hl _ ih =>
    rw [enters, enters, List.all_cons, List.all_cons, hl c]
    exact congrArg _ ih

end Context

/-! ## Entries that are left -/

/-- The entries of lines; the others are placeholders. -/
def lined (es : List Entry) : List Entry := es.filter fun e => e.line?.isSome

theorem lined_append (a b : List Entry) : lined (a ++ b) = lined a ++ lined b :=
  List.filter_append a b

/-- The second entry is that of the line of the first one, as it is read after it is written, and
stands behind the same conditions. -/
structure Entry.Matches (e e' : Entry) : Prop where
  line : e'.line? = e.line?.map Line.cleared
  path : List.Forall₂ Level.SameCondition e.path e'.path

theorem Outline.lined_kept_branchEntries (keep : Nat → Bool) (closes : Closes) (n : Nat)
    (path : List Level) (body : Outline) :
    lined (kept keep (body.branchEntries closes n path)) =
      lined (kept keep (body.entries closes n path)) := by
  have hnone : lined (kept keep (body.placeholder (n + body.size) path)) = [] := by
    refine List.filter_eq_nil_iff.mpr fun e he => ?_
    have he := List.mem_of_mem_filter he
    rw [placeholder] at he
    split at he
    · simp [List.mem_singleton.mp he]
    · cases he
  rw [branchEntries, kept_append, lined_append, hnone, List.append_nil]

theorem Outline.lined_branchEntries (closes : Closes) (n : Nat) (path : List Level)
    (body : Outline) :
    lined (body.branchEntries closes n path) = lined (body.entries closes n path) := by
  have h := body.lined_kept_branchEntries (fun _ => true) closes n path
  simpa [kept] using h

theorem Level.sameConditions_append {path path' : List Level}
    (h : List.Forall₂ SameCondition path path') {l l' : Level} (hl : l.SameCondition l') :
    List.Forall₂ SameCondition (path ++ [l]) (path' ++ [l']) :=
  List.rel_append h (.cons hl .nil)

section
variable (keep : Nat → Bool) (closes closes' : Closes)

mutual

/-- The lines that are left of an outline are those of the pruned outline, behind the same
conditions. -/
theorem Outline.matches_pruned : ∀ (t : Outline) (n n' : Nat) {path path' : List Level},
    List.Forall₂ Level.SameCondition path path' →
      List.Forall₂ Entry.Matches (lined (kept keep (t.entries closes n path)))
        (lined ((t.pruned keep n).entries closes' n' path'))
  | .nil, _, _, _, _, _ => .nil
  | .line l rest, n, n', path, path', hpath => by
    have ih := Outline.matches_pruned rest (n + 1)
    rw [Outline.entries, Outline.pruned, kept, List.filter_cons]
    split
    · exact .cons ⟨rfl, hpath⟩ (ih (n' + 1) hpath)
    · exact ih n' hpath
  | .block head first more close rest, n, n', path, path', hpath => by
    have hrest := fun m => Outline.matches_pruned rest (n + 1 + first.size + more.size + 1) m hpath
    rw [Outline.entries_block, kept_append, kept_append, lined_append, lined_append, Outline.pruned]
    cases hlive : first.live keep (n + 1) with
    | true =>
      have hinner := Level.sameConditions_append hpath (Level.sameCondition_opening head.header
        (closes.source n n head.line.text) (closes'.source n' n' head.line.text))
      rw [if_pos rfl, Outline.entries_block, lined_append, lined_append,
        Outline.lined_kept_branchEntries, Outline.lined_branchEntries]
      exact List.rel_append (Outline.matches_pruned first (n + 1) _ hinner)
        (List.rel_append (Branches.matches_pruned more _ _ _ _ _ _ _ _ hpath) (hrest _))
    | false =>
      rw [if_neg (by decide), (first.kept_branchEntries_eq_nil keep closes _ _).mpr hlive]
      exact Branches.matches_reopened more _ _ _ _ _ close hpath _ hrest

/-- The lines that are left of some branches are those of the pruned branches. -/
theorem Branches.matches_pruned : ∀ (t : Branches) (block block' : Nat) (q q' : Question)
    (seen seen' : List Text) (n n' : Nat) {path path' : List Level},
      List.Forall₂ Level.SameCondition path path' →
        List.Forall₂ Entry.Matches (lined (kept keep (t.entries closes block q seen n path)))
          (lined ((t.pruned keep n).entries closes' block' q' seen' n' path'))
  | .nil, _, _, _, _, _, _, _, _, _, _, _ => .nil
  | .branch head body more, block, block', q, q', seen, seen', n, n', path, path', hpath => by
    have hmore := fun seen' m => Branches.matches_pruned more block block' q q'
      (seen ++ head.nameList) seen' (n + 1 + body.size) m hpath
    rw [Branches.entries_branch, kept_append, lined_append, Branches.pruned]
    cases hlive : body.live keep (n + 1) with
    | true =>
      have hinner := Level.sameConditions_append hpath (Level.sameCondition_later q q' seen seen'
        (closes.source block n head.line.text) (closes'.source block' n' head.line.text)
        head.header?)
      rw [if_pos rfl, Branches.entries_branch, lined_append, Outline.lined_kept_branchEntries,
        Outline.lined_branchEntries]
      exact List.rel_append (Outline.matches_pruned body (n + 1) _ hinner) (hmore _ _)
    | false =>
      rw [if_neg (by decide), (body.kept_branchEntries_eq_nil keep closes _ _).mpr hlive]
      exact hmore seen' n'

/-- The lines that are left of a block of which the first branches are gone, and the entries `es`
behind it, are those of the block with the header that is made. -/
theorem Branches.matches_reopened : ∀ (t : Branches) (block : Nat) (q : Question)
    (seen : List Text) (n n' : Nat) {after : Outline} (close : ClosingLine)
    {path path' : List Level}, List.Forall₂ Level.SameCondition path path' →
      ∀ es : List Entry, (∀ m, List.Forall₂ Entry.Matches es
        (lined (after.entries closes' m path'))) →
          List.Forall₂ Entry.Matches
            (lined (kept keep (t.entries closes block q seen n path)) ++ es)
            (lined ((t.reopened keep q seen n close after).entries closes' n' path'))
  | .nil, _, _, _, _, _, _, _, _, _, _, _, hafter => hafter _
  | .branch head body more, block, q, seen, n, n', after, close, path, path', hpath, es,
      hafter => by
    rw [Branches.entries_branch, kept_append, lined_append, Branches.reopened]
    cases hlive : body.live keep (n + 1) with
    | true =>
      have hinner := fun q' seen' block' n' => Level.sameConditions_append hpath
        (Level.sameCondition_later q q' seen seen' (closes.source block n head.line.text)
          (closes'.source block' n' head.line.text) head.header?)
      rw [if_pos rfl, Outline.entries_block, Branches.entries_branch, lined_append, lined_append,
        lined_append, Outline.lined_kept_branchEntries, Outline.lined_branchEntries,
        Outline.lined_branchEntries, List.append_assoc, List.append_assoc]
      exact List.rel_append (Outline.matches_pruned body (n + 1) _ (hinner _ _ _ _))
        (List.rel_append (Branches.matches_pruned more _ _ _ _ _ _ _ _ hpath) (hafter _))
    | false =>
      rw [if_neg (by decide), (body.kept_branchEntries_eq_nil keep closes _ _).mpr hlive]
      exact Branches.matches_reopened more _ _ _ _ _ close hpath es hafter

end

end

end ControlFiles
