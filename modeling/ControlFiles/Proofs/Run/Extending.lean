import ControlFiles.Proofs.Reference.Pattern
import ControlFiles.Proofs.Run.Exclusive
import ControlFiles.Proofs.Run.Reading

/-!
# Runs that come to know more variables

A context extends another one if it differs from it only in variables that the other leaves unset
(`Context.Extends`). What a text means stays as soon as no token is left in it
(`Context.Extends.substitute_eq`), and so do the names that a known token stands for. A scope with
an unknown token holds for its names alone or not at all. If it is negated, the token may yet come
to stand for a chosen name: `Context.Overlooks` is the one way in which statements that are active
cease to be when variables are set (`Context.Extends.isActive_iff`), and it does happen
(`Context.not_forall_isActive_extends`).
-/

namespace ControlFiles

/-- The scope is what a header says, or what the branches before one exclude. -/
def Scope.IsRead (s : Scope) : Prop :=
  (∃ kind t, s = Scope.ofText kind t) ∨
    ∃ kind names fromElse qualifier, s = Scope.negationOf kind names fromElse qualifier

namespace Context

variable {c c' : Context} {s : Scope} {l : ScopeList} {t token name value : Text}

/-- The second context differs from the first one only in variables that the first one leaves
unset. -/
structure Extends (c c' : Context) : Prop where
  chosen : c.chosen = c'.chosen
  eventValues : c.eventValues = c'.eventValues
  vars : ∀ name value, c.vars.get? name = some value → c'.vars.get? name = some value

/-- The token of the scope is unknown in the first context, which overlooks it for the sake of the
names beside it, and in the second one stands for a name that the negated scope excludes. -/
def Overlooks (c c' : Context) (s : Scope) : Prop :=
  s.negated = true ∧ s.names ≠ [] ∧ ∃ token listed selected, s.token = some token ∧
    c.tokenNames? token = none ∧ c'.tokenNames? token = some listed ∧
    c'.selected? s = some selected ∧ listed.any (Text.listed selected) = true

namespace Extends

variable (h : c.Extends c')
include h

theorem get?_substitutions (hget : c.substitutions.get? name = some value) :
    c'.substitutions.get? name = some value := by
  have hpairs : c'.chosenPairs = c.chosenPairs := by rw [chosenPairs, chosenPairs, h.chosen]
  rw [Context.get?_substitutions] at hget ⊢
  rw [hpairs]
  cases hlast : Variables.lastValue? c.chosenPairs name with
  | some v => rwa [hlast] at hget
  | none =>
    rw [hlast] at hget
    exact h.vars name value hget

/-- What a text means stays when no token is left in it. -/
theorem substitute_eq (hplain : Text.hasTokens (c.substitute t) = false) :
    c'.substitute t = c.substitute t := by
  refine (substitute_eq_of_get? h.eventValues fun name hname => ?_).symm
  obtain ⟨token, htoken, rfl⟩ := List.mem_map.mp hname
  obtain ⟨piece, hpiece, hsome⟩ := List.mem_filterMap.mp htoken
  cases piece with
  | plain ch => cases hsome
  | token token' =>
    obtain rfl := Option.some.inj hsome
    obtain ⟨v, hv⟩ := Variables.exists_get?_of_not_hasTokens hplain hpiece
    rw [hv, h.get?_substitutions hv]

theorem tokenNames?_eq {listed : List Text} (hlisted : c.tokenNames? token = some listed) :
    c'.tokenNames? token = some listed := by
  rw [tokenNames?] at hlisted ⊢
  cases hplain : Text.hasTokens (c.substitute token) with
  | true => simp [hplain] at hlisted
  | false => rwa [h.substitute_eq hplain]

theorem selected?_eq {selected : List Text} (hselected : c.selected? s = some selected) :
    c'.selected? s = some selected := by
  rw [selected?, ← h.chosen]
  rw [selected?] at hselected
  cases hkind : s.kind with
  | userVariable =>
    rw [hkind] at hselected
    obtain ⟨value, hvalue, rfl⟩ := Option.map_eq_some_iff.mp hselected
    obtain ⟨name, hname, hget⟩ := Option.bind_eq_some_iff.mp hvalue
    simp only [hname, Option.bind_some, h.vars name value hget, Option.map_some]
  | _ => rwa [hkind] at hselected

end Extends

/-! ## Scopes -/

theorem alternatives?_of_known {listed : List Text} (htoken : s.token = some token)
    (hlisted : c.tokenNames? token = some listed) :
    c.alternatives? s = some (s.names ++ listed) := by
  rw [tokenNames?] at hlisted
  rw [alternatives?, htoken]
  cases hplain : Text.hasTokens (c.substitute token) with
  | true => simp [hplain] at hlisted
  | false =>
    simp only [hplain, Bool.false_eq_true, if_false, Option.some.injEq] at hlisted ⊢
    rw [hlisted]

theorem alternatives?_of_unknown (htoken : s.token = some token)
    (hunknown : c.tokenNames? token = none) :
    c.alternatives? s = if s.names.isEmpty then none else some s.names := by
  rw [tokenNames?] at hunknown
  rw [alternatives?, htoken]
  cases hplain : Text.hasTokens (c.substitute token) with
  | true => simp only [hplain, if_true]
  | false => simp [hplain] at hunknown

/-- Only scopes that a run can decide ask for something that is chosen. -/
theorem resolvable_of_selected? {selected : List Text} (h : c.selected? s = some selected) :
    s.kind ≠ .global ∧ s.kind.isResolvable = true := by
  rw [selected?] at h
  cases hkind : s.kind <;> simp [hkind, ScopeKind.isResolvable] at h ⊢

/-- A scope that a run can decide holds if the names that it has chosen are among the alternatives,
or, if the scope is negated, are not. -/
theorem holds_iff {selected : List Text} (hselected : c.selected? s = some selected) :
    c.holds s = true ↔
      ∃ names, c.alternatives? s = some names ∧ names.any (Text.listed selected) = !s.negated := by
  obtain ⟨hglobal, hresolvable⟩ := resolvable_of_selected? hselected
  rw [holds, if_neg (by simp [hglobal, hresolvable]), hselected]
  cases c.alternatives? s with
  | none => simp
  | some names =>
    simp only [Option.some.injEq, exists_eq_left']
    cases names.any (Text.listed selected) <;> cases s.negated <;> simp

/-- A scope with an unknown token holds for its names alone or not at all. -/
theorem holds_iff_of_unknown {selected : List Text} (hselected : c.selected? s = some selected)
    (htoken : s.token = some token) (hunknown : c.tokenNames? token = none) :
    c.holds s = true ↔
      s.names ≠ [] ∧ s.names.any (Text.listed selected) = !s.negated := by
  rw [holds_iff hselected, alternatives?_of_unknown htoken hunknown]
  cases hnames : s.names.isEmpty with
  | true => simp_all
  | false => simp_all [List.isEmpty_eq_false_iff]

theorem not_overlooks_of_known {listed : List Text} (htoken : s.token = some token)
    (hlisted : c.tokenNames? token = some listed) : ¬ Overlooks c c' s := by
  rintro ⟨-, -, token', listed', selected, htoken', hunknown, -⟩
  obtain rfl := Option.some.inj (htoken.symm.trans htoken')
  rw [hlisted] at hunknown
  cases hunknown

theorem overlooks_iff_of_unknown {selected : List Text} (hselected : c'.selected? s = some selected)
    (htoken : s.token = some token) (hunknown : c.tokenNames? token = none) (hne : s.names ≠ []) :
    Overlooks c c' s ↔ s.negated = true ∧
      ∃ listed, c'.tokenNames? token = some listed ∧
        listed.any (Text.listed selected) = true := by
  constructor
  · rintro ⟨hnegated, -, token', listed, selected', htoken', -, hlisted, hselected', hany⟩
    obtain rfl := Option.some.inj (htoken.symm.trans htoken')
    obtain rfl := Option.some.inj (hselected.symm.trans hselected')
    exact ⟨hnegated, listed, hlisted, hany⟩
  · rintro ⟨hnegated, listed, hlisted, hany⟩
    exact ⟨hnegated, hne, token, listed, selected, htoken, hunknown, hlisted, hselected, hany⟩

namespace Extends

variable (h : c.Extends c')
include h

/-- A scope that holds goes on holding, unless it was overlooked. -/
theorem holds_iff (hholds : c.holds s = true) : c'.holds s = true ↔ ¬ Overlooks c c' s := by
  cases hselected : c.selected? s with
  | none =>
    -- the scope marks nesting only
    have hmark : s.kind = .global ∨ s.kind.isResolvable = false := by
      rw [holds, hselected] at hholds
      cases halternatives : c.alternatives? s <;> simpa [halternatives] using hholds
    refine iff_of_true (by rw [holds, if_pos (by simpa using hmark)]) ?_
    rintro ⟨-, -, token, listed, selected, -, -, -, hselected', -⟩
    obtain ⟨hglobal, hresolvable⟩ := resolvable_of_selected? hselected'
    simp [hglobal, hresolvable] at hmark
  | some selected =>
    have hselected' := h.selected?_eq hselected
    cases htoken : s.token with
    | none =>
      refine iff_of_true ?_ ?_
      · rw [Context.holds_iff hselected', alternatives?, htoken]
        rwa [Context.holds_iff hselected, alternatives?, htoken] at hholds
      · rintro ⟨-, -, token, -, -, htoken', -⟩
        rw [htoken] at htoken'
        cases htoken'
    | some token =>
      cases hlisted : c.tokenNames? token with
      | some listed =>
        refine iff_of_true ?_ (not_overlooks_of_known htoken hlisted)
        rw [Context.holds_iff hselected', alternatives?_of_known htoken (h.tokenNames?_eq hlisted)]
        rwa [Context.holds_iff hselected, alternatives?_of_known htoken hlisted] at hholds
      | none =>
        obtain ⟨hne, hnames⟩ := (holds_iff_of_unknown hselected htoken hlisted).mp hholds
        rw [overlooks_iff_of_unknown hselected' htoken hlisted hne]
        cases hlisted' : c'.tokenNames? token with
        | none =>
          refine iff_of_true ?_ (by simp)
          exact (holds_iff_of_unknown hselected' htoken hlisted').mpr ⟨hne, hnames⟩
        | some listed =>
          rw [Context.holds_iff hselected', alternatives?_of_known htoken hlisted']
          simp only [Option.some.injEq, exists_eq_left', List.any_append, hnames]
          cases s.negated <;> cases listed.any (Text.listed selected) <;> decide

/-- Statements that are active stay so when variables are set, unless a scope was overlooked. A
scope with an unknown token holds for its names alone: it has some, and one of them is chosen, or
none if it is negated. -/
theorem isActive_iff (hactive : c.isActive l = true) :
    (c'.isActive l = true ↔ ∀ s ∈ l, ¬ Overlooks c c' s) ∧
    ∀ s ∈ l, ∀ token selected, s.token = some token → c.tokenNames? token = none →
      c.selected? s = some selected →
        s.names ≠ [] ∧ s.names.any (Text.listed selected) = !s.negated := by
  rw [isActive, List.all_eq_true] at hactive
  refine ⟨?_, fun s hs token selected htoken hunknown hselected =>
    (holds_iff_of_unknown hselected htoken hunknown).mp (hactive s hs)⟩
  rw [isActive, List.all_eq_true]
  exact forall₂_congr fun s hs => h.holds_iff (hactive s hs)

end Extends

/-- A header with a token, of which the name beside it is chosen. -/
theorem isActive_iff_beside :
    let c := ofChosen ⟨["A"], []⟩
    let c' := c.setVariable "V" "B"
    let l : ScopeList := [Scope.global, Scope.ofText .scenario "A | <<V>>"]
    c.Extends c' ∧ c.isActive l = true ∧ c'.isActive l = true := by
  intro c c' l
  have hextends : c.Extends c' := ⟨rfl, rfl, nofun⟩
  have hactive : c.isActive l = true := by decide
  refine ⟨hextends, hactive, (hextends.isActive_iff hactive).1.mpr fun s hs hoverlooks => ?_⟩
  have hpositive : ∀ s ∈ l, s.negated = false := by decide
  exact absurd hoverlooks.1 (by simp [hpositive s hs])

/-- An `Else` branch after a name and a token is active as long as the token is unknown. -/
theorem not_forall_isActive_extends :
    ¬ ∀ (c c' : Context) (l : ScopeList), (∀ s ∈ l, s.IsRead) → c.Extends c' →
      c.isActive l = true → c'.isActive l = true := by
  intro h
  have hextends : (ofChosen ⟨["B"], []⟩).Extends ((ofChosen ⟨["B"], []⟩).setVariable "V" "B") :=
    ⟨rfl, rfl, nofun⟩
  have hactive := h _ _ [Scope.negationOf .scenario ["A", "<<V>>"] true none]
    (by simpa using .inr ⟨_, _, _, _, rfl⟩) hextends (by decide)
  exact absurd hactive (by decide)

end Context

end ControlFiles
