import ControlFiles.Proofs.Variables
import ControlFiles.Run.Context

/-!
# What a context is asked for

What a text means in a run depends on the chosen names, on the values of the events, and on the
variables that the tokens of the text name (`Context.substitute_congr`); whether a scope holds, on
those of its token and on the variable that it asks about (`Context.holds_congr`). Contexts that
agree on these (`Context.AgreesOn`) are the same for the text and the scope.
-/

namespace ControlFiles

namespace Context

/-- The contexts differ in variables at most, and not in those with the given names. -/
structure AgreesOn (c c' : Context) (names : List Text) : Prop where
  chosen : c.chosen = c'.chosen
  eventValues : c.eventValues = c'.eventValues
  vars : ∀ name ∈ names, c.vars.get? name = c'.vars.get? name

theorem AgreesOn.mono {c c' : Context} {names names' : List Text} (h : c.AgreesOn c' names)
    (hsub : names' ⊆ names) : c.AgreesOn c' names' :=
  ⟨h.chosen, h.eventValues, fun name hname => h.vars name (hsub hname)⟩

/-- The names of the tokens of a text, with the values of the events in it. -/
def namesIn (c : Context) (t : Text) : List Text :=
  ((Template.ofText (c.replaceEvents t)).filterMap Template.token?).map Token.name

/-- The names that a scope asks for: those of its token, and the variable that it is about. -/
def namesOfScope (c : Context) (s : Scope) : List Text :=
  (s.token.map c.namesIn).getD [] ++
    if s.kind = .userVariable then s.qualifier.toList else []

/-- The names that some scopes ask for. -/
def namesOfScopes (c : Context) (l : ScopeList) : List Text := l.flatMap c.namesOfScope

/-- The chosen names, each with the name of the token that it stands for. -/
def chosenPairs (c : Context) : List (Text × Text) :=
  positional .scenario c.chosen.scenarios ++ positional .event c.chosen.events

theorem get?_substitutions (c : Context) (name : Text) :
    c.substitutions.get? name =
      (Variables.lastValue? c.chosenPairs name).or (c.vars.get? name) :=
  Variables.get?_setAll _ _ _

variable {c c' : Context}

/-- A text means the same in contexts that put the same in for its tokens. -/
theorem substitute_eq_of_get? {t : Text} (hevents : c.eventValues = c'.eventValues)
    (hget : ∀ name ∈ c.namesIn t, c.substitutions.get? name = c'.substitutions.get? name) :
    c.substitute t = c'.substitute t := by
  have hreplace : c'.replaceEvents t = c.replaceEvents t := by
    rw [replaceEvents, replaceEvents, hevents]
  rw [substitute, substitute, hreplace, Variables.expand, Variables.expand]
  refine List.flatMap_congr fun piece hpiece => ?_
  cases piece with
  | plain ch => rfl
  | token token =>
    have hname : token.name ∈ c.namesIn t :=
      List.mem_map.mpr ⟨token, List.mem_filterMap.mpr ⟨_, hpiece, rfl⟩, rfl⟩
    simp only [Variables.expandPiece, hget _ hname]

/-- A text means the same in contexts that agree on its tokens. -/
theorem substitute_congr {t : Text} (h : c.AgreesOn c' (c.namesIn t)) :
    c.substitute t = c'.substitute t := by
  have hpairs : c'.chosenPairs = c.chosenPairs := by rw [chosenPairs, chosenPairs, h.chosen]
  refine substitute_eq_of_get? h.eventValues fun name hname => ?_
  rw [get?_substitutions, get?_substitutions, hpairs, h.vars name hname]

/-- A scope holds in both of the contexts that agree on what it asks for, or in none. -/
theorem holds_congr {s : Scope} (h : c.AgreesOn c' (c.namesOfScope s)) :
    c.holds s = c'.holds s := by
  have halternatives : c.alternatives? s = c'.alternatives? s := by
    rw [alternatives?, alternatives?]
    cases htoken : s.token with
    | none => rfl
    | some token =>
      have hmeaning : c.substitute token = c'.substitute token :=
        substitute_congr (h.mono (by simp [namesOfScope, htoken]))
      simp only [hmeaning]
  have hselected : c.selected? s = c'.selected? s := by
    rw [selected?, selected?, h.chosen]
    cases hkind : s.kind with
    | userVariable =>
      cases hqualifier : s.qualifier with
      | none => rfl
      | some name =>
        have hvalue := h.vars name (by simp [namesOfScope, hkind, hqualifier])
        simp only [Option.bind_some, hvalue]
    | _ => rfl
  rw [holds, holds, halternatives, hselected]

theorem isActive_congr {l : ScopeList} (h : c.AgreesOn c' (c.namesOfScopes l)) :
    c.isActive l = c'.isActive l := by
  induction l with
  | nil => rfl
  | cons s l ih =>
    rw [namesOfScopes, List.flatMap_cons] at h
    have hfirst : c.holds s = c'.holds s := holds_congr (h.mono (List.subset_append_left _ _))
    have hrest : c.isActive l = c'.isActive l := ih (h.mono (List.subset_append_right _ _))
    rw [isActive, List.all_cons, hfirst, ← isActive, hrest]
    rfl

end Context

end ControlFiles
