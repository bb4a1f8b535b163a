import ControlFiles.Profile.Read
import ControlFiles.Run.Context

/-!
# The context of a run with a profile

The names given as arguments win over those of the profile, each axis for itself. The variables are
those of the profile.
-/

namespace ControlFiles

namespace Profile

/-- The names, or those of the profile if there are none. -/
def orElse (given profile : List Text) : List Text := if given.isEmpty then profile else given

/-- The context of some chosen names over a profile. -/
def contextOf (p : Profile) (chosen : Chosen) : Context :=
  (Context.ofChosen
    ⟨orElse chosen.scenarios p.scenarios, orElse chosen.events p.events⟩).setVariables p.vars

/-- The context of the arguments over a profile, if there is one. -/
def context (profile : Option Profile) (arguments : List Text) : Except ArgumentFlaw Context :=
  (Arguments.chosen arguments).map fun chosen =>
    match profile with
    | some p => p.contextOf chosen
    | none => .ofChosen chosen

end Profile

end ControlFiles
