import ControlFiles.Arrangement
import ControlFiles.Path
import ControlFiles.Reference.Search
import ControlFiles.Scope

/-!
# What the tokens of a reference stand for

Given a reference with tokens and a file that it may name, the assignment of candidate names to the
tokens under which the reference names that file. The candidates are tried in the lexicographic
order of their positions; the first that fits is taken.
-/

namespace ControlFiles

/-- Tokens and the names they stand for. -/
abbrev Assignment := List (Token × Text)

namespace Assignment

/-- The first choice of candidates under which the template is the concrete path. -/
def find? (template concrete : Text) (candidates : List Text) : Option Assignment :=
  let tokens := Text.tokens template
  if tokens.isEmpty || candidates.length < tokens.length then none
  else
    (Arrangement.all tokens.length candidates).findSome? fun names =>
      let vars := Reference.bind .empty tokens names
      if Path.key (vars.expand template) = Path.key concrete then some (tokens.zip names) else none

/-- The scope with the name that its token stands for added. -/
def apply (a : Assignment) (s : Scope) : Scope :=
  match s.token.bind fun token => List.find? (fun (t, _) => Text.alike t.text token) a with
  | some (_, name) => s.addNames [name]
  | none => s

end Assignment

/-- The assignment that fits, and the scopes with the names that it gives to their tokens. -/
def resolveScopes (scopes : List Scope) (template concrete : Text) (candidates : List Text) :
    Option Assignment × List Scope :=
  match Assignment.find? template concrete candidates with
  | some a => (some a, scopes.map a.apply)
  | none => (none, scopes)

end ControlFiles
