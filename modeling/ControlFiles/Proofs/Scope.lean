import ControlFiles.Proofs.Block.Outline
import ControlFiles.Proofs.Text.Alike

/-!
# Scopes of headers

A header lists names and tokens. Its scope has the names without repetitions, and of the tokens only
the first one (`Scope.ofText_of_alternatives`), and so has the negation of the names that earlier
branches have used (`Scope.negationOf_of_isName`). As long as no name has a wildcard token, the names
are all there is (`Scope.ofText_of_plain`, `Scope.negationOf_of_plain`).
-/

namespace ControlFiles

theorem ScopeKind.isAnonymous_of_canBranch {k : ScopeKind} (h : k.canBranch = true) :
    k.isAnonymous = false := by
  revert h
  cases k <;> decide

/-- The names hold no wildcard token. -/
def PlainNames (names : List Text) : Prop := ∀ name ∈ names, Text.hasTokens name = false

instance (names : List Text) : Decidable (PlainNames names) :=
  inferInstanceAs (Decidable (∀ name ∈ names, Text.hasTokens name = false))

theorem PlainNames.append {a b : List Text} (ha : PlainNames a) (hb : PlainNames b) :
    PlainNames (a ++ b) := by
  intro name hname
  rcases List.mem_append.mp hname with h | h
  · exact ha name h
  · exact hb name h

/-- The names of the header on the line hold no wildcard token. -/
def Line.PlainHeader (l : Line) : Prop := ∀ h ∈ l.directive.header?, PlainNames h.nameList

instance (l : Line) : Decidable l.PlainHeader :=
  inferInstanceAs (Decidable (∀ h ∈ l.directive.header?, PlainNames h.nameList))

theorem OpeningLine.plainNames (l : OpeningLine) (h : l.line.PlainHeader) :
    PlainNames l.header.nameList := h l.header l.directive_header?

theorem BranchLine.plainNames (l : BranchLine) (h : l.line.PlainHeader) :
    PlainNames l.nameList := by
  intro name hname
  obtain ⟨header, hheader, hname⟩ := l.mem_nameList hname
  exact h header (l.directive_header?.trans hheader) name hname

/-- The header of the line lists a name, unless it takes none. -/
def Line.NamedHeader (l : Line) : Prop :=
  ∀ h ∈ l.directive.header?, h.kind.isAnonymous = false → h.nameList ≠ []

instance (l : Line) : Decidable l.NamedHeader :=
  inferInstanceAs
    (Decidable (∀ h ∈ l.directive.header?, h.kind.isAnonymous = false → h.nameList ≠ []))

/-! ## What a header lists -/

/-- The names among some alternatives. -/
def plainNames (names : List Text) : List Text := names.filter fun name => !Text.hasTokens name

/-- The token among some alternatives that counts: the first one. -/
def firstToken? (names : List Text) : Option Text :=
  (names.find? Text.hasTokens).map Text.normalizeTokens

theorem plainNames_append (a b : List Text) : plainNames (a ++ b) = plainNames a ++ plainNames b :=
  List.filter_append a b

theorem firstToken?_append (a b : List Text) :
    firstToken? (a ++ b) = (firstToken? a).or (firstToken? b) := by
  rw [firstToken?, firstToken?, firstToken?, List.find?_append]
  cases a.find? Text.hasTokens <;> rfl

theorem PlainNames.plainNames_eq {names : List Text} (h : PlainNames names) :
    plainNames names = names :=
  List.filter_eq_self.mpr fun name hname => by rw [h name hname]; rfl

theorem PlainNames.firstToken?_eq {names : List Text} (h : PlainNames names) :
    firstToken? names = none := by
  rw [firstToken?, List.find?_eq_none.mpr fun name hname => by simp [h name hname]]
  rfl

namespace Scope

theorem foldl_addAlternative_eq (s : Scope) (names : List Text) :
    names.foldl addAlternative s =
      { s with names := Text.addNew s.names (plainNames names)
               token := s.token.or (firstToken? names) } := by
  induction names generalizing s with
  | nil => cases s; simp [plainNames, firstToken?, Text.addNew]
  | cons name names ih =>
    rw [List.foldl_cons, ih, addAlternative, plainNames, plainNames, firstToken?, firstToken?]
    cases htokens : Text.hasTokens name with
    | true => cases htoken : s.token <;> simp [htokens, htoken]
    | false => simp [htokens, addNames, Text.addNew]

/-- The scope of a header has its names, and the first of its tokens. -/
theorem ofText_of_alternatives (kind : ScopeKind) (t : Text) :
    ofText kind t = { ofNames kind (Text.addNew [] (plainNames (Text.alternatives t))) with
      token := firstToken? (Text.alternatives t) } := by
  rw [ofText, foldl_addAlternative_eq]
  rfl

theorem negationOf_of_isName (kind : ScopeKind) {names : List Text} (fromElse : Bool)
    (qualifier : Option Text) (hnames : ∀ name ∈ names, Text.IsName name) :
    negationOf kind names fromElse qualifier =
      { ofNames kind (Text.addNew [] (plainNames names)) with
        token := firstToken? names, negated := true, fromElse, qualifier } := by
  have h : Text.alternatives (Text.join " | " names) = names := Text.alternatives_join hnames
  rw [negationOf, ofText_of_alternatives, h]

/-- A header without tokens gives the scope of its names. -/
theorem ofText_of_plain (kind : ScopeKind) {t : Text} (h : PlainNames (Text.alternatives t)) :
    ofText kind t = ofNames kind (Text.addNew [] (Text.alternatives t)) := by
  rw [ofText_of_alternatives, h.plainNames_eq, h.firstToken?_eq]
  rfl

/-- The negation of names without tokens. -/
theorem negationOf_of_plain (kind : ScopeKind) {names : List Text} (fromElse : Bool)
    (qualifier : Option Text) (hnames : ∀ name ∈ names, Text.IsName name)
    (hplain : PlainNames names) :
    negationOf kind names fromElse qualifier =
      { ofNames kind (Text.addNew [] names) with negated := true, fromElse, qualifier } := by
  rw [negationOf_of_isName kind fromElse qualifier hnames, hplain.plainNames_eq,
    hplain.firstToken?_eq]
  rfl

end Scope

end ControlFiles
