import ControlFiles.Text.Basic

/-!
# Glob patterns

A pattern is a list of tokens: a character that stands for itself, `?` for any one character, `*`
for any run of characters, `**` for any number of whole directories, and `[...]` or `[!...]` for
one character of a class. `Glob.parse` reads a pattern and says where a malformed one goes wrong;
`Glob.escape` writes a text so that it matches itself.

`Glob.matchesWith` says which texts a pattern matches, and `Glob.fits` decides it in time
proportional to the lengths of both; they agree (`Glob.fits_eq`).
-/

namespace ControlFiles.Glob

/-- A member of a character class. -/
inductive Member where
  | single (c : Char)
  | range (first last : Char)
  deriving DecidableEq, Repr

/-- One unit of a pattern. -/
inductive Token where
  /-- The character itself. -/
  | char (c : Char)
  /-- Any one character. -/
  | any
  /-- Any run of characters, the empty one included. -/
  | run
  /-- Any number of whole directories. -/
  | deep
  /-- One character of the class. -/
  | oneOf (members : List Member)
  /-- One character that is not of the class. -/
  | noneOf (members : List Member)
  deriving DecidableEq, Repr

/-- A pattern: its tokens in order. -/
abbrev Pattern := List Token

/-- What is wrong with a pattern. -/
inductive Flaw where
  | stars
  | deep
  | range
  deriving DecidableEq, Repr

/-- A malformed pattern: where it goes wrong, and how. -/
structure SyntaxError where
  position : Nat
  flaw : Flaw
  deriving DecidableEq, Repr

/-- The wording of a flaw. -/
def Flaw.message : Flaw → Text
  | stars => "wildcards are either regular `*` or recursive `**`"
  | deep => "recursive wildcards must form a single path component"
  | range => "invalid range pattern"

/-- The wording of a syntax error. -/
def SyntaxError.message (e : SyntaxError) : Text :=
  "Pattern syntax error near position " ++ Text.decimal e.position ++ ": " ++ e.flaw.message

/-! ## Reading -/

/-- The members of a class: `a-z` is a range, anything else stands for itself. -/
def members : Text → List Member
  | a :: '-' :: b :: rest => .range a b :: members rest
  | c :: rest => .single c :: members rest
  | [] => []

/-- The class that `[` opens, and how many characters belong to it after the bracket. The first
character of a class is a member even if it closes brackets elsewhere. -/
def class? (afterBracket : Text) : Option (Token × Nat) :=
  match afterBracket with
  | '!' :: first :: rest =>
    if rest.contains ']' then
      let inside := first :: rest.takeWhile (· ≠ ']')
      some (.noneOf (members inside), inside.length + 2)
    else none
  | first :: rest =>
    if first ≠ '!' && rest.contains ']' then
      let inside := first :: rest.takeWhile (· ≠ ']')
      some (.oneOf (members inside), inside.length + 1)
    else none
  | [] => none

/-- The tokens of the rest of a pattern. `skip` characters belong to a token that is already read;
`position` counts the characters before the rest; `fresh` says that a directory starts here. -/
def parseFrom : (skip position : Nat) → (fresh : Bool) → Text → Except SyntaxError Pattern
  | _, _, _, [] => .ok []
  | skip + 1, position, _, c :: rest => parseFrom skip (position + 1) (c == '/') rest
  | 0, position, fresh, c :: rest =>
    match c with
    | '?' => return .any :: (← parseFrom 0 (position + 1) false rest)
    | '*' =>
      match (rest.takeWhile (· = '*')).length with
      | 0 => return .run :: (← parseFrom 0 (position + 1) false rest)
      | 1 =>
        if !fresh then throw ⟨position - 1, .deep⟩
        else
          match rest.drop 1 with
          | [] => return [.deep]
          | '/' :: _ => return .deep :: (← parseFrom 2 (position + 1) false rest)
          | _ => throw ⟨position + 2, .deep⟩
      | _ => throw ⟨position + 2, .stars⟩
    | '[' =>
      match class? rest with
      | some (token, n) => return token :: (← parseFrom n (position + 1) false rest)
      | none => throw ⟨position, .range⟩
    | c => return .char c :: (← parseFrom 0 (position + 1) (c == '/') rest)

/-- The pattern that a text writes. -/
def parse (t : Text) : Except SyntaxError Pattern := parseFrom 0 0 true t

/-- The text written so that, as a pattern, it matches itself. -/
def escape (t : Text) : Text :=
  t.flatMap fun c => if c = '?' || c = '*' || c = '[' || c = ']' then ['[', c, ']'] else [c]

/-! ## Matching -/

/-- How characters are compared. -/
structure Options where
  /-- ASCII letters match in either case. -/
  foldCase : Bool
  /-- Only a slash in the pattern matches a slash. -/
  keepDirectories : Bool
  deriving DecidableEq, Repr

/-- Two characters are the same. -/
def Options.same (o : Options) (a b : Char) : Bool :=
  if o.foldCase then a.toLower == b.toLower else a == b

/-- The range of letters taken in lower case holds the character, whatever its case. -/
def foldedRange (first last c : Char) : Bool :=
  first.isAlpha && last.isAlpha &&
    first.toLower.toNat ≤ c.toLower.toNat && c.toLower.toNat ≤ last.toLower.toNat

/-- The member of a class stands for the character. -/
def Options.admits (o : Options) (c : Char) : Member → Bool
  | .single d => o.same c d
  | .range first last =>
    (o.foldCase && c.toNat < 0x80 && foldedRange first last c) ||
      (first.toNat ≤ c.toNat && c.toNat ≤ last.toNat)

/-- The token stands for the one character. -/
def Options.accepts (o : Options) (c : Char) : Token → Bool
  | .char d => o.same c d
  | .any => !(o.keepDirectories && c == '/')
  | .oneOf ms => !(o.keepDirectories && c == '/') && ms.any (o.admits c)
  | .noneOf ms => !(o.keepDirectories && c == '/') && !ms.any (o.admits c)
  | .run => false
  | .deep => false

/-- Some way to leave out a run of characters satisfies `rest`. -/
def afterRun (keepDirectories : Bool) (rest : Text → Bool) : Text → Bool
  | [] => rest []
  | c :: t => rest (c :: t) || (!(keepDirectories && c == '/') && afterRun keepDirectories rest t)

/-- Leaving out everything up to some slash, or the whole text, satisfies `rest`. -/
def afterSlash (rest : Text → Bool) : Text → Bool
  | [] => rest []
  | c :: t => (c == '/' && rest t) || afterSlash rest t

/-- The pattern matches the whole text. -/
def matchesWith (o : Options) : Pattern → Text → Bool
  | [], t => t.isEmpty
  | .run :: ps, t => afterRun o.keepDirectories (matchesWith o ps) t
  | .deep :: ps, t => matchesWith o ps t || afterSlash (matchesWith o ps) t
  | _ :: _, [] => false
  | p :: ps, c :: t => o.accepts c p && matchesWith o ps t

/-! ## Matching in one pass

Trying every way to leave out a run takes time that grows exponentially with the number of runs. So
a text is matched together with all its ends: what a token and the rest of a pattern make of them
follows from what the rest makes of them. `fits_eq` says that the answer is that of `matchesWith`.
-/

/-- The ends of a text, the longest first. -/
def ends : Text → List Text
  | [] => [[]]
  | c :: t => (c :: t) :: ends t

/-- The answer for the whole text, of the answers for its ends. -/
def whole (answers : List Bool) : Bool := answers.headD false

/-- The answers of a run of characters before a pattern with some answers. -/
def runAnswers (keepDirectories : Bool) : Text → List Bool → List Bool
  | c :: t, answer :: answers =>
    let later := runAnswers keepDirectories t answers
    (answer || (!(keepDirectories && c == '/') && whole later)) :: later
  | _, answers => answers

/-- The answers of everything up to some slash, or to the end, before a pattern with some
answers. -/
def slashAnswers : Text → List Bool → List Bool
  | c :: t, _ :: answers =>
    let later := slashAnswers t answers
    ((c == '/' && whole answers) || whole later) :: later
  | _, answers => answers

/-- The answers of a token for one character before a pattern with some answers. -/
def oneAnswers (accepts : Char → Bool) : Text → List Bool → List Bool
  | c :: t, _ :: answers => (accepts c && whole answers) :: oneAnswers accepts t answers
  | _, _ => [false]

/-- For every end of a text, whether the pattern matches it. -/
def answers (o : Options) : Pattern → Text → List Bool
  | [], t => (ends t).map (·.isEmpty)
  | .run :: ps, t => runAnswers o.keepDirectories t (answers o ps t)
  | .deep :: ps, t =>
    let rest := answers o ps t
    rest.zipWith (· || ·) (slashAnswers t rest)
  | p :: ps, t => oneAnswers (o.accepts · p) t (answers o ps t)

/-- The pattern matches the whole text. -/
def fits (o : Options) (p : Pattern) (t : Text) : Bool := whole (answers o p t)

theorem whole_ends (f : Text → Bool) (t : Text) : whole ((ends t).map f) = f t := by
  cases t <;> rfl

theorem runAnswers_ends (keep : Bool) (f : Text → Bool) (t : Text) :
    runAnswers keep t ((ends t).map f) = (ends t).map (afterRun keep f) := by
  induction t with
  | nil => rfl
  | cons c t ih => simp only [ends, List.map_cons, runAnswers, ih, whole_ends, afterRun]

theorem slashAnswers_ends (f : Text → Bool) (t : Text) :
    slashAnswers t ((ends t).map f) = (ends t).map (afterSlash f) := by
  induction t with
  | nil => rfl
  | cons c t ih => simp only [ends, List.map_cons, slashAnswers, ih, whole_ends, afterSlash]

theorem oneAnswers_ends (o : Options) (p : Token) (ps : Pattern) (t : Text) (hr : p ≠ .run)
    (hd : p ≠ .deep) :
    oneAnswers (o.accepts · p) t ((ends t).map (matchesWith o ps))
      = (ends t).map (matchesWith o (p :: ps)) := by
  induction t with
  | nil => cases p <;> simp_all [ends, oneAnswers, matchesWith]
  | cons c t ih =>
    simp only [ends, List.map_cons, oneAnswers, ih, whole_ends]
    cases p <;> simp_all [matchesWith]

/-- Each answer is that of plain matching. -/
theorem answers_eq (o : Options) (p : Pattern) (t : Text) :
    answers o p t = (ends t).map (matchesWith o p) := by
  induction p with
  | nil => simp [answers, matchesWith]
  | cons token ps ih =>
    cases token with
    | run => simp [answers, ih, runAnswers_ends, matchesWith]
    | deep =>
      simp [answers, ih, slashAnswers_ends, matchesWith, List.zipWith_map, List.zipWith_self]
    | _ => simp [answers, ih, oneAnswers_ends]

/-- Matching in one pass is matching. -/
theorem fits_eq (o : Options) (p : Pattern) (t : Text) : fits o p t = matchesWith o p t := by
  rw [fits, answers_eq, whole_ends]

/-- The text that a pattern without any wildcard stands for. -/
def literal? : Pattern → Option Text
  | [] => some []
  | .char c :: ps => (literal? ps).map (c :: ·)
  | _ => none

end ControlFiles.Glob
