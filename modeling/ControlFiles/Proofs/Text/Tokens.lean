import ControlFiles.Proofs.Template

/-!
# Finding tokens

A text holds a token when a name stands in it between `<<` and `>>`. `Seek` looks for one from the
left, a character at a time, and needs to know only how much of a token it has seen: so what
happens to a text piece by piece, or blank by blank, can be followed
(`hasTokens_iff_walk`, `Seek.walk_letters`).

The tokens that are found have a name without brackets (`Template.isNamed_of_mem_ofText`). No such
token starts inside of another, so all that stand in a text are found in it
(`Template.mem_scan_iff`).
-/

namespace ControlFiles

/-- How much of a token has been seen. -/
inductive Seek where
  | nothing
  /-- One opening bracket. -/
  | bracket
  /-- Two opening brackets. -/
  | brackets
  /-- Two opening brackets and a name. -/
  | name
  /-- All but the last bracket. -/
  | closing
  | found
  deriving DecidableEq, Repr

namespace Seek

/-- After a character that is no bracket. -/
def letter : Seek → Seek
  | brackets | name => name
  | found => found
  | nothing | bracket | closing => nothing

/-- After an opening bracket. -/
def opening : Seek → Seek
  | bracket | brackets => brackets
  | found => found
  | nothing | name | closing => bracket

/-- After a closing bracket. -/
def ending : Seek → Seek
  | name => closing
  | closing | found => found
  | nothing | bracket | brackets => nothing

/-- After a character. -/
def step (s : Seek) (c : Char) : Seek :=
  if c = '<' then s.opening else if c = '>' then s.ending else s.letter

/-- After a text. -/
def walk (s : Seek) (t : Text) : Seek := t.foldl step s

@[simp] theorem walk_nil (s : Seek) : s.walk [] = s := rfl

@[simp] theorem walk_cons (s : Seek) (c : Char) (t : Text) : s.walk (c :: t) = (s.step c).walk t :=
  rfl

theorem walk_append (s : Seek) (a b : Text) : s.walk (a ++ b) = (s.walk a).walk b :=
  List.foldl_append

@[simp] theorem step_opening (s : Seek) : s.step '<' = s.opening := rfl

@[simp] theorem step_ending (s : Seek) : s.step '>' = s.ending := rfl

end Seek

theorem Seek.step_letter (s : Seek) {c : Char} (h : IsLetter c) : s.step c = s.letter := by
  rw [step, if_neg h.1, if_neg h.2]

@[simp] theorem Seek.letter_letter (s : Seek) : s.letter.letter = s.letter := by cases s <;> rfl

/-- Characters that are no brackets do what one of them does. -/
theorem Seek.walk_letters (s : Seek) {t : Text} (hne : t ≠ []) (h : ∀ c ∈ t, IsLetter c) :
    s.walk t = s.letter := by
  induction t generalizing s with
  | nil => exact absurd rfl hne
  | cons c t ih =>
    rw [walk_cons, s.step_letter (h c List.mem_cons_self)]
    cases t with
    | nil => rfl
    | cons d t =>
      rw [ih _ (List.cons_ne_nil d t) fun e he => h e (List.mem_cons_of_mem _ he), letter_letter]

@[simp] theorem Seek.walk_found (t : Text) : found.walk t = found := by
  induction t with
  | nil => rfl
  | cons c t ih =>
    have hstep : found.step c = found := by
      rw [step]
      split
      · rfl
      · split <;> rfl
    rw [walk_cons, hstep, ih]

namespace Text

/-! ## Where a token starts -/

theorem hasTokens_cons (c : Char) (t : Text) :
    hasTokens (c :: t) = ((Template.tokenAt? (c :: t)).isSome || hasTokens t) := by
  rw [hasTokens, Template.ofText, Template.scan]
  cases h : Template.tokenAt? (c :: t) with
  | none => simp [hasTokens, Template.ofText, Template.normalizePiece, Template.token?]
  | some name => simp [Template.normalizePiece, Template.token?]

theorem tokenAt?_of_ne {c : Char} (h : c ≠ '<') (t : Text) : Template.tokenAt? (c :: t) = none := by
  rw [Template.tokenAt?]
  rintro rest ⟨⟩
  exact h rfl

theorem tokenAt?_of_ne_next {c : Char} (h : c ≠ '<') (t : Text) :
    Template.tokenAt? ('<' :: c :: t) = none := by
  rw [Template.tokenAt?]
  rintro rest ⟨⟩
  exact h rfl

/-- Behind two brackets and a name stands what decides. -/
theorem tokenAt?_of_letters {n t : Text} (hn : ∀ c ∈ n, IsLetter c)
    (ht : ∀ c ∈ t.head?, ¬ IsLetter c) :
    (Template.tokenAt? ('<' :: '<' :: (n ++ t))).isSome =
      (!n.isEmpty && startsWith ">>" t) := by
  have htake : (n ++ t).takeWhile (fun c => c ≠ '<' && c ≠ '>') = n := by
    rw [List.takeWhile_append_of_pos (by simpa [IsLetter] using hn)]
    cases t with
    | nil => simp
    | cons c t =>
      have hc : ¬ IsLetter c := ht c rfl
      rw [List.takeWhile_cons_of_neg (by simpa [IsLetter] using hc), List.append_nil]
  rw [Template.tokenAt?, htake, List.drop_left]
  cases (!n.isEmpty && startsWith ">>" t) <;> rfl

theorem hasTokens_of_ne {c : Char} (h : c ≠ '<') (t : Text) : hasTokens (c :: t) = hasTokens t := by
  rw [hasTokens_cons, tokenAt?_of_ne h]
  rfl

theorem hasTokens_of_ne_next {c : Char} (h : c ≠ '<') (t : Text) :
    hasTokens ('<' :: c :: t) = hasTokens t := by
  rw [hasTokens_cons, tokenAt?_of_ne_next h, Option.isSome_none, Bool.false_or, hasTokens_of_ne h]

theorem hasTokens_letters {n : Text} (hn : ∀ c ∈ n, IsLetter c) (t : Text) :
    hasTokens (n ++ t) = hasTokens t := by
  induction n with
  | nil => rfl
  | cons c n ih =>
    rw [List.cons_append, hasTokens_of_ne (hn c List.mem_cons_self).1,
      ih fun d hd => hn d (List.mem_cons_of_mem _ hd)]

/-- Two brackets and a name that no `>>` ends are no token. -/
theorem hasTokens_open {n t : Text} (hn : ∀ c ∈ n, IsLetter c) (ht : ∀ c ∈ t.head?, ¬ IsLetter c)
    (hne : n ≠ []) (hend : startsWith ">>" t = false) :
    hasTokens ('<' :: '<' :: (n ++ t)) = hasTokens t := by
  obtain ⟨c, n, rfl⟩ := List.exists_cons_of_ne_nil hne
  rw [hasTokens_cons, tokenAt?_of_letters hn ht, hend, Bool.and_false, Bool.false_or,
    List.cons_append, hasTokens_of_ne_next (hn c List.mem_cons_self).1,
    hasTokens_letters fun d hd => hn d (List.mem_cons_of_mem _ hd)]

theorem hasTokens_closed {n t : Text} (hn : ∀ c ∈ n, IsLetter c) (hne : n ≠ []) :
    hasTokens ('<' :: '<' :: (n ++ '>' :: '>' :: t)) = true := by
  rw [hasTokens_cons, tokenAt?_of_letters hn (by simp [IsLetter])]
  simp [startsWith, hne]

/-! ## Walking -/

/-- What stands behind some state of the search, as a text: the search continues as if it had
started in front of it. -/
def Behind (t : Text) : Prop :=
  (Seek.nothing.walk t = .found ↔ hasTokens t = true) ∧
  (Seek.bracket.walk t = .found ↔ hasTokens ('<' :: t) = true) ∧
  (Seek.brackets.walk t = .found ↔ hasTokens ('<' :: '<' :: t) = true) ∧
  ∀ n : Text, n ≠ [] → (∀ c ∈ n, IsLetter c) →
    (Seek.name.walk t = .found ↔ hasTokens ('<' :: '<' :: (n ++ t)) = true) ∧
    (Seek.closing.walk t = .found ↔ hasTokens ('<' :: '<' :: (n ++ '>' :: t)) = true)

theorem behind_nil : Behind [] := by
  refine ⟨by decide, by decide, by decide, fun n hne hn => ⟨?_, ?_⟩⟩
  · rw [hasTokens_open hn (by simp) hne rfl]
    decide
  · rw [hasTokens_open hn (by simp [IsLetter]) hne rfl]
    decide

theorem behind_opening {t : Text} (h : Behind t) : Behind ('<' :: t) := by
  obtain ⟨-, hbracket, hbrackets, -⟩ := h
  refine ⟨hbracket, hbrackets, ?_, fun n hne hn => ⟨?_, ?_⟩⟩
  · refine hbrackets.trans (Eq.to_iff ?_)
    have htoken : (Template.tokenAt? ('<' :: '<' :: ([] ++ '<' :: t))).isSome = false :=
      tokenAt?_of_letters (by simp) (by simp [IsLetter])
    rw [hasTokens_cons '<' ('<' :: '<' :: t)]
    rw [List.nil_append] at htoken
    rw [htoken, Bool.false_or]
  · rw [hasTokens_open hn (by simp [IsLetter]) hne rfl]
    exact hbracket
  · rw [hasTokens_open hn (by simp [IsLetter]) hne rfl, hasTokens_of_ne (by decide)]
    exact hbracket

theorem behind_ending {t : Text} (h : Behind t) : Behind ('>' :: t) := by
  obtain ⟨hnothing, -, -, hname⟩ := h
  refine ⟨?_, ?_, ?_, fun n hne hn => ⟨?_, ?_⟩⟩
  · rw [hasTokens_of_ne (by decide)]
    exact hnothing
  · rw [hasTokens_of_ne_next (by decide)]
    exact hnothing
  · have htoken : (Template.tokenAt? ('<' :: '<' :: ([] ++ '>' :: t))).isSome = false :=
      tokenAt?_of_letters (by simp) (by simp [IsLetter])
    rw [List.nil_append] at htoken
    rw [hasTokens_cons, htoken, Bool.false_or, hasTokens_of_ne_next (by decide)]
    exact hnothing
  · exact (hname n hne hn).2
  · rw [hasTokens_closed hn hne]
    simp [Seek.ending]

theorem behind_letter {c : Char} (hc : IsLetter c) {t : Text} (h : Behind t) : Behind (c :: t) := by
  obtain ⟨hnothing, -, -, hname⟩ := h
  have hletter : ∀ s : Seek, s.walk (c :: t) = s.letter.walk t := fun s => by
    rw [Seek.walk_cons, s.step_letter hc]
  refine ⟨?_, ?_, ?_, fun n hne hn => ⟨?_, ?_⟩⟩
  · rw [hletter, hasTokens_of_ne hc.1]
    exact hnothing
  · rw [hletter, hasTokens_of_ne_next hc.1]
    exact hnothing
  · rw [hletter]
    exact (hname [c] (List.cons_ne_nil c []) (by simpa using hc)).1
  · have hmore := (hname (n ++ [c]) (by simp) fun d hd => by
      rcases List.mem_append.mp hd with hd | hd
      · exact hn d hd
      · rwa [List.mem_singleton.mp hd]).1
    rw [List.append_assoc] at hmore
    rw [hletter]
    exact hmore
  · have hend : startsWith ">>" ('>' :: c :: t) = false := by
      simp [startsWith, List.isPrefixOf, Ne.symm hc.2]
    rw [hletter, hasTokens_open hn (by simp [IsLetter]) hne hend, hasTokens_of_ne (by decide),
      hasTokens_of_ne hc.1]
    exact hnothing

theorem behind (t : Text) : Behind t := by
  induction t with
  | nil => exact behind_nil
  | cons c t ih =>
    by_cases ho : c = '<'
    · exact ho ▸ behind_opening ih
    · by_cases he : c = '>'
      · exact he ▸ behind_ending ih
      · exact behind_letter ⟨ho, he⟩ ih

/-- The search finds a token exactly when there is one. -/
theorem hasTokens_iff_walk (t : Text) : hasTokens t = true ↔ Seek.nothing.walk t = .found :=
  (behind t).1.symm

theorem tokens_isEmpty (t : Text) : (tokens t).isEmpty = !hasTokens t := by
  have hfold : ∀ ts acc : List Token,
      (ts.foldl Template.addToken acc).isEmpty = (acc.isEmpty && ts.isEmpty) := by
    intro ts
    induction ts with
    | nil => simp
    | cons token ts ih =>
      intro acc
      rw [List.foldl_cons, ih, Template.addToken]
      cases acc with
      | nil => simp
      | cons first acc => split <;> simp
  rw [tokens, Template.tokens, hfold, hasTokens]
  induction Template.ofText t with
  | nil => rfl
  | cons p ps ih => cases h : Template.token? p <;> simp_all

end Text

/-! ## Piece by piece -/

namespace Seek

/-- The search stands where it stands after a character that is no bracket. -/
def Settled (s : Seek) : Prop := s.letter = s

theorem settled_nothing : Settled .nothing := rfl

theorem settled_letter (s : Seek) : Settled s.letter := s.letter_letter

@[simp] theorem letter_eq_found {s : Seek} : s.letter = .found ↔ s = .found := by
  cases s <;> decide

/-- Behind a separator without brackets, it only counts what stood before the separator. -/
theorem letter_walk_letters (s : Seek) {t : Text} (h : ∀ c ∈ t, IsLetter c) :
    (s.walk t).letter = s.letter := by
  by_cases hne : t = []
  · rw [hne, walk_nil]
  · rw [s.walk_letters hne h, letter_letter]

theorem Settled.walk_letters {s : Seek} (hs : s.Settled) {t : Text} (h : ∀ c ∈ t, IsLetter c) :
    s.walk t = s := by
  by_cases hne : t = []
  · rw [hne, walk_nil]
  · rw [s.walk_letters hne h, hs]

theorem isLetter_of_isBlank {c : Char} (h : isBlank c = true) : IsLetter c := by
  refine ⟨?_, ?_⟩ <;> rintro rfl <;> exact absurd h (by decide)

/-- Trimming does not change what follows a text and a separator. -/
theorem Settled.letter_walk_trim {s : Seek} (hs : s.Settled) (t : Text) :
    (s.walk (Text.trim t)).letter = (s.walk t).letter := by
  obtain ⟨a, b, ha, hb, ht⟩ := Text.exists_eq_trim t
  have hwalk : s.walk t = (s.walk (Text.trim t)).walk b := by
    conv_lhs => rw [ht, walk_append, walk_append,
      hs.walk_letters fun c hc => isLetter_of_isBlank (ha c hc)]
  rw [hwalk, letter_walk_letters _ fun c hc => isLetter_of_isBlank (hb c hc)]

/-- The state behind a part and the separator that follows it. -/
def past (s : Seek) (part : Text) : Seek := (s.walk part).letter

theorem settled_past (s : Seek) (part : Text) : (s.past part).Settled := settled_letter _

/-- Parts with separators between them can be looked at one by one. -/
theorem Settled.letter_walk_join {sep : Text} (hne : sep ≠ []) (hsep : ∀ c ∈ sep, IsLetter c)
    {s : Seek} (hs : s.Settled) (parts : List Text) :
    (s.walk (Text.join sep parts)).letter = parts.foldl past s := by
  induction parts generalizing s with
  | nil => exact hs
  | cons part parts ih =>
    cases parts with
    | nil => rw [Text.join_singleton]; rfl
    | cons next parts =>
      have hjoin : Text.join sep (part :: next :: parts) =
          part ++ (sep ++ Text.join sep (next :: parts)) := by
        rw [Text.join, List.intercalate_cons_cons, List.append_assoc, Text.join]
      rw [hjoin, walk_append, walk_append, Seek.walk_letters _ hne hsep, List.foldl_cons]
      exact ih (settled_past s part)

/-- Blank parts do not count, nor do the blanks around the others. -/
theorem Settled.foldl_past_alternatives {s : Seek} (hs : s.Settled) (parts : List Text) :
    ((parts.map Text.trim).filter fun part => !part.isEmpty).foldl past s =
      parts.foldl past s := by
  induction parts generalizing s with
  | nil => rfl
  | cons part parts ih =>
    have hpart : s.past (Text.trim part) = s.past part := hs.letter_walk_trim part
    rw [List.map_cons, List.foldl_cons]
    by_cases hempty : Text.trim part = []
    · have hblank : s.past part = s := by rw [← hpart, hempty]; exact hs
      rw [hempty, List.filter_cons_of_neg (by simp), ih hs, hblank]
    · rw [List.filter_cons_of_pos (by simpa using hempty), List.foldl_cons, hpart,
        ih (settled_past s part)]

end Seek

namespace Text

theorem hasTokens_iff_letter_walk (t : Text) :
    hasTokens t = true ↔ (Seek.nothing.walk t).letter = .found :=
  (hasTokens_iff_walk t).trans Seek.letter_eq_found.symm

/-- A list of alternatives can be searched for a token one by one. -/
theorem hasTokens_iff_alternatives (t : Text) :
    hasTokens t = true ↔ (alternatives t).foldl Seek.past .nothing = .found := by
  rw [alternatives, Seek.settled_nothing.foldl_past_alternatives,
    ← Seek.settled_nothing.letter_walk_join (List.cons_ne_nil '|' []) (by decide),
    join_split, hasTokens_iff_letter_walk]

@[simp] theorem hasTokens_trim (t : Text) : hasTokens (trim t) = hasTokens t := by
  rw [Bool.eq_iff_iff, hasTokens_iff_letter_walk, hasTokens_iff_letter_walk,
    Seek.settled_nothing.letter_walk_trim]

/-- A text without `>>` holds no token. -/
theorem hasTokens_of_not_infix {t : Text} (h : ¬ ([ '>', '>'] : Text) <:+: t) :
    hasTokens t = false := by
  have hwalk : ∀ (t : Text) (s : Seek), s ≠ .found → (s = .closing → ∀ c ∈ t.head?, c ≠ '>') →
      ¬ ([ '>', '>'] : Text) <:+: t → s.walk t ≠ .found := by
    intro t
    induction t with
    | nil => exact fun s hs _ _ => hs
    | cons c t ih =>
      intro s hs hclosing hinfix
      rw [List.infix_cons_iff, not_or] at hinfix
      rw [Seek.walk_cons]
      refine ih _ ?_ ?_ hinfix.2
      · intro hfound
        rw [Seek.step] at hfound
        by_cases ho : c = '<'
        · rw [if_pos ho] at hfound
          cases s <;> simp_all [Seek.opening]
        · by_cases he : c = '>'
          · rw [if_neg ho, if_pos he] at hfound
            cases s <;> simp_all [Seek.ending]
          · rw [if_neg ho, if_neg he, Seek.letter_eq_found] at hfound
            exact hs hfound
      · intro hstep d hd hdc
        obtain ⟨rest, rfl⟩ : ∃ rest, t = d :: rest := by
          cases t with
          | nil => cases hd
          | cons e rest => exact ⟨rest, by rw [Option.mem_some.mp hd]⟩
        have hc : c = '>' := by
          by_contra hc
          rw [Seek.step, if_neg hc] at hstep
          split at hstep <;> cases s <;> simp_all [Seek.opening, Seek.letter]
        exact hinfix.1 (by rw [hc, hdc]; exact ⟨rest, rfl⟩)
  rw [Bool.eq_false_iff, Ne, hasTokens_iff_walk]
  exact hwalk t _ nofun nofun h

end Text

/-! ## The tokens that are found -/

/-- Spelling out the index leaves a name without brackets. -/
theorem Token.IsNamed.normalize {token : Token} (h : token.IsNamed) : token.normalize.IsNamed := by
  have hlower : ∀ c ∈ ['s', 'S', 'e', 'E', Char.ofNat 0x17F],
      ∀ d ∈ ['~', c.toLower, '1', '~'], IsLetter d := by decide
  rw [Token.normalize]
  split
  · split
    · rename_i c _ haxis
      exact ⟨List.cons_ne_nil _ _, hlower c (Token.mem_of_isAxisLetter haxis)⟩
    · exact h
  · exact h

/-- A token that stands in a text is found there. -/
theorem Token.IsNamed.hasTokens {token : Token} (h : token.IsNamed) (a b : Text) :
    Text.hasTokens (a ++ (token.text ++ b)) = true := by
  have hfound : ∀ s : Seek, ((((s.step '<').step '<').letter.step '>').step '>') = .found := by
    intro s
    cases s <;> rfl
  rw [Text.hasTokens_iff_walk, Seek.walk_append, token.text_append, Seek.walk_cons, Seek.walk_cons,
    Seek.walk_append, Seek.walk_letters _ h.ne_nil h.letters, Seek.walk_cons, Seek.walk_cons,
    hfound, Seek.walk_found]

namespace Template

theorem isNamed_of_mem_scan {token : Token} {k : Nat} {t : Text} (h : .token token ∈ scan k t) :
    token.IsNamed := by
  induction t generalizing k with
  | nil => simp [scan] at h
  | cons c t ih =>
    cases k with
    | succ k => exact ih h
    | zero =>
      rw [scan] at h
      split at h
      · rename_i name hname
        obtain h | h := List.mem_cons.mp h
        · obtain rfl := Piece.token.inj h
          exact isNamed_of_tokenAt? hname
        · exact ih h
      · obtain h | h := List.mem_cons.mp h
        · cases h
        · exact ih h

/-- The tokens of a text are those that are found in it, with the index spelled out. -/
theorem mem_ofText_iff {token : Token} {t : Text} :
    .token token ∈ ofText t ↔
      ∃ found : Token, .token found ∈ scan 0 t ∧ found.normalize = token := by
  constructor
  · intro h
    obtain ⟨piece, hpiece, hnormal⟩ := List.mem_map.mp h
    cases piece with
    | plain c => cases hnormal
    | token found => exact ⟨found, hpiece, Piece.token.inj hnormal⟩
  · rintro ⟨found, hfound, rfl⟩
    exact List.mem_map.mpr ⟨_, hfound, rfl⟩

/-- The tokens of a text have names without brackets. -/
theorem isNamed_of_mem_ofText {token : Token} {t : Text} (h : .token token ∈ ofText t) :
    token.IsNamed := by
  obtain ⟨found, hfound, rfl⟩ := mem_ofText_iff.mp h
  exact (isNamed_of_mem_scan hfound).normalize

theorem infix_cons_of_ne {token : Token} {c : Char} (hc : c ≠ '<') {s : Text}
    (h : token.text <:+: c :: s) : token.text <:+: s := by
  obtain ⟨rest, hrest⟩ | h := List.infix_cons_iff.mp h
  · rw [token.text_append] at hrest
    exact absurd (List.cons.inj hrest).1.symm hc
  · exact h

/-- No token starts inside of another. -/
theorem infix_of_infix_behind {token other : Token} (hother : other.IsNamed) {rest : Text}
    (h : token.text <:+: '<' :: (other.name ++ '>' :: '>' :: rest)) : token.text <:+: rest := by
  have hletters : ∀ name : Text, (∀ c ∈ name, IsLetter c) →
      token.text <:+: name ++ '>' :: '>' :: rest → token.text <:+: rest := by
    intro name hname h
    induction name with
    | nil => exact infix_cons_of_ne (by decide) (infix_cons_of_ne (by decide) h)
    | cons c name ih =>
      obtain ⟨hc, hname⟩ := List.forall_mem_cons.mp hname
      exact ih hname (infix_cons_of_ne hc.1 h)
  refine hletters other.name hother.letters ?_
  obtain ⟨behind, hbehind⟩ | h := List.infix_cons_iff.mp h
  · -- the bracket would be followed by another one, and not by the name
    obtain ⟨c, name, hname⟩ := List.exists_cons_of_ne_nil hother.ne_nil
    rw [token.text_append, hname] at hbehind
    have hc := (List.cons.inj (List.cons.inj hbehind).2).1
    exact absurd hc.symm (hother.letters c (hname ▸ List.mem_cons_self)).1
  · exact h

/-- The tokens that are found in a text are those that stand in it. -/
theorem mem_scan_iff {token : Token} {t : Text} :
    .token token ∈ scan 0 t ↔ token.IsNamed ∧ token.text <:+: t := by
  induction t using Text.pieces_induction with
  | nil =>
    exact iff_of_false List.not_mem_nil fun h =>
      absurd (List.infix_nil.mp h.2) (List.cons_ne_nil _ _)
  | plain c t hnone ih =>
    have hstarts : token.IsNamed → ¬ token.text <+: c :: t := by
      rintro hnamed ⟨rest, hrest⟩
      rw [← hrest, tokenAt?_append hnamed] at hnone
      cases hnone
    rw [scan_cons_of_none hnone, List.mem_cons, or_iff_right Piece.noConfusion, ih]
    refine and_congr_right fun hnamed => ?_
    rw [List.infix_cons_iff, or_iff_right (hstarts hnamed)]
  | token other t hother ih =>
    rw [scan_append hother, List.mem_cons, ih]
    constructor
    · rintro (h | ⟨hnamed, h⟩)
      · obtain rfl := Piece.token.inj h
        exact ⟨hother, (List.prefix_append _ t).isInfix⟩
      · exact ⟨hnamed, h.trans (List.suffix_append _ t).isInfix⟩
    · rintro ⟨hnamed, h⟩
      rw [Token.text_append, List.infix_cons_iff, ← Token.text_append] at h
      obtain ⟨behind, hbehind⟩ | h := h
      · -- both start at the front, and so are one
        have hname := tokenAt?_append hother t
        rw [← hbehind, tokenAt?_append hnamed] at hname
        exact .inl (congrArg Piece.token (congrArg Token.mk (Option.some.inj hname)))
      · exact .inr ⟨hnamed, infix_of_infix_behind hother h⟩

/-- What stands in a part of a text stands in the text. -/
theorem mem_ofText_of_infix {token : Token} {s t : Text} (h : .token token ∈ ofText s)
    (hst : s <:+: t) : .token token ∈ ofText t := by
  obtain ⟨found, hfound, hnormal⟩ := mem_ofText_iff.mp h
  obtain ⟨hnamed, hinfix⟩ := mem_scan_iff.mp hfound
  exact mem_ofText_iff.mpr ⟨found, mem_scan_iff.mpr ⟨hnamed, hinfix.trans hst⟩, hnormal⟩

theorem ofText_token {token : Token} (h : token.IsNamed) :
    ofText token.text = [.token token.normalize] := by
  have hpieces := ofText_append h []
  rwa [List.append_nil] at hpieces

/-- The tokens of a text have their index spelled out. -/
theorem normalize_of_mem_ofText {token : Token} {t : Text} (h : .token token ∈ ofText t) :
    token.normalize = token := by
  obtain ⟨found, -, rfl⟩ := mem_ofText_iff.mp h
  exact found.normalize_normalize

end Template

end ControlFiles
