import ControlFiles.Proofs.Reference.Values
import ControlFiles.Proofs.Text.Tokens
import Mathlib.Data.List.Infix

/-!
# Texts with their tokens spelled out

The bare axis tokens of a text can be looked for on their own, without regard to its other tokens
(`Text.spellBare`). None of them stands across the edge of another token, so both ways to read a
text spell it alike (`Text.spellBare_eq`). What is spelled out makes no token and breaks none
(`Template.tokenAt?_normalizeTokens`): a text that is spelled out has the pieces of the text
(`Template.scan_normalizeTokens`), and so its tokens and its expansion
(`Text.normalizeTokens_agrees`).
-/

namespace ControlFiles

namespace Token

/-- The axis token without an index. -/
def bare (c : Char) : Token := ⟨['~', c, '~']⟩

/-- The first axis token, spelled with its index. -/
def first (c : Char) : Token := ⟨['~', c.toLower, '1', '~']⟩

variable {c : Char}

theorem isNamed_bare (h : isAxisLetter c = true) : (bare c).IsNamed := by
  have hc : IsLetter c := by constructor <;> rintro rfl <;> exact absurd h (by decide)
  have htilde : IsLetter '~' := by decide
  refine ⟨List.cons_ne_nil _ _, fun d hd => ?_⟩
  simp only [bare, List.mem_cons, List.not_mem_nil, or_false] at hd
  obtain rfl | rfl | rfl := hd
  · exact htilde
  · exact hc
  · exact htilde

theorem normalize_bare (h : isAxisLetter c = true) : (bare c).normalize = first c := if_pos h

theorem bare_ne_first (c : Char) : bare c ≠ first c := by
  intro h
  have hlength := congrArg (fun token => token.name.length) h
  simp [bare, first] at hlength

theorem normalize_eq_self {token : Token} (h : ∀ c, isAxisLetter c = true → token ≠ bare c) :
    token.normalize = token := by
  obtain ⟨name⟩ := token
  rw [normalize]
  split
  · rename_i c hname
    rw [if_neg]
    intro hc
    dsimp only at hname
    exact h c hc (by rw [hname, bare])
  · rfl

/-- No bracket opens behind the two of a token. -/
theorem IsNamed.head?_ne {token : Token} (h : token.IsNamed) (rest : Text) :
    ∀ d ∈ (token.name ++ rest).head?, d ≠ '<' := by
  obtain ⟨c, name, hcons⟩ := List.exists_cons_of_ne_nil h.ne_nil
  intro d hd
  rw [hcons] at hd
  exact Option.some.inj hd ▸ (h.letters c (hcons ▸ List.mem_cons_self)).1

theorem IsNamed.ne_of_mem_closed {token : Token} (h : token.IsNamed) :
    ∀ c ∈ token.name ++ [ '>', '>'], c ≠ '<' := by
  intro c hc
  obtain hc | hc := List.mem_append.mp hc
  · exact (h.letters c hc).1
  · rintro rfl
    revert hc
    decide

/-- The text of a token and of what follows it, bracket by bracket. -/
theorem text_append_closed (token : Token) (rest : Text) :
    token.text ++ rest = '<' :: '<' :: ((token.name ++ [ '>', '>']) ++ rest) := by
  rw [text_append, List.append_assoc]
  rfl

end Token

namespace Text

/-! ## Nothing is made or broken -/

/-- A character of a text that is spelled out, unless it opens a token, is a character of the
text. -/
theorem exists_of_normalizeTokens_eq_cons {t s : Text} {c : Char} (h : normalizeTokens t = c :: s)
    (hopen : c = '<' → ∀ d ∈ s.head?, d ≠ '<') : ∃ t', t = c :: t' ∧ normalizeTokens t' = s := by
  cases t using pieces_induction with
  | nil => cases h
  | plain d t hnone _ =>
    rw [normalizeTokens_cons hnone] at h
    obtain ⟨rfl, rfl⟩ := List.cons.inj h
    exact ⟨t, rfl, rfl⟩
  | token token t hnamed _ =>
    rw [normalizeTokens_append hnamed, Token.text_append] at h
    obtain ⟨hc, hs⟩ := List.cons.inj h
    exact absurd rfl (hopen hc.symm '<' (by rw [← hs]; rfl))

theorem exists_of_normalizeTokens_eq_append {t a s : Text} (h : normalizeTokens t = a ++ s)
    (ha : ∀ c ∈ a, c ≠ '<') : ∃ t', t = a ++ t' ∧ normalizeTokens t' = s := by
  induction a generalizing t with
  | nil => exact ⟨t, rfl, h⟩
  | cons c a ih =>
    have hc := ha c List.mem_cons_self
    obtain ⟨t', rfl, h'⟩ := exists_of_normalizeTokens_eq_cons h fun hopen => absurd hopen hc
    obtain ⟨t'', rfl, h''⟩ := ih h' fun d hd => ha d (List.mem_cons_of_mem c hd)
    exact ⟨t'', rfl, h''⟩

end Text

namespace Template

/-- Where no token starts, none starts before what is spelled out. -/
theorem tokenAt?_normalizeTokens {c : Char} {t : Text} (h : tokenAt? (c :: t) = none) :
    tokenAt? (c :: Text.normalizeTokens t) = none := by
  rw [Option.eq_none_iff_forall_not_mem]
  intro name hname
  have hnamed := isNamed_of_tokenAt? hname
  obtain ⟨rest, hrest⟩ := tokenAt?_eq_some hname
  rw [Token.text_append_closed] at hrest
  obtain ⟨rfl, hopen⟩ := List.cons.inj hrest
  have hletter : ∀ d ∈ ((name ++ [ '>', '>']) ++ rest).head?, d ≠ '<' := by
    rw [List.append_assoc]
    exact hnamed.head?_ne _
  obtain ⟨t, rfl, hclosed⟩ := Text.exists_of_normalizeTokens_eq_cons hopen fun _ => hletter
  obtain ⟨t, rfl, -⟩ := Text.exists_of_normalizeTokens_eq_append hclosed hnamed.ne_of_mem_closed
  have htoken := tokenAt?_append hnamed t
  rw [Token.text_append_closed] at htoken
  exact Option.some_ne_none name (htoken.symm.trans h)

/-- What is found in a text that is spelled out are the pieces of the text. -/
theorem scan_normalizeTokens (t : Text) : scan 0 (Text.normalizeTokens t) = ofText t := by
  induction t using Text.pieces_induction with
  | nil => rfl
  | plain c t hnone ih =>
    rw [Text.normalizeTokens_cons hnone, scan_cons_of_none (tokenAt?_normalizeTokens hnone),
      ofText_cons_of_none hnone, ih]
  | token token t hnamed ih =>
    rw [Text.normalizeTokens_append hnamed, ofText_append hnamed, scan_append hnamed.normalize, ih]

theorem ofText_normalizeTokens (t : Text) : ofText (Text.normalizeTokens t) = ofText t := by
  have hpiece : ∀ piece ∈ ofText t, normalizePiece piece = piece := by
    rintro (c | token) hpiece
    · rfl
    · exact congrArg Piece.token (normalize_of_mem_ofText hpiece)
  rw [ofText, scan_normalizeTokens, List.map_congr_left hpiece, List.map_id']

end Template

namespace Text

/-! ## Bare axis tokens on their own -/

/-- The letter of the bare axis token that the text starts with. -/
def bareAt? (t : Text) : Option Char :=
  match t.drop 3 with
  | [] => none
  | c :: _ => if Token.isAxisLetter c && startsWith (Token.bare c).text t then some c else none

/-- The rest of a text with its bare axis tokens spelled out, of which the first `skip` characters
belong to one that is already taken. -/
def spellFrom : (skip : Nat) → Text → Text
  | _, [] => []
  | skip + 1, _ :: rest => spellFrom skip rest
  | 0, c :: rest =>
    match bareAt? (c :: rest) with
    | some letter => (Token.first letter).text ++ spellFrom 6 rest
    | none => c :: spellFrom 0 rest

/-- The text with its bare axis tokens spelled out, from the left. -/
def spellBare (t : Text) : Text := spellFrom 0 t

theorem bareAt?_eq_some {t : Text} {c : Char} :
    bareAt? t = some c ↔ Token.isAxisLetter c = true ∧ (Token.bare c).text <+: t := by
  rw [bareAt?]
  constructor
  · intro h
    split at h
    · cases h
    · split at h
      · rename_i hcond
        rw [Bool.and_eq_true, startsWith, List.isPrefixOf_iff_prefix] at hcond
        rwa [← Option.some.inj h]
      · cases h
  · rintro ⟨hc, rest, rfl⟩
    have hstarts : startsWith (Token.bare c).text ((Token.bare c).text ++ rest) = true :=
      List.isPrefixOf_iff_prefix.mpr (List.prefix_append _ _)
    exact if_pos (by rw [hc, hstarts]; rfl)

/-- A bare axis token is a token. -/
theorem bareAt?_of_tokenAt? {t : Text} (h : Template.tokenAt? t = none) : bareAt? t = none := by
  rw [Option.eq_none_iff_forall_not_mem]
  intro c hc
  obtain ⟨hletter, rest, rfl⟩ := bareAt?_eq_some.mp hc
  rw [Template.tokenAt?_append (Token.isNamed_bare hletter)] at h
  cases h

theorem spellFrom_eq_drop (k : Nat) (t : Text) : spellFrom k t = spellFrom 0 (t.drop k) := by
  induction k generalizing t with
  | zero => rfl
  | succ k ih =>
    cases t with
    | nil => rfl
    | cons c t => exact ih t

theorem spellBare_cons {c : Char} {t : Text} (h : bareAt? (c :: t) = none) :
    spellBare (c :: t) = c :: spellBare t := by
  rw [spellBare, spellFrom, h]
  rfl

theorem spellBare_bare {c : Char} (h : Token.isAxisLetter c = true) (t : Text) :
    spellBare ((Token.bare c).text ++ t) = (Token.first c).text ++ spellBare t := by
  have hbare : bareAt? ((Token.bare c).text ++ t) = some c :=
    bareAt?_eq_some.mpr ⟨h, List.prefix_append _ _⟩
  have hcons : (Token.bare c).text ++ t = '<' :: ('<' :: '~' :: c :: '~' :: '>' :: '>' :: t) := rfl
  rw [hcons] at hbare ⊢
  rw [spellBare, spellFrom, hbare]
  show (Token.first c).text ++ spellFrom 6 _ = _
  rw [spellFrom_eq_drop]
  rfl

/-- No bare axis token starts at a character that is no bracket, nor at one before such. -/
theorem spellBare_of_ne {c : Char} {t : Text} (h : c = '<' → ∀ d ∈ t.head?, d ≠ '<') :
    spellBare (c :: t) = c :: spellBare t := by
  refine spellBare_cons (Option.eq_none_iff_forall_not_mem.mpr fun letter hletter => ?_)
  obtain ⟨-, rest, hrest⟩ := bareAt?_eq_some.mp hletter
  rw [Token.text_append] at hrest
  obtain ⟨hc, ht⟩ := List.cons.inj hrest
  exact h hc.symm '<' (by rw [← ht]; rfl) rfl

theorem spellBare_append {a : Text} (ha : ∀ c ∈ a, c ≠ '<') (t : Text) :
    spellBare (a ++ t) = a ++ spellBare t := by
  induction a with
  | nil => rfl
  | cons c a ih =>
    rw [List.cons_append, spellBare_of_ne fun hc => absurd hc (ha c List.mem_cons_self),
      ih fun d hd => ha d (List.mem_cons_of_mem c hd), List.cons_append]

/-- No bare axis token starts inside of another token. -/
theorem spellBare_token {token : Token} (hnamed : token.IsNamed)
    (hbare : ∀ c, Token.isAxisLetter c = true → token ≠ Token.bare c) (t : Text) :
    spellBare (token.text ++ t) = token.text ++ spellBare t := by
  have hnone : bareAt? (token.text ++ t) = none := by
    refine Option.eq_none_iff_forall_not_mem.mpr fun c hc => ?_
    obtain ⟨hc, rest, hrest⟩ := bareAt?_eq_some.mp hc
    have htoken := Template.tokenAt?_append hnamed t
    rw [← hrest, Template.tokenAt?_append (Token.isNamed_bare hc)] at htoken
    have hname : (Token.bare c).name = token.name := Option.some.inj htoken
    exact hbare c hc (congrArg Token.mk hname.symm)
  have hletter : ∀ d ∈ ((token.name ++ [ '>', '>']) ++ t).head?, d ≠ '<' := by
    rw [List.append_assoc]
    exact hnamed.head?_ne _
  rw [Token.text_append_closed] at hnone ⊢
  rw [spellBare_cons hnone, spellBare_of_ne fun _ => hletter,
    spellBare_append hnamed.ne_of_mem_closed, Token.text_append_closed]

/-- The bare axis tokens that are found on their own are those that are found among all tokens. -/
theorem spellBare_eq (t : Text) : spellBare t = normalizeTokens t := by
  induction t using pieces_induction with
  | nil => rfl
  | plain c t hnone ih =>
    rw [spellBare_cons (bareAt?_of_tokenAt? hnone), normalizeTokens_cons hnone, ih]
  | token token t hnamed ih =>
    rw [normalizeTokens_append hnamed]
    by_cases hbare : ∃ c, Token.isAxisLetter c = true ∧ token = Token.bare c
    · obtain ⟨c, hc, rfl⟩ := hbare
      rw [spellBare_bare hc, Token.normalize_bare hc, ih]
    · have hnot : ∀ c, Token.isAxisLetter c = true → token ≠ Token.bare c :=
        fun c hc heq => hbare ⟨c, hc, heq⟩
      rw [spellBare_token hnamed hnot, Token.normalize_eq_self hnot, ih]

/-! ## The tokens of both -/

theorem alike_text (s t : Token) : alike s.text t.text = s.same t := by
  rw [Bool.eq_iff_iff, alike_iff, Token.same, alike_iff]
  simp only [Token.text, lower, List.map_append, List.append_left_inj, List.append_right_inj]

/-- A text and what it is with its tokens spelled out have the same tokens, each listed once, and
the same expansion. No bare axis token is left, and every token that is left is listed, in some
case. -/
theorem normalizeTokens_agrees (t : Text) (vars : Variables) :
    spellBare t = normalizeTokens t ∧ Template.scan 0 (normalizeTokens t) = Template.ofText t ∧
      normalizeTokens (normalizeTokens t) = normalizeTokens t ∧
      (∀ c, Token.isAxisLetter c = true → ¬ (Token.bare c).text <:+: normalizeTokens t) ∧
      hasTokens (normalizeTokens t) = hasTokens t ∧ tokens (normalizeTokens t) = tokens t ∧
      vars.expand (normalizeTokens t) = vars.expand t ∧
      (tokens t = [] ↔ hasTokens t = false) ∧
      ((tokens t).map fun token => lower token.text).Nodup ∧
      ∀ token : Token, token.IsNamed → token.text <:+: normalizeTokens t →
        ∃ listed ∈ tokens t, alike listed.text token.text = true := by
  have hpieces := Template.ofText_normalizeTokens t
  have hfound : ∀ {token : Token}, token.IsNamed → token.text <:+: normalizeTokens t →
      .token token ∈ Template.ofText t := fun hnamed h => by
    rw [← Template.scan_normalizeTokens]
    exact Template.mem_scan_iff.mpr ⟨hnamed, h⟩
  refine ⟨spellBare_eq t, Template.scan_normalizeTokens t, ?_, fun c hc h => ?_, ?_, ?_, ?_, ?_, ?_,
    fun token hnamed h => ?_⟩
  · rw [normalizeTokens, hpieces, normalizeTokens]
  · have hnormal := Template.normalize_of_mem_ofText (hfound (Token.isNamed_bare hc) h)
    rw [Token.normalize_bare hc] at hnormal
    exact Token.bare_ne_first c hnormal.symm
  · rw [hasTokens, hpieces, hasTokens]
  · rw [tokens, hpieces, tokens]
  · rw [Variables.expand, hpieces, Variables.expand]
  · rw [← List.isEmpty_iff, tokens_isEmpty, Bool.not_eq_true']
  · rw [List.Nodup, List.pairwise_map]
    refine (Template.distinct_tokens (Template.ofText t)).imp fun hnot heq => ?_
    rw [← alike_text, alike_iff.mpr heq] at hnot
    cases hnot
  · obtain ⟨listed, hlisted, hsame⟩ := Template.exists_same_of_mem (hfound hnamed h)
    exact ⟨listed, hlisted, (alike_text listed token).trans hsame⟩

/-- Brackets around a token belong to no other. -/
theorem normalizeTokens_agrees_brackets :
    let t : Text := "<<<~S~>>><<<<CELL>>_<<cell>><<~s1~>>"
    let cell : Token := ⟨"cell"⟩
    Token.isAxisLetter 'S' = true ∧ cell.IsNamed ∧ cell.text <:+: normalizeTokens t ∧
      normalizeTokens t = "<<<~s1~>>><<<<CELL>>_<<cell>><<~s1~>>" ∧
      ¬ (Token.bare 'S').text <:+: normalizeTokens t ∧ tokens t = [⟨"~s1~"⟩, ⟨"CELL"⟩] ∧
      ∃ listed ∈ tokens t, alike listed.text cell.text = true := by
  intro t cell
  have hnamed : cell.IsNamed := ⟨by decide, by simp [cell, IsLetter]⟩
  have hstands : cell.text <:+: normalizeTokens t := by decide
  obtain ⟨-, -, -, hbare, -, -, -, -, -, hlisted⟩ := normalizeTokens_agrees t .empty
  exact ⟨by decide, hnamed, hstands, by decide, hbare 'S' (by decide), by decide,
    hlisted cell hnamed hstands⟩

end Text

end ControlFiles
