import ControlFiles.Files.Store
import ControlFiles.Proofs.Glob
import ControlFiles.Proofs.Text.Alike

/-!
# Patterns that match one text

An escaped text is read as one token for each of its characters (`Glob.parse_escape`), so it matches
the text in whatever case and nothing else (`Glob.fits_exactly`, `Store.search_escape`).

Escaping commutes with what is done to references on their way to a path: trimming
(`Glob.trim_escape`), turning backslashes into slashes (`Glob.slashed_escape`), cutting at slashes
(`Glob.split_escape`) and joining (`Glob.escape_join`).
-/

namespace ControlFiles

namespace Glob

/-! ## What is done to references -/

theorem escape_eq_nil_iff {t : Text} : escape t = [] ↔ t = [] := by
  cases t with
  | nil => simp [escape]
  | cons c t =>
    rw [escape_cons]
    exact iff_of_false (fun h => escape_ne_nil c (List.append_eq_nil_iff.mp h).1)
      (List.cons_ne_nil c t)

theorem trimEnd_escape (t : Text) : Text.trimEnd (escape t) = escape (Text.trimEnd t) := by
  induction t with
  | nil => rfl
  | cons c t ih =>
    cases hblank : isBlank c with
    | false =>
      rw [escape_cons, trimEnd_escape_append hblank, ih, Text.trimEnd_cons_of_not_blank hblank,
        escape_cons c (Text.trimEnd t)]
    | true =>
      have hself := escape_of_not_special (not_special_of_isBlank hblank)
      rw [escape_cons, hself, List.singleton_append, Text.trimEnd_cons, Text.trimEnd_cons, ih]
      by_cases hend : Text.trimEnd t = []
      · rw [if_pos ⟨hblank, escape_eq_nil_iff.mpr hend⟩, if_pos ⟨hblank, hend⟩]
        rfl
      · rw [if_neg fun h => hend (escape_eq_nil_iff.mp h.2), if_neg fun h => hend h.2, escape_cons,
          hself, List.singleton_append]

theorem trim_escape (t : Text) : Text.trim (escape t) = escape (Text.trim t) := by
  induction t with
  | nil => rfl
  | cons c t ih =>
    cases hblank : isBlank c with
    | false =>
      rw [escape_cons, trim_escape_append hblank, trimEnd_escape,
        Text.trim_cons_of_not_blank hblank, escape_cons c (Text.trimEnd t)]
    | true =>
      rw [escape_cons, escape_of_not_special (not_special_of_isBlank hblank),
        List.singleton_append, Text.trim_cons_blank hblank, Text.trim_cons_blank hblank, ih]

theorem slashed_escape (t : Text) : Text.slashed (escape t) = escape (Text.slashed t) := by
  induction t with
  | nil => rfl
  | cons c t ih =>
    have happend : ∀ a b : Text, Text.slashed (a ++ b) = Text.slashed a ++ Text.slashed b :=
      fun a b => List.map_append
    have hchar := slashed_escape_singleton c
    rw [escape_cons, happend, ih, hchar, ← escape_append]
    rfl

theorem not_mem_escape {c d : Char} (h : c ≠ d) (hd : ¬ IsSpecial d) : d ∉ escape [c] := by
  by_cases hc : IsSpecial c
  · rw [escape_of_special hc]
    simp only [IsSpecial, not_or] at hd
    simp [hd, h.symm]
  · rw [escape_of_not_special hc]
    simpa using h.symm

theorem split_escape (t : Text) : Text.split '/' (escape t) = (Text.split '/' t).map escape := by
  induction t with
  | nil => rfl
  | cons c t ih =>
    by_cases hslash : c = '/'
    · subst hslash
      have hcons : escape ('/' :: t) = '/' :: escape t := rfl
      rw [hcons, Text.split_cons_self, Text.split_cons_self, ih]
      rfl
    · obtain ⟨part, parts, hsplit, happend⟩ :=
        Text.split_append (not_mem_escape hslash (by simp [IsSpecial])) (escape t)
      obtain ⟨part', parts', hsplit', hcons⟩ := Text.split_cons_of_ne hslash t
      rw [hsplit, hsplit', List.map_cons] at ih
      obtain ⟨rfl, rfl⟩ := List.cons.inj ih
      rw [escape_cons, happend, hcons, List.map_cons, ← escape_cons]

theorem escape_join (parts : List Text) :
    escape (Text.join "/" parts) = Text.join "/" (parts.map escape) := by
  induction parts with
  | nil => rfl
  | cons part parts ih =>
    cases parts with
    | nil => simp [Text.join]
    | cons next parts =>
      have hcons : ∀ (a b : Text) (rest : List Text),
          Text.join "/" (a :: b :: rest) = a ++ '/' :: Text.join "/" (b :: rest) := by
        simp [Text.join, List.intercalate_cons_cons]
      rw [hcons, escape_append, List.map_cons, List.map_cons, hcons, ← List.map_cons, ← ih]
      rfl

/-! ## Matching -/

/-- The token that stands for a character alone, as it is written. -/
def exactToken (c : Char) : Token :=
  if escape [c] = [c] then .char c else .oneOf [.single c]

/-- The pattern of a text that is written to match itself. -/
def exactly (t : Text) : Pattern := t.map exactToken

theorem exactToken_of_special {c : Char} (h : IsSpecial c) : exactToken c = .oneOf [.single c] := by
  rw [exactToken, escape_of_special h, if_neg (by simp)]

theorem exactToken_of_not_special {c : Char} (h : ¬ IsSpecial c) : exactToken c = .char c := by
  rw [exactToken, escape_of_not_special h, if_pos rfl]

/-- An escaped character is read as its token. -/
theorem parseFrom_escape_append (c : Char) (position : Nat) (fresh : Bool) (t : Text) :
    parseFrom 0 position fresh (escape [c] ++ t) =
      (parseFrom 0 (position + (escape [c]).length) (c == '/') t).map (exactToken c :: ·) := by
  by_cases hc : IsSpecial c
  · have hslash : (c == '/') = false := by obtain rfl | rfl | rfl | rfl := hc <;> rfl
    rw [exactToken_of_special hc, escape_of_special hc, hslash]
    exact parseFrom_escaped hc position fresh t
  · rw [exactToken_of_not_special hc, escape_of_not_special hc]
    exact parseFrom_char hc position fresh t

theorem parseFrom_escape (position : Nat) (fresh : Bool) (t : Text) :
    parseFrom 0 position fresh (escape t) = .ok (exactly t) := by
  induction t generalizing position fresh with
  | nil => rfl
  | cons c t ih =>
    rw [escape_cons, parseFrom_escape_append, ih]
    rfl

theorem parse_escape (t : Text) : parse (escape t) = .ok (exactly t) := parseFrom_escape 0 true t

/-- The token of a character stands for it in either case. -/
theorem accepts_exactToken (c d : Char) :
    Store.searchOptions.accepts c (exactToken d) = (c.toLower == d.toLower) := by
  by_cases hd : IsSpecial d
  · have hslash : '/' ≠ d.toLower := by obtain rfl | rfl | rfl | rfl := hd <;> decide
    rw [exactToken_of_special hd]
    by_cases hc : c = '/'
    · subst hc
      simp [Options.accepts, Store.searchOptions, hslash]
    · simp [Options.accepts, Options.admits, Options.same, Store.searchOptions, hc]
  · rw [exactToken_of_not_special hd]
    rfl

theorem matchesWith_exactToken_cons (d : Char) (p : Pattern) (c : Char) (s : Text) :
    matchesWith Store.searchOptions (exactToken d :: p) (c :: s) =
      (c.toLower == d.toLower && matchesWith Store.searchOptions p s) := by
  rw [← accepts_exactToken, exactToken]
  split <;> rfl

theorem matchesWith_exactToken_nil (o : Options) (d : Char) (p : Pattern) :
    matchesWith o (exactToken d :: p) [] = false := by
  rw [exactToken]
  split <;> rfl

/-- Without regard to case, an escaped text matches itself only. -/
theorem fits_exactly (t s : Text) :
    fits Store.searchOptions (exactly t) s = Text.alike s t := by
  rw [fits_eq]
  induction t generalizing s with
  | nil => cases s <;> rfl
  | cons d t ih =>
    have hcons : exactly (d :: t) = exactToken d :: exactly t := rfl
    rw [hcons]
    cases s with
    | nil => exact matchesWith_exactToken_nil _ d _
    | cons c s =>
      rw [matchesWith_exactToken_cons, ih]
      simp [Text.alike, Text.lower]

end Glob

/-- Searching for an escaped text meets the files whose path it is, in whatever case. -/
theorem Store.search_escape (s : Store) (t : Text) :
    s.search (Glob.escape t) = .ok (s.paths.filter fun p => Text.alike p.text t) := by
  simp only [search, Glob.parse_escape, Glob.fits_exactly]

end ControlFiles
