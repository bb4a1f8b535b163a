import ControlFiles.Glob
import ControlFiles.Proofs.Text.Parts

/-!
# Patterns that cover a text

A pattern that is written for a text has each character escaped, or in the place of some characters
a `*` that stands for them (`Glob.Covers`). What it covers is matched (`Glob.Covers.fits`), as long
as no `*` follows another and none stands for a slash.

Covering survives what is done to references on their way to a path: trimming, turning backslashes
into slashes, and cutting at slashes.
-/

namespace ControlFiles.Glob

/-- Some characters that a `*` of a reference can stand for: they have no blanks around them, do
not reach into another directory, and more than full stops are among them. -/
structure IsFilling (v : Text) : Prop where
  trimmed : Text.trim v = v
  noSlash : '/' ∉ v
  noBackslash : '\\' ∉ v
  notDots : ∃ c ∈ v, c ≠ '.'

theorem IsFilling.ne_nil {v : Text} (h : IsFilling v) : v ≠ [] := by
  rintro rfl
  obtain ⟨c, hc, -⟩ := h.notDots
  cases hc

/-- The pattern is the text with its characters escaped and some of its parts, never two in a row,
left to a `*`. -/
inductive Covers : Text → Text → Prop where
  | nil : Covers [] []
  | char (c : Char) {p t : Text} (h : Covers p t) : Covers (escape [c] ++ p) (c :: t)
  | run {v p t : Text} (hv : IsFilling v) (hp : p.head? ≠ some '*') (h : Covers p t) :
      Covers ('*' :: p) (v ++ t)

/-! ## Escaping -/

/-- The character is written in brackets. -/
def IsSpecial (c : Char) : Prop := c = '?' ∨ c = '*' ∨ c = '[' ∨ c = ']'

theorem escape_of_special {c : Char} (h : IsSpecial c) : escape [c] = ['[', c, ']'] := by
  obtain rfl | rfl | rfl | rfl := h <;> rfl

theorem escape_of_not_special {c : Char} (h : ¬ IsSpecial c) : escape [c] = [c] := by
  simp only [IsSpecial, not_or] at h
  simp [escape, h]

theorem escape_append (s t : Text) : escape (s ++ t) = escape s ++ escape t := List.flatMap_append

theorem escape_cons (c : Char) (t : Text) : escape (c :: t) = escape [c] ++ escape t :=
  escape_append [c] t

/-- The text written so that it matches itself covers itself. -/
theorem covers_escape (t : Text) : Covers (escape t) t := by
  induction t with
  | nil => exact .nil
  | cons c t ih =>
    rw [escape_cons]
    exact .char c ih

theorem head?_escape_append (c : Char) (p : Text) : (escape [c] ++ p).head? ≠ some '*' := by
  by_cases hc : IsSpecial c
  · rw [escape_of_special hc]
    exact nofun
  · rw [escape_of_not_special hc]
    simp only [List.singleton_append, List.head?_cons, ne_eq, Option.some.injEq]
    rintro rfl
    exact hc (.inr (.inl rfl))

theorem escape_ne_nil (c : Char) : escape [c] ≠ [] := by
  by_cases hc : IsSpecial c
  · rw [escape_of_special hc]
    exact List.cons_ne_nil _ _
  · rw [escape_of_not_special hc]
    exact List.cons_ne_nil _ _

theorem not_special_of_isBlank {c : Char} (h : isBlank c = true) : ¬ IsSpecial c := by
  rintro (rfl | rfl | rfl | rfl) <;> exact absurd h (by decide)

theorem trimEnd_escape_append {c : Char} (h : isBlank c = false) (p : Text) :
    Text.trimEnd (escape [c] ++ p) = escape [c] ++ Text.trimEnd p := by
  refine Text.trimEnd_append (escape_ne_nil c) ?_ p
  by_cases hc : IsSpecial c
  · rw [escape_of_special hc]
    simpa using (by decide : isBlank ']' = false)
  · rw [escape_of_not_special hc]
    simpa using h

theorem trim_escape_append {c : Char} (h : isBlank c = false) (p : Text) :
    Text.trim (escape [c] ++ p) = escape [c] ++ Text.trimEnd p := by
  rw [← trimEnd_escape_append h]
  by_cases hc : IsSpecial c
  · rw [escape_of_special hc]
    exact (Text.trim_cons_of_not_blank (by decide) _).trans
      (Text.trimEnd_cons_of_not_blank (by decide) _).symm
  · rw [escape_of_not_special hc]
    exact (Text.trim_cons_of_not_blank h p).trans (Text.trimEnd_cons_of_not_blank h p).symm

theorem slashed_escape_singleton (c : Char) :
    Text.slashed (escape [c]) = escape (Text.slashed [c]) := by
  by_cases hback : c = '\\'
  · subst hback
    rfl
  · have hself : Text.slashed [c] = [c] := by simp [Text.slashed, Text.replaceChar, hback]
    rw [hself]
    by_cases hc : IsSpecial c
    · rw [escape_of_special hc]
      simp [Text.slashed, Text.replaceChar, hback]
    · rw [escape_of_not_special hc, hself]

theorem IsFilling.trimEnd_append {v : Text} (hv : IsFilling v) (t : Text) :
    Text.trimEnd (v ++ t) = v ++ Text.trimEnd t :=
  Text.trimEnd_append hv.ne_nil (Text.trim_eq_self_iff.mp hv.trimmed).2 t

theorem IsFilling.trim_append {v : Text} (hv : IsFilling v) (t : Text) :
    Text.trim (v ++ t) = Text.trimEnd (v ++ t) := by
  obtain ⟨c, v, rfl⟩ := List.exists_cons_of_ne_nil hv.ne_nil
  have hc : isBlank c = false := (Text.trim_eq_self_iff.mp hv.trimmed).1 c rfl
  rw [List.cons_append, Text.trim_cons_of_not_blank hc, Text.trimEnd_cons_of_not_blank hc]

/-! ## Matching -/

theorem matchesWith_cons {o : Options} {q : Token} {qs : Pattern} {c : Char} {t : Text}
    (hq : o.accepts c q = true) (h : matchesWith o qs t = true) :
    matchesWith o (q :: qs) (c :: t) = true := by
  cases q with
  | run => cases hq
  | deep => cases hq
  | _ => simp [matchesWith, hq, h]

theorem afterRun_append {rest : Text → Bool} {v : Text} (hv : '/' ∉ v) {t : Text}
    (h : rest t = true) (keep : Bool) : afterRun keep rest (v ++ t) = true := by
  induction v with
  | nil => cases t <;> simp [afterRun, h]
  | cons c v ih =>
    simp only [List.mem_cons, not_or] at hv
    have hc : (c == '/') = false := by simpa using Ne.symm hv.1
    simp [afterRun, hc, ih hv.2]

theorem accepts_char (o : Options) (c : Char) : o.accepts c (.char c) = true := by
  simp [Options.accepts, Options.same]

theorem accepts_oneOf (o : Options) {c : Char} (h : IsSpecial c) :
    o.accepts c (.oneOf [.single c]) = true := by
  have hslash : (c == '/') = false := by obtain rfl | rfl | rfl | rfl := h <;> rfl
  simp [Options.accepts, Options.admits, Options.same, hslash]

theorem parseFrom_char {c : Char} (h : ¬ IsSpecial c) (position : Nat) (fresh : Bool) (t : Text) :
    parseFrom 0 position fresh (c :: t) =
      (parseFrom 0 (position + 1) (c == '/') t).map (.char c :: ·) := by
  simp only [IsSpecial, not_or] at h
  rw [parseFrom]
  · generalize parseFrom 0 (position + 1) (c == '/') t = x
    cases x <;> rfl
  · exact h.1
  · exact h.2.1
  · exact h.2.2.1

theorem parseFrom_escaped {c : Char} (h : IsSpecial c) (position : Nat) (fresh : Bool) (t : Text) :
    parseFrom 0 position fresh ('[' :: c :: ']' :: t) =
      (parseFrom 0 (position + 3) false t).map (.oneOf [.single c] :: ·) := by
  have hclass : class? (c :: ']' :: t) = some (.oneOf [.single c], 2) := by
    obtain rfl | rfl | rfl | rfl := h <;> simp [class?, members]
  have hbracket : (']' == '/') = false := rfl
  simp only [parseFrom, hclass, hbracket]
  generalize parseFrom 0 (position + 1 + 1 + 1) false t = x
  cases x <;> rfl

theorem parseFrom_run {p : Text} (h : p.head? ≠ some '*') (position : Nat) (fresh : Bool) :
    parseFrom 0 position fresh ('*' :: p) =
      (parseFrom 0 (position + 1) false p).map (.run :: ·) := by
  have htake : (p.takeWhile (· = '*')).length = 0 := by
    cases p with
    | nil => rfl
    | cons c p =>
      rw [List.takeWhile_cons_of_neg]
      · rfl
      · simpa using h
  simp only [parseFrom, htake]
  generalize parseFrom 0 (position + 1) false p = x
  cases x <;> rfl

namespace Covers

variable {p t p' t' : Text} {o : Options}

/-- A pattern matches what it covers. -/
theorem matchesWith (h : Covers p t) (position : Nat) (fresh : Bool) :
    ∃ pattern, parseFrom 0 position fresh p = .ok pattern ∧
      Glob.matchesWith o pattern t = true := by
  induction h generalizing position fresh with
  | nil => exact ⟨[], rfl, rfl⟩
  | char c h ih =>
    by_cases hc : IsSpecial c
    · rw [escape_of_special hc]
      obtain ⟨pattern, hpattern, hmatches⟩ := ih (position + 3) false
      refine ⟨.oneOf [.single c] :: pattern, ?_, matchesWith_cons (accepts_oneOf o hc) hmatches⟩
      exact (parseFrom_escaped hc position fresh _).trans (congrArg (Except.map _) hpattern)
    · rw [escape_of_not_special hc]
      obtain ⟨pattern, hpattern, hmatches⟩ := ih (position + 1) (c == '/')
      refine ⟨.char c :: pattern, ?_, matchesWith_cons (accepts_char o c) hmatches⟩
      rw [List.singleton_append, parseFrom_char hc, hpattern]
      rfl
  | run hv hp h ih =>
    obtain ⟨pattern, hpattern, hmatches⟩ := ih (position + 1) false
    refine ⟨.run :: pattern, ?_, ?_⟩
    · rw [parseFrom_run hp, hpattern]
      rfl
    · rw [Glob.matchesWith]
      exact afterRun_append hv.noSlash hmatches _

theorem fits (h : Covers p t) :
    ∃ pattern, parse p = .ok pattern ∧ Glob.fits o pattern t = true := by
  obtain ⟨pattern, hparse, hmatches⟩ := h.matchesWith 0 true
  exact ⟨pattern, hparse, (fits_eq o pattern t).trans hmatches⟩

/-! ## Putting together -/

theorem append (h : Covers p t) (h' : Covers p' t') (hp' : p'.head? ≠ some '*') :
    Covers (p ++ p') (t ++ t') := by
  induction h with
  | nil => exact h'
  | char c h ih =>
    rw [List.append_assoc]
    exact .char c ih
  | run hv hp h ih =>
    rw [List.cons_append, List.append_assoc]
    refine .run hv ?_ ih
    rename_i p t
    cases p with
    | nil => exact hp'
    | cons c p => exact hp

theorem slash (h : Covers p t) : Covers ('/' :: p) ('/' :: t) := .char '/' h

/-! ## Taking apart -/

theorem startsWith_slash (h : Covers p t) : Text.startsWith "/" p = Text.startsWith "/" t := by
  cases h with
  | nil => rfl
  | char c h =>
    by_cases hc : IsSpecial c
    · rw [escape_of_special hc]
      obtain rfl | rfl | rfl | rfl := hc <;> rfl
    · rw [escape_of_not_special hc]
      rfl
  | @run v p t hv hp h =>
    obtain ⟨c, v, rfl⟩ := List.exists_cons_of_ne_nil hv.ne_nil
    have hc : ¬ '/' = c := fun hc => hv.noSlash (hc ▸ List.mem_cons_self)
    simp [Text.startsWith, List.isPrefixOf, hc]

/-- Between slashes, each part covers a part. -/
theorem split (h : Covers p t) : List.Forall₂ Covers (Text.split '/' p) (Text.split '/' t) := by
  induction h with
  | nil => exact .cons .nil .nil
  | @char c p t h ih =>
    by_cases hslash : c = '/'
    · subst hslash
      exact .cons .nil ih
    · have hescape : '/' ∉ escape [c] := by
        by_cases hc : IsSpecial c
        · rw [escape_of_special hc]
          simpa using Ne.symm hslash
        · rw [escape_of_not_special hc]
          simpa using Ne.symm hslash
      obtain ⟨part, parts, hs, happend⟩ := Text.split_append hescape p
      obtain ⟨part', parts', hs', hcons⟩ := Text.split_cons_of_ne hslash t
      rw [happend, hcons]
      rw [hs, hs'] at ih
      obtain ⟨hpart, hparts⟩ := List.forall₂_cons.mp ih
      exact .cons (.char c hpart) hparts
  | @run v p t hv hp h ih =>
    obtain ⟨part, parts, hs, hcons⟩ := Text.split_cons_of_ne (show '*' ≠ '/' by decide) p
    obtain ⟨part', parts', hs', happend⟩ := Text.split_append hv.noSlash t
    rw [hcons, happend]
    rw [hs, hs'] at ih
    obtain ⟨hpart, hparts⟩ := List.forall₂_cons.mp ih
    refine .cons (.run hv ?_ hpart) hparts
    intro hhead
    rw [Text.head?_of_split hs, Option.filter_eq_some_iff] at hhead
    exact hp hhead.1

/-! ## What is done to references -/

theorem slashed (h : Covers p t) : Covers (Text.slashed p) (Text.slashed t) := by
  induction h with
  | nil => exact .nil
  | @char c p t h ih =>
    have happend :
        Text.slashed (escape [c] ++ p) = escape (Text.slashed [c]) ++ Text.slashed p := by
      rw [← slashed_escape_singleton]
      exact List.map_append
    rw [happend]
    exact .char _ ih
  | @run v p t hv hp h ih =>
    have happend : Text.slashed (v ++ t) = v ++ Text.slashed t := by
      rw [Text.slashed, Text.replaceChar, List.map_append]
      exact congrArg (· ++ _) (Text.slashed_of_not_mem hv.noBackslash)
    rw [happend]
    refine .run hv ?_ ih
    cases p with
    | nil => exact nofun
    | cons c p =>
      by_cases hback : c = '\\'
      · subst hback
        exact nofun
      · simpa [Text.slashed, Text.replaceChar, hback] using hp

theorem trimEnd (h : Covers p t) :
    Covers (Text.trimEnd p) (Text.trimEnd t) ∧ (Text.trimEnd p = [] ↔ Text.trimEnd t = []) := by
  induction h with
  | nil => exact ⟨.nil, Iff.rfl⟩
  | @char c p t h ih =>
    obtain ⟨hcovers, hnil⟩ := ih
    cases hblank : isBlank c with
    | false =>
      rw [trimEnd_escape_append hblank, Text.trimEnd_cons_of_not_blank hblank]
      refine ⟨.char c hcovers, iff_of_false (fun h => ?_) (List.cons_ne_nil _ _)⟩
      exact escape_ne_nil c (List.append_eq_nil_iff.mp h).1
    | true =>
      rw [escape_of_not_special (not_special_of_isBlank hblank), List.singleton_append,
        Text.trimEnd_cons, Text.trimEnd_cons]
      by_cases hend : Text.trimEnd t = []
      · rw [if_pos ⟨hblank, hnil.mpr hend⟩, if_pos ⟨hblank, hend⟩]
        exact ⟨.nil, Iff.rfl⟩
      · rw [if_neg fun h => hend (hnil.mp h.2), if_neg fun h => hend h.2]
        refine ⟨?_, iff_of_false (List.cons_ne_nil _ _) (List.cons_ne_nil _ _)⟩
        have hchar := Covers.char c hcovers
        rwa [escape_of_not_special (not_special_of_isBlank hblank)] at hchar
  | @run v p t hv hp h ih =>
    rw [Text.trimEnd_cons_of_not_blank (by decide), hv.trimEnd_append]
    refine ⟨.run hv (fun hhead => hp ?_) ih.1, iff_of_false (List.cons_ne_nil _ _) fun h =>
      hv.ne_nil (List.append_eq_nil_iff.mp h).1⟩
    obtain ⟨behind, hbehind⟩ := List.rdropWhile_prefix isBlank p
    rw [← hbehind, List.head?_append, ← Text.trimEnd_eq, hhead]
    rfl

theorem trim (h : Covers p t) : Covers (Text.trim p) (Text.trim t) := by
  induction h with
  | nil => exact .nil
  | @char c p t h ih =>
    cases hblank : isBlank c with
    | false =>
      rw [trim_escape_append hblank, Text.trim_cons_of_not_blank hblank]
      exact .char c h.trimEnd.1
    | true =>
      rw [escape_of_not_special (not_special_of_isBlank hblank), List.singleton_append,
        Text.trim_cons_blank hblank, Text.trim_cons_blank hblank]
      exact ih
  | @run v p t hv hp h ih =>
    have hends := (Covers.run hv hp h).trimEnd.1
    rw [Text.trimEnd_cons_of_not_blank (by decide)] at hends
    rw [Text.trim_cons_of_not_blank (by decide), hv.trim_append]
    exact hends

end Covers

end ControlFiles.Glob
