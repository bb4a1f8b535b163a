import ControlFiles.Proofs.Except
import ControlFiles.Proofs.Glob.Exact
import ControlFiles.Proofs.Variables

/-!
# Patterns with open places

The pattern of a reference is written for a text with open places (`Glob.Form`): what is known of
the text is escaped, and each open place is a star. It should match what comes of filling each open
place within one part of a path (`Glob.Confined`).

Two open places in a row are no wildcard of their own. They are read as `**`, which is malformed
next to anything but slashes (`Glob.Form.parse_ok_iff`) and else reaches over whole directories. So
a pattern is confined exactly if no open place stands right behind another
(`Glob.Form.confined_iff`).
-/

namespace ControlFiles

namespace Glob

/-- A text with open places. -/
abbrev Form := List (Option Char)

/-- The part of a path holds no stars in a row, or is two stars and nothing else. -/
def Sound (part : Text) : Prop := part = "**" ∨ ¬ ("**" : Text) <:+: part

instance (part : Text) : Decidable (Sound part) := inferInstanceAs (Decidable (_ ∨ _))

namespace Form

/-- A character of the form matches itself, and an open place is a star. -/
def patternPlace : Option Char → Text
  | some c => escape [c]
  | none => "*"

/-- The form as a pattern. -/
def pattern (f : Form) : Text := f.flatMap patternPlace

/-- The text is the form, in whatever case, with each open place filled within one part of a
path. -/
inductive Fills : Form → Text → Prop where
  | nil : Fills [] []
  | char {c d : Char} {f : Form} {t : Text} (hcd : c.toLower = d.toLower) (h : Fills f t) :
      Fills (some d :: f) (c :: t)
  | gap {v : Text} {f : Form} {t : Text} (hv : '/' ∉ v) (h : Fills f t) :
      Fills (none :: f) (v ++ t)

/-- No open place stands right behind another. -/
def Apart (f : Form) : Prop := ¬ [none, none] <:+: f

instance (f : Form) : Decidable f.Apart := inferInstanceAs (Decidable ¬ _)

theorem pattern_some_cons (c : Char) (f : Form) : pattern (some c :: f) = escape [c] ++ f.pattern :=
  rfl

theorem pattern_none_cons (f : Form) : pattern (none :: f) = '*' :: f.pattern := rfl

theorem pattern_map_some (t : Text) : pattern (t.map some) = escape t := by
  induction t with
  | nil => rfl
  | cons c t ih => rw [List.map_cons, pattern_some_cons, ih, ← escape_cons]

theorem head?_pattern (f : Form) : f.pattern.head? = some '*' ↔ f.head? = some none := by
  cases f with
  | nil => exact iff_of_false nofun nofun
  | cons place f =>
    cases place with
    | none => exact iff_of_true rfl rfl
    | some c => exact iff_of_false (head?_escape_append c _) nofun

/-! ## Stars in a row -/

theorem stars_prefix_iff {p : Text} : ("**" : Text) <+: '*' :: p ↔ p.head? = some '*' := by
  cases p with
  | nil => exact iff_of_false (by decide) nofun
  | cons c p => simp [eq_comm]

theorem stars_infix_escape_append (c : Char) (p : Text) :
    ("**" : Text) <:+: escape [c] ++ p ↔ ("**" : Text) <:+: p := by
  have hskip : ∀ (d : Char) (p : Text), d ≠ '*' →
      (("**" : Text) <:+: d :: p ↔ ("**" : Text) <:+: p) := by
    intro d p hd
    rw [List.infix_cons_iff, or_iff_right]
    rintro ⟨rest, hrest⟩
    exact hd (List.cons.inj hrest).1.symm
  by_cases hc : IsSpecial c
  · have hstar : ¬ ("**" : Text) <+: c :: ']' :: p := by
      rintro ⟨rest, hrest⟩
      exact absurd (List.cons.inj (List.cons.inj hrest).2).1 (by decide)
    rw [escape_of_special hc]
    show _ <:+: '[' :: c :: ']' :: p ↔ _
    rw [hskip _ _ (by decide), List.infix_cons_iff, or_iff_right hstar, hskip _ _ (by decide)]
  · rw [escape_of_not_special hc]
    exact hskip c p fun h => hc (.inr (.inl h))

/-- Stars stand in a row in the pattern exactly if open places do in the form. -/
theorem stars_infix_pattern_iff (f : Form) : ("**" : Text) <:+: f.pattern ↔ ¬ f.Apart := by
  rw [Apart, not_not]
  induction f with
  | nil => exact iff_of_false (by decide) (by decide)
  | cons place f ih =>
    cases place with
    | some c =>
      rw [pattern_some_cons, stars_infix_escape_append, ih, List.infix_cons_iff, or_iff_right]
      rintro ⟨rest, hrest⟩
      cases hrest
    | none =>
      rw [pattern_none_cons, List.infix_cons_iff, List.infix_cons_iff, ih, stars_prefix_iff,
        head?_pattern]
      refine or_congr_left ?_
      cases f with
      | nil => exact iff_of_false nofun (by decide)
      | cons next f => simp [eq_comm]

/-! ## Reading -/

/-- What a form is read as, if it is well formed as a pattern. `fresh` says that a part of a path
starts here. -/
def read : (fresh : Bool) → Form → Option Pattern
  | _, [] => some []
  | _, some c :: f => (read (c == '/') f).map (exactToken c :: ·)
  -- two open places are all of a part, or cannot be read
  | true, [none, none] => some [.deep]
  | true, none :: none :: some '/' :: f => (read true f).map (.deep :: ·)
  | _, none :: none :: _ => none
  | _, none :: f => (read false f).map (.run :: ·)

theorem exists_pattern_eq_cons {f : Form} (hend : f ≠ []) (hslash : ∀ g, f ≠ some '/' :: g) :
    ∃ c p, pattern f = c :: p ∧ c ≠ '/' := by
  obtain ⟨place, f, rfl⟩ := List.exists_cons_of_ne_nil hend
  cases place with
  | none => exact ⟨'*', pattern f, rfl, by decide⟩
  | some c =>
    rw [pattern_some_cons]
    by_cases hc : IsSpecial c
    · rw [escape_of_special hc]
      exact ⟨'[', c :: ']' :: pattern f, rfl, by decide⟩
    · rw [escape_of_not_special hc]
      refine ⟨c, pattern f, rfl, ?_⟩
      rintro rfl
      exact hslash f rfl

/-- Two stars with something else than a slash behind them, or of which the first does not start a
part of a path, cannot be read. -/
theorem toOption_parseFrom_stars {f : Form} {fresh : Bool} (hend : fresh = true → f = [] → False)
    (hslash : ∀ g, fresh = true → f = some '/' :: g → False) (position : Nat) :
    (parseFrom 0 position fresh ('*' :: '*' :: pattern f)).toOption = none := by
  have hstars : ('*' :: pattern f).takeWhile (· = '*') = '*' :: (pattern f).takeWhile (· = '*') :=
    List.takeWhile_cons_of_pos (by simp)
  simp only [parseFrom, hstars, List.length_cons]
  cases hmore : ((pattern f).takeWhile (· = '*')).length with
  | succ n => rfl
  | zero =>
    cases fresh with
    | false => rfl
    | true =>
      obtain ⟨c, p, hp, hc⟩ := exists_pattern_eq_cons (hend rfl) fun g => hslash g rfl
      simp [hp, hc]
      rfl

/-- The pattern of a form is read as the form says. -/
theorem toOption_parseFrom (f : Form) (position : Nat) (fresh : Bool) :
    (parseFrom 0 position fresh (pattern f)).toOption = read fresh f := by
  fun_induction read fresh f generalizing position with
  | case1 => rfl
  | case2 fresh c f ih => rw [pattern_some_cons, parseFrom_escape_append, Except.toOption_map, ih]
  | case3 => rfl
  | case4 f ih =>
    have hstep : parseFrom 0 position true (pattern (none :: none :: some '/' :: f)) =
        (parseFrom 0 (position + 3) true (pattern f)).map (.deep :: ·) := by
      show (parseFrom 0 (position + 3) true (pattern f) >>=
        fun tokens => pure (.deep :: tokens)) = _
      cases parseFrom 0 (position + 3) true (pattern f) <;> rfl
    rw [hstep, Except.toOption_map, ih]
  | case5 fresh f hend hslash => exact toOption_parseFrom_stars hend hslash position
  | case6 fresh f hnone _ _ ih =>
    have hhead : (pattern f).head? ≠ some '*' := fun hhead => by
      rw [head?_pattern, List.head?_eq_some_iff] at hhead
      obtain ⟨g, hg⟩ := hhead
      exact hnone g hg
    rw [pattern_none_cons, parseFrom_run hhead, Except.toOption_map, ih]

theorem parse_eq_ok_iff {f : Form} {tokens : Pattern} :
    parse (pattern f) = .ok tokens ↔ read true f = some tokens := by
  rw [← toOption_parseFrom f 0 true, Except.toOption_eq_some, parse]

/-! ## What is well formed -/

/-- A form can be read exactly if its parts are sound; the first may not be two stars unless a part
starts here. -/
theorem isSome_read_iff (f : Form) (fresh : Bool) {part : Text} {parts : List Text}
    (hsplit : Text.split '/' (pattern f) = part :: parts) :
    (read fresh f).isSome = true ↔
      (fresh = true ∧ part = "**" ∨ ¬ ("**" : Text) <:+: part) ∧ ∀ q ∈ parts, Sound q := by
  fun_induction read fresh f generalizing part parts with
  | case1 =>
    obtain ⟨rfl, rfl⟩ := List.cons.inj hsplit
    exact iff_of_true rfl ⟨.inr (by decide), List.forall_mem_nil _⟩
  | case2 fresh c f ih =>
    rw [Option.isSome_map]
    by_cases hslash : c = '/'
    · subst hslash
      obtain ⟨first, rest, hrest⟩ := List.exists_cons_of_ne_nil (Text.split_ne_nil '/' (pattern f))
      have hcons : [] :: Text.split '/' (pattern f) = part :: parts := hsplit
      rw [hrest] at hcons
      obtain ⟨rfl, rfl⟩ := List.cons.inj hcons
      rw [ih hrest, List.forall_mem_cons]
      simp [Sound]
    · obtain ⟨first, rest, hrest, happend⟩ :=
        Text.split_append (not_mem_escape hslash (by simp [IsSpecial])) (pattern f)
      obtain ⟨rfl, rfl⟩ := List.cons.inj (happend.symm.trans hsplit)
      have hne : (c == '/') = false := by simpa using hslash
      have hstars : escape [c] ++ first ≠ "**" := fun heq =>
        head?_escape_append c first (congrArg List.head? heq)
      rw [ih hrest, hne, stars_infix_escape_append]
      exact and_congr_left fun _ => or_congr_left (iff_of_false (by simp) fun h => hstars h.2)
  | case3 =>
    obtain ⟨rfl, rfl⟩ := List.cons.inj hsplit
    exact iff_of_true rfl ⟨.inl ⟨rfl, rfl⟩, List.forall_mem_nil _⟩
  | case4 f ih =>
    -- two stars and a slash
    obtain ⟨first, rest, hrest⟩ := List.exists_cons_of_ne_nil (Text.split_ne_nil '/' (pattern f))
    have hcons : ("**" : Text) :: Text.split '/' (pattern f) = part :: parts := hsplit
    rw [hrest] at hcons
    obtain ⟨rfl, rfl⟩ := List.cons.inj hcons
    rw [Option.isSome_map, ih hrest, List.forall_mem_cons]
    simp [Sound]
  | case5 fresh f hend hslash =>
    -- two stars with something else in their part
    obtain ⟨first, rest, hrest, happend⟩ :=
      Text.split_append (show '/' ∉ ("**" : Text) by decide) (pattern f)
    obtain ⟨rfl, rfl⟩ := List.cons.inj (happend.symm.trans hsplit)
    refine iff_of_false Bool.false_ne_true ?_
    rintro ⟨⟨rfl, hstars⟩ | hstars, -⟩
    · obtain ⟨c, p, hp, hc⟩ := exists_pattern_eq_cons (hend rfl) fun g => hslash g rfl
      have hhead := Text.head?_of_split hrest
      obtain rfl : first = [] := List.append_cancel_left (hstars.trans (List.append_nil _).symm)
      rw [hp, List.head?_cons, Option.filter_some_pos (by simpa using hc)] at hhead
      cases hhead
    · exact hstars (List.prefix_append _ first).isInfix
  | case6 fresh f hnone _ _ ih =>
    -- one star alone
    obtain ⟨first, rest, hrest, hcons⟩ :=
      Text.split_cons_of_ne (show '*' ≠ '/' by decide) (pattern f)
    obtain ⟨rfl, rfl⟩ := List.cons.inj (hcons.symm.trans hsplit)
    have hhead : first.head? ≠ some '*' := fun hhead => by
      rw [Text.head?_of_split hrest, Option.filter_eq_some_iff, head?_pattern,
        List.head?_eq_some_iff] at hhead
      obtain ⟨⟨g, hg⟩, -⟩ := hhead
      exact hnone g hg
    have hstars : '*' :: first ≠ "**" := fun heq =>
      hhead (by rw [(List.cons.inj heq).2]; rfl)
    rw [Option.isSome_map, ih hrest, List.infix_cons_iff, stars_prefix_iff, or_iff_right hhead]
    exact and_congr_left fun _ => or_congr_left (iff_of_false (by simp) fun h => hstars h.2)

/-- A pattern with open places is well formed exactly if its parts are sound. -/
theorem parse_ok_iff (f : Form) :
    (∃ tokens, parse (pattern f) = .ok tokens) ↔
      ∀ part ∈ Text.split '/' (pattern f), Sound part := by
  obtain ⟨part, parts, hsplit⟩ := List.exists_cons_of_ne_nil (Text.split_ne_nil '/' (pattern f))
  simp only [parse_eq_ok_iff, ← Option.isSome_iff_exists]
  rw [isSome_read_iff f true hsplit, hsplit, List.forall_mem_cons]
  simp [Sound]

/-! ## What is matched -/

theorem Apart.of_cons {place : Option Char} {f : Form} (h : Apart (place :: f)) : Apart f :=
  fun hf => h (hf.trans (List.infix_cons List.infix_rfl))

theorem apart_some_cons {c : Char} {f : Form} : Apart (some c :: f) ↔ Apart f := by
  refine ⟨Apart.of_cons, fun h hcons => ?_⟩
  obtain ⟨rest, hrest⟩ | hinfix := List.infix_cons_iff.mp hcons
  · cases hrest
  · exact h hinfix

theorem apart_none_cons {f : Form} (hnone : ∀ g, f ≠ none :: g) : Apart (none :: f) ↔ Apart f := by
  refine ⟨Apart.of_cons, fun h hcons => ?_⟩
  obtain ⟨rest, hrest⟩ | hinfix := List.infix_cons_iff.mp hcons
  · exact hnone rest (List.cons.inj hrest).2.symm
  · exact h hinfix

theorem not_apart (f : Form) : ¬ Apart (none :: none :: f) :=
  fun h => h (List.prefix_append [none, none] f).isInfix

/-- The token of a place that stands apart from other open ones. -/
def placeToken : Option Char → Token
  | some c => exactToken c
  | none => .run

/-- If no open place stands right behind another, each is read as a run of characters. -/
theorem read_of_apart {f : Form} (h : Apart f) (fresh : Bool) :
    read fresh f = some (f.map placeToken) := by
  fun_induction read fresh f with
  | case1 => rfl
  | case2 fresh c f ih =>
    rw [ih h.of_cons]
    rfl
  | case3 => exact absurd h (not_apart [])
  | case4 f ih => exact absurd h (not_apart _)
  | case5 fresh f => exact absurd h (not_apart f)
  | case6 fresh f _ _ _ ih =>
    rw [ih h.of_cons]
    rfl

theorem afterRun_iff {rest : Text → Bool} {s : Text} :
    afterRun true rest s = true ↔ ∃ v t, '/' ∉ v ∧ rest t = true ∧ v ++ t = s := by
  constructor
  · intro h
    induction s with
    | nil => exact ⟨[], [], nofun, h, rfl⟩
    | cons c s ih =>
      rw [afterRun, Bool.or_eq_true, Bool.and_eq_true] at h
      obtain h | ⟨hc, h⟩ := h
      · exact ⟨[], c :: s, nofun, h, rfl⟩
      · obtain ⟨v, t, hv, ht, rfl⟩ := ih h
        have hc : c ≠ '/' := by simpa using hc
        exact ⟨c :: v, t, List.not_mem_cons_of_ne_of_not_mem hc.symm hv, ht, rfl⟩
  · rintro ⟨v, t, hv, ht, rfl⟩
    exact afterRun_append hv ht true

/-- Tokens for the places match what the form is filled to. -/
theorem matchesWith_iff_fills (f : Form) (s : Text) :
    matchesWith Store.searchOptions (f.map placeToken) s = true ↔ Fills f s := by
  induction f generalizing s with
  | nil =>
    cases s with
    | nil => exact iff_of_true rfl .nil
    | cons c s => exact iff_of_false nofun nofun
  | cons place f ih =>
    cases place with
    | some d =>
      rw [List.map_cons, placeToken]
      cases s with
      | nil =>
        rw [matchesWith_exactToken_nil]
        exact iff_of_false nofun nofun
      | cons c s =>
        rw [matchesWith_exactToken_cons, Bool.and_eq_true, ih, beq_iff_eq]
        constructor
        · rintro ⟨hcd, h⟩
          exact .char hcd h
        · rintro (_ | ⟨hcd, h⟩)
          exact ⟨hcd, h⟩
    | none =>
      show afterRun true (matchesWith Store.searchOptions (f.map placeToken)) s = true ↔ _
      rw [afterRun_iff]
      constructor
      · rintro ⟨v, t, hv, ht, rfl⟩
        exact .gap hv ((ih t).mp ht)
      · rintro (_ | _ | ⟨hv, h⟩)
        exact ⟨_, _, hv, (ih _).mpr h, rfl⟩

/-- Filling open places makes no further directories. -/
theorem Fills.count_slash {f : Form} {s : Text} (h : Fills f s) :
    s.count '/' = f.count (some '/') := by
  induction h with
  | nil => rfl
  | @char c d f t hcd h ih =>
    have hslash : c = '/' ↔ d = '/' := by
      rw [← Text.toLower_eq_iff (by decide), hcd, Text.toLower_eq_iff (by decide)]
    rw [List.count_cons, List.count_cons, ih]
    simp only [beq_iff_eq, Option.some.injEq, hslash]
  | gap hv h ih =>
    rw [List.count_append, List.count_eq_zero_of_not_mem hv, ih, Nat.zero_add]
    rfl

theorem afterSlash_replicate {rest : Text → Bool} {s : Text} (h : rest s = true) (n : Nat) :
    (rest (List.replicate n '/' ++ s) || afterSlash rest (List.replicate n '/' ++ s)) = true := by
  induction n with
  | zero => simp [h]
  | succ n ih =>
    rw [List.replicate_succ, List.cons_append, afterSlash, beq_self_eq_true, Bool.true_and, ih,
      Bool.or_true]

/-- What is read matches something, and with open places in a row it matches texts with as many
slashes as one likes. -/
theorem exists_matchesWith {f : Form} {fresh : Bool} {tokens : Pattern}
    (h : read fresh f = some tokens) (n : Nat) :
    ∃ s, matchesWith Store.searchOptions tokens s = true ∧ (Apart f ∨ n ≤ s.count '/') := by
  fun_induction read fresh f generalizing tokens with
  | case1 =>
    obtain rfl := Option.some.inj h
    exact ⟨[], rfl, .inl (by decide)⟩
  | case2 fresh c f ih =>
    obtain ⟨rest, hrest, rfl⟩ := Option.map_eq_some_iff.mp h
    obtain ⟨s, hmatches, hs⟩ := ih hrest
    refine ⟨c :: s, ?_, hs.imp apart_some_cons.mpr fun hn => hn.trans ?_⟩
    · rw [matchesWith_exactToken_cons, beq_self_eq_true, Bool.true_and, hmatches]
    · exact List.count_le_count_cons
  | case3 =>
    obtain rfl := Option.some.inj h
    have hend : matchesWith Store.searchOptions [] [] = true := rfl
    exact ⟨_, afterSlash_replicate hend n, .inr (by simp)⟩
  | case4 f ih =>
    obtain ⟨rest, hrest, rfl⟩ := Option.map_eq_some_iff.mp h
    obtain ⟨s, hmatches, -⟩ := ih hrest
    exact ⟨_, afterSlash_replicate hmatches n, .inr (by simp)⟩
  | case5 => cases h
  | case6 fresh f hnone _ _ ih =>
    obtain ⟨rest, hrest, rfl⟩ := Option.map_eq_some_iff.mp h
    obtain ⟨s, hmatches, hs⟩ := ih hrest
    refine ⟨s, ?_, hs.imp_left (apart_none_cons hnone).mpr⟩
    exact afterRun_append (v := []) nofun hmatches true

end Form

/-- The pattern is that of a form, and it matches what comes of filling each open place within one
part of a path. -/
def Confined (p : Text) : Prop :=
  ∃ f : Form, f.pattern = p ∧ ∃ tokens, parse p = .ok tokens ∧
    ∀ s, fits Store.searchOptions tokens s = true ↔ f.Fills s

/-- Matching is confined to single parts of paths exactly if no stars stand in a row. -/
theorem Form.confined_iff (f : Form) : Confined f.pattern ↔ ¬ ("**" : Text) <:+: f.pattern := by
  constructor
  · rintro ⟨g, hg, tokens, hparse, hfits⟩
    rw [← hg] at hparse ⊢
    rw [stars_infix_pattern_iff, not_not]
    -- a text with more slashes than the form cannot come of filling it
    obtain ⟨s, hmatches, hs⟩ :=
      exists_matchesWith (parse_eq_ok_iff.mp hparse) (g.count (some '/') + 1)
    rw [← fits_eq, hfits] at hmatches
    rw [hmatches.count_slash] at hs
    exact hs.resolve_right (by omega)
  · intro hstars
    rw [stars_infix_pattern_iff, not_not] at hstars
    refine ⟨f, rfl, _, parse_eq_ok_iff.mpr (read_of_apart hstars true), fun s => ?_⟩
    rw [fits_eq, matchesWith_iff_fills]

/-! ## What is done to references -/

/-- The text is the pattern of a form. -/
inductive IsForm : Text → Prop where
  | nil : IsForm []
  | char (c : Char) {p : Text} (h : IsForm p) : IsForm (escape [c] ++ p)
  | gap {p : Text} (h : IsForm p) : IsForm ('*' :: p)

theorem isForm_pattern (f : Form) : IsForm f.pattern := by
  induction f with
  | nil => exact .nil
  | cons place f ih =>
    cases place with
    | some c => exact .char c ih
    | none => exact .gap ih

namespace IsForm

variable {p q : Text}

theorem exists_form (h : IsForm p) : ∃ f : Form, f.pattern = p := by
  induction h with
  | nil => exact ⟨[], rfl⟩
  | char c h ih =>
    obtain ⟨f, rfl⟩ := ih
    exact ⟨some c :: f, rfl⟩
  | gap h ih =>
    obtain ⟨f, rfl⟩ := ih
    exact ⟨none :: f, rfl⟩

theorem append (hp : IsForm p) (hq : IsForm q) : IsForm (p ++ q) := by
  induction hp with
  | nil => exact hq
  | char c h ih =>
    rw [List.append_assoc]
    exact .char c ih
  | gap h ih => exact .gap ih

theorem escape (t : Text) : IsForm (escape t) := Form.pattern_map_some t ▸ isForm_pattern _

theorem split (h : IsForm p) : ∀ part ∈ Text.split '/' p, IsForm part := by
  induction h with
  | nil => exact List.forall_mem_singleton.mpr .nil
  | @char c p h ih =>
    by_cases hslash : c = '/'
    · subst hslash
      exact List.forall_mem_cons.mpr ⟨.nil, ih⟩
    · obtain ⟨part, parts, hsplit, happend⟩ :=
        Text.split_append (not_mem_escape hslash (by simp [IsSpecial])) p
      rw [hsplit, List.forall_mem_cons] at ih
      rw [happend, List.forall_mem_cons]
      exact ⟨.char c ih.1, ih.2⟩
  | @gap p h ih =>
    obtain ⟨part, parts, hsplit, hcons⟩ := Text.split_cons_of_ne (show '*' ≠ '/' by decide) p
    rw [hsplit, List.forall_mem_cons] at ih
    rw [hcons, List.forall_mem_cons]
    exact ⟨.gap ih.1, ih.2⟩

theorem join {parts : List Text} (h : ∀ part ∈ parts, IsForm part) :
    IsForm (Text.join "/" parts) := by
  induction parts with
  | nil => exact .nil
  | cons part parts ih =>
    obtain ⟨hpart, hparts⟩ := List.forall_mem_cons.mp h
    cases parts with
    | nil =>
      rw [Text.join_singleton]
      exact hpart
    | cons next parts =>
      rw [Text.join, List.intercalate_cons_cons]
      exact (hpart.append (escape "/")).append (ih hparts)

theorem slashed (h : IsForm p) : IsForm (Text.slashed p) := by
  induction h with
  | nil => exact .nil
  | @char c p h ih =>
    have happend : Text.slashed (Glob.escape [c] ++ p) =
        Text.slashed (Glob.escape [c]) ++ Text.slashed p := List.map_append
    rw [happend, slashed_escape_singleton]
    exact (escape _).append ih
  | gap h ih => exact .gap ih

theorem trimEnd (h : IsForm p) : IsForm (Text.trimEnd p) := by
  induction h with
  | nil => exact .nil
  | @char c p h ih =>
    cases hblank : isBlank c with
    | false =>
      rw [trimEnd_escape_append hblank]
      exact .char c ih
    | true =>
      have hself := escape_of_not_special (not_special_of_isBlank hblank)
      rw [hself, List.singleton_append, Text.trimEnd_cons]
      split
      · exact .nil
      · rw [← List.singleton_append, ← hself]
        exact .char c ih
  | gap h ih =>
    rw [Text.trimEnd_cons_of_not_blank (by decide)]
    exact .gap ih

theorem trim (h : IsForm p) : IsForm (Text.trim p) := by
  induction h with
  | nil => exact .nil
  | @char c p h ih =>
    cases hblank : isBlank c with
    | false =>
      rw [trim_escape_append hblank]
      exact .char c h.trimEnd
    | true =>
      rw [escape_of_not_special (not_special_of_isBlank hblank), List.singleton_append,
        Text.trim_cons_blank hblank]
      exact ih
  | gap h ih =>
    rw [Text.trim_cons_of_not_blank (by decide)]
    exact .gap h.trimEnd

end IsForm

end Glob

end ControlFiles
