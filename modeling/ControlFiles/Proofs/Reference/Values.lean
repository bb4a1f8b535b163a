import ControlFiles.Proofs.Template
import ControlFiles.Proofs.Variables
import ControlFiles.Reference.Search

/-!
# The tokens of a template and their values

The tokens of a template are listed once each, whatever case they are written in
(`Template.distinct_tokens`, `Template.exists_same_of_mem`). A text is known under some variables if
each of its tokens has a value (`Variables.Knows`).

Tokens that are the same have the same axis and index (`Token.axis?_congr`). Two axis tokens are
kept under one name only if they are the same (`Token.nameKey_eq_iff`), so binding axis tokens to
names one by one gives each the name beside it (`Reference.get?_bind`).
-/

namespace ControlFiles

namespace Token

theorem same_iff {s t : Token} : s.same t = true ↔ Text.lower s.name = Text.lower t.name :=
  Text.alike_iff

theorem same_self (t : Token) : t.same t = true := same_iff.mpr rfl

theorem same_symm {s t : Token} (h : s.same t = true) : t.same s = true :=
  same_iff.mpr (same_iff.mp h).symm

theorem same_trans {s t u : Token} (h : s.same t = true) (h' : t.same u = true) :
    s.same u = true := same_iff.mpr ((same_iff.mp h).trans (same_iff.mp h'))

/-- Tokens are compared as they are written. -/
theorem alike_text {s t : Token} : Text.alike s.text t.text = s.same t := by
  rw [Bool.eq_iff_iff, Text.alike_iff, same_iff]
  simp [text, Text.lower]

/-- The name of an axis token stands between two tildes. -/
theorem trim_name_of_axis? {t : Token} (h : t.axis?.isSome = true) : Text.trim t.name = t.name := by
  unfold axis? at h
  split at h
  · rename_i c rest hname
    split at h
    · rename_i hcond
      have hlast : rest.getLast? = some '~' := by simp_all
      rw [hname, Text.trim_eq_self_iff, List.getLast?_cons_cons]
      have hlast' : (c :: rest).getLast? = some '~' := by
        rw [List.getLast?_cons, hlast]
        rfl
      rw [hlast']
      exact ⟨by simpa using (by decide), by simpa using (by decide)⟩
    · cases h
  · cases h

/-- The axis and the index do not depend on the case. -/
theorem axis?_congr {s t : Token} (h : s.same t = true) : s.axis? = t.axis? := by
  have hletter : ∀ c : Char, isAxisLetter c.toLower = isAxisLetter c :=
    Text.apply_toLower (by decide +kernel)
  have haxis : ∀ c : Char, axisOf c.toLower = axisOf c := Text.apply_toLower (by decide +kernel)
  have hlower : ∀ t : Token, axis? ⟨Text.lower t.name⟩ = t.axis? := by
    rintro ⟨name⟩
    match name with
    | [] => rfl
    | [a] => simp [axis?, Text.lower]
    | a :: c :: rest =>
      by_cases ha : a = '~'
      · subst ha
        have hlast : (Text.lower rest).getLast? = some '~' ↔ rest.getLast? = some '~' := by
          rw [Text.lower, List.getLast?_map, Option.map_eq_some_iff]
          constructor
          · rintro ⟨d, hd, hlower⟩
            rw [hd, (Text.toLower_eq_iff (by decide)).mp hlower]
          · exact fun hd => ⟨'~', hd, rfl⟩
        have hdrop : (Text.lower rest).dropLast = Text.lower rest.dropLast := List.map_dropLast.symm
        have hcons : Text.lower ('~' :: c :: rest) = '~' :: c.toLower :: Text.lower rest := rfl
        simp only [axis?, hcons, hletter, hlast, hdrop, Text.number?_lower, haxis]
      · have ha' : a.toLower ≠ '~' := fun h => ha ((Text.toLower_eq_iff (by decide)).mp h)
        simp [axis?, Text.lower, ha, ha']
  rw [← hlower s, ← hlower t, same_iff.mp h]

/-- An axis token has no bar in it. -/
theorem not_mem_bar_of_axis? {t : Token} (h : t.axis?.isSome = true) : '|' ∉ t.name := by
  unfold axis? at h
  split at h
  · rename_i c rest hname
    split at h
    · rename_i hcond
      rw [Bool.and_eq_true, decide_eq_true_iff] at hcond
      obtain ⟨digits, rfl⟩ := List.getLast?_eq_some_iff.mp hcond.2
      rw [List.dropLast_concat] at h
      rw [hname]
      intro hbar
      simp only [List.mem_cons, List.mem_append, List.not_mem_nil, or_false] at hbar
      obtain hbar | rfl | hbar | hbar := hbar
      · cases hbar
      · exact absurd hcond.1 (by decide)
      · have hnone : Text.number? digits = none := by
          rw [Text.number?, if_pos]
          simp only [Bool.or_eq_true, Bool.not_eq_true', List.all_eq_false]
          exact .inr ⟨'|', hbar, by decide⟩
        rw [hnone] at h
        cases h
      · cases hbar
    · cases h
  · cases h

/-- Axis tokens that are kept under one name are the same. -/
theorem nameKey_eq_iff {s t : Token} (hs : s.axis?.isSome = true) (ht : t.axis?.isSome = true) :
    Variables.nameKey s.name = Variables.nameKey t.name ↔ s.same t = true := by
  refine ⟨fun h => ?_, Variables.nameKey_congr⟩
  rw [Variables.nameKey, Variables.nameKey, trim_name_of_axis? hs, trim_name_of_axis? ht] at h
  rw [same_iff, ← Text.lower_upper s.name, h, Text.lower_upper]

end Token

namespace Template

/-- No two tokens of the list are the same. -/
abbrev Distinct (tokens : List Token) : Prop := tokens.Pairwise fun s t => s.same t = false

theorem distinct_addToken {tokens : List Token} (h : Distinct tokens) (t : Token) :
    Distinct (addToken tokens t) := by
  rw [addToken]
  split
  · exact h
  · rename_i hnew
    rw [Distinct, List.pairwise_append]
    refine ⟨h, List.pairwise_singleton _ _, fun s hs u hu => ?_⟩
    rw [List.mem_singleton.mp hu]
    simpa using fun hsame => hnew (List.any_eq_true.mpr ⟨s, hs, hsame⟩)

/-- The tokens of a template are listed once each. -/
theorem distinct_tokens (ps : Template) : Distinct ps.tokens := by
  have hfold : ∀ (new tokens : List Token), Distinct tokens →
      Distinct (new.foldl addToken tokens) := by
    intro new
    induction new with
    | nil => exact fun _ h => h
    | cons t new ih => exact fun tokens h => ih _ (distinct_addToken h t)
  exact hfold _ [] .nil

theorem mem_of_mem_tokens {ps : Template} {t : Token} (h : t ∈ ps.tokens) : .token t ∈ ps := by
  have hfold : ∀ new tokens : List Token, t ∈ new.foldl addToken tokens → t ∈ tokens ∨ t ∈ new := by
    intro new
    induction new with
    | nil => exact fun _ h => .inl h
    | cons s new ih =>
      intro tokens h
      obtain h | h := ih _ h
      · rw [addToken] at h
        split at h
        · exact .inl h
        · exact (List.mem_append.mp h).imp_right fun h => by
            rw [List.mem_singleton.mp h]
            exact List.mem_cons_self
      · exact .inr (List.mem_cons_of_mem s h)
  have hmem := (hfold _ [] h).resolve_left List.not_mem_nil
  obtain ⟨piece, hpiece, htoken⟩ := List.mem_filterMap.mp hmem
  cases piece with
  | plain c => cases htoken
  | token u => rwa [← Option.some.inj htoken]

/-- Every token of a template is listed, in some case. -/
theorem exists_same_of_mem {ps : Template} {t : Token} (h : .token t ∈ ps) :
    ∃ u ∈ ps.tokens, u.same t = true := by
  have hadd : ∀ (tokens : List Token) (s : Token), tokens ⊆ addToken tokens s ∧
      ∃ u ∈ addToken tokens s, u.same s = true := by
    intro tokens s
    rw [addToken]
    split
    · rename_i hany
      exact ⟨List.Subset.refl _, List.any_eq_true.mp hany⟩
    · exact ⟨List.subset_append_left _ _, s, by simp, s.same_self⟩
  have hfold : ∀ (new tokens : List Token), tokens ⊆ new.foldl addToken tokens ∧
      ∀ s ∈ new, ∃ u ∈ new.foldl addToken tokens, u.same s = true := by
    intro new
    induction new with
    | nil => exact fun tokens => ⟨List.Subset.refl _, by simp⟩
    | cons s new ih =>
      intro tokens
      obtain ⟨hsub, hnew⟩ := ih (addToken tokens s)
      obtain ⟨hsub', u, hu, hsame⟩ := hadd tokens s
      refine ⟨List.Subset.trans hsub' hsub, fun s' hs' => ?_⟩
      obtain rfl | hs' := List.mem_cons.mp hs'
      · exact ⟨u, hsub hu, hsame⟩
      · exact hnew s' hs'
  exact (hfold _ []).2 t (List.mem_filterMap.mpr ⟨_, h, rfl⟩)

end Template

namespace Variables

/-- Every token of the text has a value. -/
def Knows (vars : Variables) (t : Text) : Prop :=
  ∀ token ∈ Text.tokens t, vars.has token.name = true

instance (vars : Variables) (t : Text) : Decidable (vars.Knows t) :=
  inferInstanceAs (Decidable (∀ token ∈ Text.tokens t, vars.has token.name = true))

theorem Knows.exists_get? {vars : Variables} {t : Text} (h : vars.Knows t) {token : Token}
    (htoken : .token token ∈ Template.ofText t) : ∃ v, vars.get? token.name = some v := by
  obtain ⟨u, hu, hsame⟩ := Template.exists_same_of_mem htoken
  rw [← vars.get?_congr hsame]
  exact Option.isSome_iff_exists.mp (h u hu)

end Variables

namespace Reference

/-- Of elements of which at most one is looked for, the last is the first. -/
theorem getLast?_filter_of_pairwise {α : Type} {l : List α} {p : α → Bool}
    (h : l.Pairwise fun a b => ¬ (p a = true ∧ p b = true)) :
    (l.filter p).getLast? = l.find? p := by
  rw [← List.head?_filter]
  have hall : ∀ a ∈ l.filter p, p a = true := fun a ha => (List.mem_filter.mp ha).2
  have hfilter := h.filter p
  cases hl : l.filter p with
  | nil => rfl
  | cons a rest =>
    cases rest with
    | nil => rfl
    | cons b rest =>
      rw [hl] at hall hfilter
      exact absurd ⟨hall a (by simp), hall b (by simp)⟩
        (List.rel_of_pairwise_cons hfilter (by simp))

/-- An axis token that is bound has the name beside it for its value. -/
theorem get?_bind {tokens : List Token} {names : List Text} (hdistinct : Template.Distinct tokens)
    (haxis : ∀ t ∈ tokens, t.axis?.isSome = true) (hlength : tokens.length = names.length)
    {t : Token} (ht : t ∈ tokens) :
    (bind .empty tokens names).get? t.name =
      ((tokens.zip names).find? fun p => p.1.same t).map (·.2) := by
  have hpairs : (tokens.map Token.name).zip names =
      (tokens.zip names).map fun p => (p.1.name, p.2) := by
    rw [List.zip_map_left]
    rfl
  have hfilter : Variables.pairsFor ((tokens.map Token.name).zip names) t.name =
      ((tokens.zip names).filter fun p => p.1.same t).map fun p => (p.1.name, p.2) := by
    rw [Variables.pairsFor, hpairs, List.filter_map]
    refine congrArg _ (List.filter_congr fun p hp => ?_)
    rw [Bool.eq_iff_iff, Function.comp_apply, decide_eq_true_iff]
    exact Token.nameKey_eq_iff (haxis p.1 (List.of_mem_zip hp).1) (haxis t ht)
  have hfst : (tokens.zip names).map Prod.fst = tokens := List.map_fst_zip hlength.le
  have hapart : (tokens.zip names).Pairwise fun p q =>
      ¬ (p.1.same t = true ∧ q.1.same t = true) := by
    have hpairwise := hfst.symm ▸ hdistinct
    rw [Template.Distinct, List.pairwise_map] at hpairwise
    refine hpairwise.imp fun hnot hboth => ?_
    rw [Token.same_trans hboth.1 (Token.same_symm hboth.2)] at hnot
    cases hnot
  rw [bind, Variables.get?_setAll, Variables.lastValue?, hfilter, List.getLast?_map,
    getLast?_filter_of_pairwise hapart, Option.map_map]
  exact Option.or_none

end Reference

end ControlFiles
