import ControlFiles.Proofs.Arrangement
import ControlFiles.Proofs.Reference.Known
import ControlFiles.Reference.Assignment
import Mathlib.Data.List.Nodup
import Mathlib.Data.List.Pairwise

/-!
# The ways to bind the tokens of a reference

With enough names on an axis, each token of it takes the name at its index. With fewer, the names
go to distinct tokens in every possible way (`Reference.Takes`). The ways to bind the axis tokens of
a reference are exactly these, on both axes (`Reference.mem_variants`); `patterns_spec` says so of
the patterns.

No two axis tokens of a reference are kept under one name (`Reference.nodup_keys`), so it does not
matter in which order they are given their names (`Variables.get?_give_of_perm`). That is why the
order of names which are fewer than the tokens does not count (`Reference.Takes.reorder`).
-/

namespace ControlFiles

namespace Variables

/-- The variables with the names of an assignment for the values of its tokens. -/
def give (vars : Variables) (a : Assignment) : Variables :=
  vars.setAll (a.map fun p => (p.1.name, p.2))

theorem give_append (vars : Variables) (a b : Assignment) :
    vars.give (a ++ b) = (vars.give a).give b := by
  rw [give, List.map_append, setAll_append]
  rfl

/-- The second variables are the first with the names of an assignment for the values of its
tokens. -/
structure Extends (vars : Variables) (a : Assignment) (v : Variables) : Prop where
  given : ∀ p ∈ a, v.get? p.1.name = some p.2
  others : ∀ name, (∀ p ∈ a, nameKey p.1.name ≠ nameKey name) → v.get? name = vars.get? name

/-- If no two tokens are kept under one name, each has the name that it is given. -/
theorem extends_give (vars : Variables) {a : Assignment}
    (h : (a.map fun p => nameKey p.1.name).Nodup) : Extends vars a (vars.give a) := by
  induction a generalizing vars with
  | nil => exact ⟨nofun, fun _ _ => rfl⟩
  | cons q a ih =>
    have hcons : vars.give (q :: a) = (vars.set q.1.name q.2).give a := rfl
    obtain ⟨hq, ha⟩ := List.nodup_cons.mp h
    have hrest := ih (vars.set q.1.name q.2) ha
    rw [hcons]
    refine ⟨fun p hp => ?_, fun name hname => ?_⟩
    · obtain rfl | hp := List.mem_cons.mp hp
      · rw [hrest.others _ fun r hr hkey => hq (List.mem_map.mpr ⟨r, hr, hkey⟩), get?_set,
          if_pos rfl]
      · exact hrest.given p hp
    · obtain ⟨hfirst, hlater⟩ := List.forall_mem_cons.mp hname
      rw [hrest.others name hlater, get?_set, if_neg hfirst]

/-- What extends variables by the same names, in whatever order, has the same values. -/
theorem Extends.get?_eq {vars v w : Variables} {a b : Assignment} (hv : Extends vars a v)
    (hw : Extends vars b w) (h : a.Perm b) (name : Text) : v.get? name = w.get? name := by
  by_cases hname : ∃ p ∈ a, nameKey p.1.name = nameKey name
  · obtain ⟨p, hp, hkey⟩ := hname
    have hget : ∀ u : Variables, u.get? name = u.get? p.1.name := fun u => by simp only [get?, hkey]
    rw [hget, hget, hv.given p hp, hw.given p (h.mem_iff.mp hp)]
  · have hnone : ∀ p ∈ a, nameKey p.1.name ≠ nameKey name := fun p hp hkey => hname ⟨p, hp, hkey⟩
    rw [hv.others name hnone, hw.others name fun p hp => hnone p (h.mem_iff.mpr hp)]

/-- The pattern of a text depends on the values only. -/
theorem pattern_congr {v w : Variables} (h : ∀ name, v.get? name = w.get? name) (t : Text) :
    v.pattern t = w.pattern t := by
  rw [pattern, pattern]
  refine List.flatMap_congr fun piece _ => ?_
  cases piece with
  | plain c => rfl
  | token token => rw [patternPiece, patternPiece, h]

end Variables

namespace Reference

/-! ## The tokens of an axis -/

theorem map_fst_axisTokens (axis : Axis) (tokens : List Token) :
    (axisTokens axis tokens).map Prod.fst =
      tokens.filter fun t => t.axis?.map Prod.fst = some axis := by
  induction tokens with
  | nil => rfl
  | cons t tokens ih =>
    rw [axisTokens, List.filterMap_cons, List.filter_cons, ← ih, axisTokens]
    cases haxis : t.axis? with
    | none => rfl
    | some p =>
      obtain ⟨a, index⟩ := p
      by_cases ha : a = axis <;> simp [ha]

/-- No two axis tokens are kept under one name. -/
theorem nodup_keys {tokens : List Token} (h : Template.Distinct tokens) :
    (((axisTokens .scenario tokens).map Prod.fst ++ (axisTokens .event tokens).map Prod.fst).map
      fun t => Variables.nameKey t.name).Nodup := by
  have hmem : ∀ {axis t}, t ∈ (axisTokens axis tokens).map Prod.fst →
      t ∈ tokens ∧ t.axis?.map Prod.fst = some axis := fun {axis t} ht => by
    rw [map_fst_axisTokens] at ht
    simpa using List.mem_filter.mp ht
  have hone : ∀ axis, Template.Distinct ((axisTokens axis tokens).map Prod.fst) := fun axis => by
    rw [map_fst_axisTokens]
    exact h.filter _
  have hdistinct : Template.Distinct
      ((axisTokens .scenario tokens).map Prod.fst ++ (axisTokens .event tokens).map Prod.fst) := by
    refine List.pairwise_append.mpr ⟨hone _, hone _, fun t ht u hu => ?_⟩
    have : Std.Symm fun s t : Token => s.same t = false :=
      ⟨fun s t h => Bool.eq_false_iff.mpr fun hts => by simp [Token.same_symm hts] at h⟩
    refine h.forall (hmem ht).1 (hmem hu).1 fun htu => ?_
    have haxes := (hmem ht).2.symm.trans (htu ▸ (hmem hu).2)
    cases haxes
  rw [List.Nodup, List.pairwise_map]
  refine hdistinct.imp_of_mem fun {t u} ht hu hne hkey => ?_
  have hsome : ∀ t ∈ (axisTokens .scenario tokens).map Prod.fst ++
      (axisTokens .event tokens).map Prod.fst, t.axis?.isSome = true := fun t ht => by
    obtain ht | ht := List.mem_append.mp ht <;>
    · obtain ⟨p, hp, -⟩ := Option.map_eq_some_iff.mp (hmem ht).2
      rw [hp]
      rfl
  rw [(Token.nameKey_eq_iff (hsome t ht) (hsome u hu)).mp hkey] at hne
  cases hne

/-! ## Taking names -/

/-- What the tokens of an axis take of its names. -/
inductive Takes (tokens : List (Token × Nat)) (names : List Text) : Assignment → Prop where
  /-- With enough names, each token takes the one at its index, if there is one; index 0 counts
  as 1. -/
  | byIndex (h : tokens.length ≤ names.length) :
      Takes tokens names
        (tokens.filterMap fun t => names[t.2 - 1]?.map fun name => (t.1, name))
  /-- With fewer, the names are taken by the tokens at distinct positions, each by one. -/
  | apart (h : names.length < tokens.length) {positions : List Nat}
      (hchoice : Arrangement.IsChoice names.length tokens.length positions) :
      Takes tokens names ((Arrangement.elementsAt (tokens.map Prod.fst) positions).zip names)

theorem byPosition_eq (vars : Variables) (names : List Text) (tokens : List (Token × Nat)) :
    byPosition vars names tokens =
      vars.give (tokens.filterMap fun t => names[t.2 - 1]?.map fun name => (t.1, name)) := by
  induction tokens generalizing vars with
  | nil => rfl
  | cons token tokens ih =>
    rw [List.filterMap_cons]
    cases hname : names[token.2 - 1]? with
    | none =>
      have hcons : byPosition vars names (token :: tokens) = byPosition vars names tokens := by
        simp only [byPosition, List.foldl_cons, hname]
      rw [hcons, ih]
      rfl
    | some name =>
      have hcons : byPosition vars names (token :: tokens) =
          byPosition (vars.set token.1.name name) names tokens := by
        simp only [byPosition, List.foldl_cons, hname]
      rw [hcons, ih]
      rfl

theorem bind_eq (vars : Variables) (tokens : List Token) (names : List Text) :
    bind vars tokens names = vars.give (tokens.zip names) := by
  rw [bind, Variables.give, List.zip_map_left]
  rfl

/-- The ways to bind the tokens of an axis are the ways in which they take its names. -/
theorem mem_bindings {vars v : Variables} {names : List Text} {tokens : List (Token × Nat)} :
    v ∈ bindings vars names tokens ↔ ∃ a, Takes tokens names a ∧ vars.give a = v := by
  rw [bindings]
  split
  · rename_i henough
    rw [List.mem_singleton, byPosition_eq]
    constructor
    · rintro rfl
      exact ⟨_, .byIndex henough, rfl⟩
    · rintro ⟨a, htakes, rfl⟩
      cases htakes with
      | byIndex => rfl
      | apart hfew => omega
  · rename_i hfew
    rw [List.mem_map, Arrangement.all_eq_map, List.length_map]
    constructor
    · rintro ⟨chosen, hchosen, rfl⟩
      obtain ⟨positions, hpositions, rfl⟩ := List.mem_map.mp hchosen
      exact ⟨_, .apart (by omega) (Arrangement.mem_all_range.mp hpositions), (bind_eq _ _ _).symm⟩
    · rintro ⟨a, htakes, rfl⟩
      cases htakes with
      | byIndex henough => omega
      | apart _ hchoice =>
        exact ⟨_, List.mem_map_of_mem (Arrangement.mem_all_range.mpr hchoice), bind_eq _ _ _⟩

theorem mem_variants {template : Text} {vars v : Variables} {chosen : Chosen} :
    v ∈ variants template vars chosen ↔
      ∃ s e, Takes (axisTokens .scenario (Text.tokens template)) chosen.scenarios s ∧
        Takes (axisTokens .event (Text.tokens template)) chosen.events e ∧
        vars.give (s ++ e) = v := by
  simp only [variants, List.mem_flatMap, mem_bindings, Variables.give_append]
  constructor
  · rintro ⟨w, ⟨s, hs, rfl⟩, e, he, rfl⟩
    exact ⟨s, e, hs, he, rfl⟩
  · rintro ⟨s, e, hs, he, rfl⟩
    exact ⟨_, ⟨s, hs, rfl⟩, e, he, rfl⟩

/-- The names can always be taken. -/
theorem exists_takes (tokens : List (Token × Nat)) (names : List Text) :
    ∃ a, Takes tokens names a := by
  by_cases henough : tokens.length ≤ names.length
  · exact ⟨_, .byIndex henough⟩
  · have hchoice : Arrangement.IsChoice names.length tokens.length (List.range names.length) :=
      ⟨List.length_range, List.nodup_range, fun i hi => by
        have := List.mem_range.mp hi
        omega⟩
    exact ⟨_, .apart (by omega) hchoice⟩

/-- The tokens that take names are some of the tokens. -/
theorem Takes.subperm {tokens : List (Token × Nat)} {names : List Text} {a : Assignment}
    (h : Takes tokens names a) : (a.map Prod.fst).Subperm (tokens.map Prod.fst) := by
  cases h with
  | byIndex henough =>
    clear henough
    refine List.Sublist.subperm ?_
    induction tokens with
    | nil => exact List.Sublist.slnil
    | cons token tokens ih =>
      rw [List.filterMap_cons]
      cases names[token.2 - 1]? with
      | none => exact ih.cons token.1
      | some name => exact ih.cons_cons token.1
  | apart hfew hchoice =>
    rw [← List.length_map (f := Prod.fst)] at hchoice
    rw [List.map_fst_zip (Arrangement.length_elementsAt hchoice).le]
    have hmem := List.mem_map_of_mem (f := Arrangement.elementsAt (tokens.map Prod.fst))
      (Arrangement.mem_all_range.mpr hchoice)
    rw [← Arrangement.all_eq_map] at hmem
    exact (Arrangement.mem_all.mp hmem).2

/-- Every axis token of a reference that takes a name has it for its value. -/
theorem extends_of_takes {template : Text} (vars : Variables) {scenarios events : List Text}
    {s e : Assignment} (hs : Takes (axisTokens .scenario (Text.tokens template)) scenarios s)
    (he : Takes (axisTokens .event (Text.tokens template)) events e) :
    Variables.Extends vars (s ++ e) (vars.give (s ++ e)) := by
  obtain ⟨taking, hperm, hsub⟩ := hs.subperm.append he.subperm
  have hnodup := ((hsub.map fun t => Variables.nameKey t.name).nodup
    (nodup_keys (Template.distinct_tokens _)))
  have hkeys := (hperm.map fun t => Variables.nameKey t.name).nodup_iff.mp hnodup
  rw [← List.map_append, List.map_map] at hkeys
  exact Variables.extends_give vars hkeys

/-- Names that are fewer than the tokens are taken in the same ways in whatever order. -/
theorem Takes.reorder {tokens : List (Token × Nat)} {names names' : List Text} {a : Assignment}
    (h : Takes tokens names a) (hfew : names.length < tokens.length) (hperm : names'.Perm names) :
    ∃ a', Takes tokens names' a' ∧ a'.Perm a := by
  cases h with
  | byIndex henough => omega
  | @apart _ positions hchoice =>
    have hzip : List.Forall₂ (fun name q => name = q.2) names (positions.zip names) := by
      rw [← List.forall₂_map_right_iff (f := Prod.snd), List.map_snd_zip hchoice.length.ge,
        List.forall₂_same]
      exact fun _ _ => rfl
    obtain ⟨pairs, hnames, hpairs⟩ := List.perm_comp_forall₂ hperm hzip
    have hpositions : (pairs.map Prod.fst).Perm positions := by
      have := hpairs.map Prod.fst
      rwa [List.map_fst_zip hchoice.length.le] at this
    have hnames' : pairs.map Prod.snd = names' := by
      rw [← List.forall₂_map_right_iff (f := Prod.snd), List.forall₂_eq_eq_eq] at hnames
      exact hnames.symm
    have hlength := hperm.length_eq
    have hchoice' : Arrangement.IsChoice names'.length tokens.length (pairs.map Prod.fst) :=
      ⟨by rw [← hnames', List.length_map, List.length_map],
        hpositions.nodup_iff.mpr hchoice.distinct,
        fun i hi => hchoice.inside i (hpositions.mem_iff.mp hi)⟩
    refine ⟨_, .apart (by omega) hchoice', ?_⟩
    have hinside : ∀ q ∈ pairs, q.1 < (tokens.map Prod.fst).length := fun q hq => by
      rw [List.length_map]
      exact hchoice'.inside _ (List.mem_map_of_mem hq)
    have hinside' : ∀ q ∈ positions.zip names, q.1 < (tokens.map Prod.fst).length := fun q hq =>
      hinside q (hpairs.mem_iff.mpr hq)
    have hthere := Arrangement.zip_elementsAt hinside'
    rw [List.map_fst_zip hchoice.length.le, List.map_snd_zip hchoice.length.ge] at hthere
    rw [hthere, ← hnames', Arrangement.zip_elementsAt hinside]
    exact hpairs.filterMap _

/-! ## The patterns -/

theorem nodup_foldl_addPattern (new : List Text) {acc : List Text} (h : acc.Nodup) :
    (new.foldl addPattern acc).Nodup := by
  induction new generalizing acc with
  | nil => exact h
  | cons p new ih =>
    refine ih ?_
    rw [addPattern]
    split
    · exact h
    · rename_i hp
      rw [List.nodup_append]
      refine ⟨h, List.nodup_singleton p, fun a ha b hb hab => hp ?_⟩
      rw [← List.mem_singleton.mp hb, ← hab]
      simpa using ha

/-- What is taken on an axis is taken of the names in another order too: by a permutation if the
names are fewer than the tokens, and otherwise of the same names. -/
theorem Takes.exists_perm {tokens : List (Token × Nat)} {names names' : List Text} {a : Assignment}
    (h : Takes tokens names a)
    (hsame : names' = names ∨ names.length < tokens.length ∧ names'.Perm names) :
    ∃ a', Takes tokens names' a' ∧ a'.Perm a := by
  obtain rfl | ⟨hfew, hperm⟩ := hsame
  · exact ⟨a, h, .rfl⟩
  · exact h.reorder hfew hperm

/-- The names of an axis are the same, or there are fewer than the reference has tokens of it and
they are in another order. -/
def Reordered (template : Text) (chosen chosen' : Chosen) : Prop :=
  ∀ axis, chosen'.names axis = chosen.names axis ∨
    (chosen.names axis).length < (axisTokens axis (Text.tokens template)).length ∧
      (chosen'.names axis).Perm (chosen.names axis)

theorem Reordered.symm {template : Text} {chosen chosen' : Chosen}
    (h : Reordered template chosen chosen') : Reordered template chosen' chosen := fun axis =>
  (h axis).imp Eq.symm fun ⟨hfew, hperm⟩ => ⟨hperm.length_eq ▸ hfew, hperm.symm⟩

theorem Reordered.mem_patterns_of_mem {template : Text} {vars : Variables} {chosen chosen' : Chosen}
    (h : Reordered template chosen chosen') {p : Text} (hp : p ∈ patterns template vars chosen) :
    p ∈ patterns template vars chosen' := by
  obtain ⟨v, hv, rfl⟩ := mem_patterns.mp hp
  obtain ⟨s, e, hs, he, rfl⟩ := mem_variants.mp hv
  obtain ⟨s', hs', hsperm⟩ := hs.exists_perm (h .scenario)
  obtain ⟨e', he', heperm⟩ := he.exists_perm (h .event)
  refine mem_patterns.mpr ⟨_, mem_variants.mpr ⟨s', e', hs', he', rfl⟩, ?_⟩
  exact Variables.pattern_congr
    ((extends_of_takes vars hs' he').get?_eq (extends_of_takes vars hs he) (hsperm.append heperm))
    template

end Reference

open Reference

/-- There is a pattern, none is listed twice, and they are those of the reference under the
variables with the names for the values of its axis tokens: on each axis by index if there are
enough names, and otherwise in every way that gives all the names to distinct tokens. So the order
of names which are fewer than the tokens does not count. -/
theorem patterns_spec (template : Text) (vars : Variables) (chosen : Chosen) :
    patterns template vars chosen ≠ [] ∧ (patterns template vars chosen).Nodup ∧
      (∀ p, p ∈ patterns template vars chosen ↔
        ∃ s e, Takes (axisTokens .scenario (Text.tokens template)) chosen.scenarios s ∧
          Takes (axisTokens .event (Text.tokens template)) chosen.events e ∧
          (vars.give (s ++ e)).pattern template = p) ∧
      (∀ s e, Takes (axisTokens .scenario (Text.tokens template)) chosen.scenarios s →
        Takes (axisTokens .event (Text.tokens template)) chosen.events e →
          Variables.Extends vars (s ++ e) (vars.give (s ++ e))) ∧
      ∀ chosen', Reordered template chosen chosen' →
        ∀ p, p ∈ patterns template vars chosen' ↔ p ∈ patterns template vars chosen := by
  have hmem : ∀ p, p ∈ patterns template vars chosen ↔
      ∃ s e, Takes (axisTokens .scenario (Text.tokens template)) chosen.scenarios s ∧
        Takes (axisTokens .event (Text.tokens template)) chosen.events e ∧
        (vars.give (s ++ e)).pattern template = p := by
    intro p
    rw [mem_patterns]
    constructor
    · rintro ⟨v, hv, hp⟩
      obtain ⟨s, e, hs, he, rfl⟩ := mem_variants.mp hv
      exact ⟨s, e, hs, he, hp⟩
    · rintro ⟨s, e, hs, he, hp⟩
      exact ⟨_, mem_variants.mpr ⟨s, e, hs, he, rfl⟩, hp⟩
  refine ⟨?_, nodup_foldl_addPattern _ List.nodup_nil, hmem,
    fun s e hs he => extends_of_takes vars hs he, fun chosen' h p => ?_⟩
  · obtain ⟨s, hs⟩ := exists_takes (axisTokens .scenario (Text.tokens template)) chosen.scenarios
    obtain ⟨e, he⟩ := exists_takes (axisTokens .event (Text.tokens template)) chosen.events
    exact List.ne_nil_of_mem ((hmem _).mpr ⟨s, e, hs, he, rfl⟩)
  · exact ⟨h.symm.mem_patterns_of_mem, h.mem_patterns_of_mem⟩

/-- Two names for three scenarios, one of which has a value already and one of which is spelled in
three ways, and an event that is not in the list. -/
theorem patterns_spec_fewer :
    let template : Text := "<<~s~>>_<<~S1~>>_<<~s1~>>_<<~s2~>>_<<~s3~>>_<<~e3~>>"
    let vars := Variables.empty.set "~s3~" "Z"
    let chosen : Chosen := ⟨["A", "B"], ["Q"]⟩
    let reordered : Chosen := ⟨["B", "A"], ["Q"]⟩
    let scenarios : Assignment := [(⟨"~s2~"⟩, "A"), (⟨"~s1~"⟩, "B")]
    Reordered template chosen reordered ∧
      Takes (axisTokens .scenario (Text.tokens template)) chosen.scenarios scenarios ∧
      Takes (axisTokens .event (Text.tokens template)) chosen.events [] ∧
      Variables.Extends vars scenarios (vars.give scenarios) ∧
      ("B_B_B_A_Z_*" : Text) ∈ patterns template vars chosen ∧
      ∀ p, p ∈ patterns template vars reordered ↔ p ∈ patterns template vars chosen := by
  intro template vars chosen reordered scenarios
  obtain ⟨-, -, hmem, hextends, horder⟩ := patterns_spec template vars chosen
  have hreordered : Reordered template chosen reordered := by
    intro axis
    cases axis with
    | scenario => exact .inr ⟨by decide +kernel, List.Perm.swap _ _ _⟩
    | event => exact .inl rfl
  have hchoice : Arrangement.IsChoice chosen.scenarios.length
      (axisTokens .scenario (Text.tokens template)).length [1, 0] :=
    ⟨rfl, by decide, by decide +kernel⟩
  have hs : Takes (axisTokens .scenario (Text.tokens template)) chosen.scenarios scenarios :=
    .apart (by decide +kernel) hchoice
  have he : Takes (axisTokens .event (Text.tokens template)) chosen.events [] :=
    .byIndex (by decide +kernel)
  refine ⟨hreordered, hs, he, hextends scenarios [] hs he, ?_, horder reordered hreordered⟩
  exact (hmem _).mpr ⟨scenarios, [], hs, he, by decide +kernel⟩

end ControlFiles
