import ControlFiles.Scope
import Mathlib.Data.List.Basic

/-!
# Exploded scopes

Two scopes of one kind and qualifier have a value in common if they share a name, or, where one of
them has no name, a token (`Scope.sameValue_iff`). Exploding a scope keeps its names: what the
alternatives share by a name the scopes share (`Scope.exists_sharesName_explode`). It keeps a token
only beside one name at most (`Scope.exists_sharesToken_explode`). So the alternatives of two scopes
have a value in common exactly if the scopes have, and it is not a token that stands beside several
names in one of them (`Scope.exists_sameValue_explode`). A scope list that is exploded meets no
scope more, and may miss one for such a token (`ScopeList.meets_explode_iff`).
-/

namespace ControlFiles

namespace Scope

variable {s t a : Scope} {neg : Bool}

/-! ## Comparing -/

/-- The two scopes are of one kind and qualifier, and of one negation where that counts. -/
def SameAxis (s t : Scope) (neg : Bool) : Prop :=
  s.kind = t.kind ∧ (neg = true → s.negated = t.negated) ∧
    Text.alike? s.qualifier t.qualifier = true

/-- Some name of the one scope is one of the other's. -/
def SharesName (s t : Scope) : Prop := ∃ name ∈ s.names, t.hasName name = true

/-- One of the scopes has no name, and the other has the same token. -/
def SharesToken (s t : Scope) : Prop :=
  (s.names = [] ∨ t.names = []) ∧
    ∃ mine ∈ s.token, ∃ other ∈ t.token, Text.alike mine other = true

theorem sameValue_iff : s.sameValue t neg = true ↔
    SameAxis s t neg ∧ (s.kind.isAnonymous = true ∨ SharesName s t ∨ SharesToken s t) := by
  have haxis : (s.kind == t.kind && (!neg || s.negated == t.negated) &&
      Text.alike? s.qualifier t.qualifier) = true ↔ SameAxis s t neg := by
    cases neg <;> simp [SameAxis, and_assoc]
  rw [sameValue, Bool.and_eq_true, haxis, Bool.or_eq_true]
  refine and_congr_right fun _ => or_congr_right ?_
  by_cases hempty : s.names = [] ∨ t.names = []
  · have hnone : ¬ SharesName s t := by
      rintro ⟨name, hname, hother⟩
      obtain hs | ht := hempty
      · rw [hs] at hname
        cases hname
      · rw [hasName, ht] at hother
        cases hother
    rw [if_pos (by simpa using hempty), SharesToken, and_iff_right hempty, or_iff_right hnone]
    cases s.token <;> cases t.token <;> simp
  · rw [if_neg (by simpa using hempty), SharesToken, or_iff_left fun h => hempty h.1,
      List.any_eq_true]
    rfl

/-! ## Exploding -/

/-- The alternative of a scope with several names that is one of them. -/
def single (s : Scope) (name : Text) : Scope := { s with names := [name], token := none }

/-- A scope with one name at most is its own only alternative; the alternatives of another are its
names. -/
theorem mem_explode : a ∈ s.explode true ↔
    s.names.length ≤ 1 ∧ a = s ∨ 1 < s.names.length ∧ ∃ name ∈ s.names, a = s.single name := by
  rw [explode]
  split
  · rename_i hshort
    have hself : { s with negated := true && s.negated } = s := rfl
    rw [List.mem_singleton, hself, or_iff_left fun h => absurd hshort (Nat.not_le_of_lt h.1),
      and_iff_right hshort]
  · rename_i hmany
    have hlength : 1 < s.names.length := Nat.lt_of_not_le hmany
    rw [List.mem_map, or_iff_right (fun h => hmany h.1), and_iff_right hlength]
    exact exists_congr fun name => and_congr_right fun _ => eq_comm

theorem explode_ne_nil (s : Scope) : s.explode true ≠ [] := by
  rw [explode]
  split
  · exact List.cons_ne_nil _ _
  · rename_i hmany
    rw [Ne, List.map_eq_nil_iff]
    rintro hnil
    exact hmany (by simp [hnil])

/-- An alternative differs from the scope in names and token only. -/
theorem sameFrame_of_mem_explode (h : a ∈ s.explode true) :
    a.kind = s.kind ∧ a.negated = s.negated ∧ a.qualifier = s.qualifier := by
  obtain ⟨-, rfl⟩ | ⟨-, name, -, rfl⟩ := mem_explode.mp h <;> exact ⟨rfl, rfl, rfl⟩

theorem sameAxis_explode {b : Scope} (ha : a ∈ s.explode true) (hb : b ∈ t.explode true) :
    SameAxis a b neg ↔ SameAxis s t neg := by
  obtain ⟨hkind, hnegated, hqualifier⟩ := sameFrame_of_mem_explode ha
  obtain ⟨hkind', hnegated', hqualifier'⟩ := sameFrame_of_mem_explode hb
  rw [SameAxis, SameAxis, hkind, hnegated, hqualifier, hkind', hnegated', hqualifier']

/-- Exploding loses no name and adds none. -/
theorem exists_name_explode {p : Text → Prop} :
    (∃ a ∈ s.explode true, ∃ name ∈ a.names, p name) ↔ ∃ name ∈ s.names, p name := by
  constructor
  · rintro ⟨a, ha, name, hname, hp⟩
    obtain ⟨-, rfl⟩ | ⟨-, other, hother, rfl⟩ := mem_explode.mp ha
    · exact ⟨name, hname, hp⟩
    · obtain rfl := List.mem_singleton.mp hname
      exact ⟨name, hother, hp⟩
  · rintro ⟨name, hname, hp⟩
    by_cases hshort : s.names.length ≤ 1
    · exact ⟨s, mem_explode.mpr (.inl ⟨hshort, rfl⟩), name, hname, hp⟩
    · exact ⟨s.single name, mem_explode.mpr (.inr ⟨Nat.lt_of_not_le hshort, name, hname, rfl⟩),
        name, List.mem_singleton_self name, hp⟩

theorem exists_sharesName_explode :
    (∃ a ∈ s.explode true, ∃ b ∈ t.explode true, SharesName a b) ↔ SharesName s t := by
  have hhas : ∀ (u : Scope) name, u.hasName name = true ↔
      ∃ other ∈ u.names, Text.alike other name = true := fun u name => List.any_eq_true
  simp only [SharesName, hhas]
  calc (∃ a ∈ s.explode true, ∃ b ∈ t.explode true, ∃ name ∈ a.names,
        ∃ other ∈ b.names, Text.alike other name = true)
      ↔ ∃ a ∈ s.explode true, ∃ name ∈ a.names, ∃ b ∈ t.explode true,
        ∃ other ∈ b.names, Text.alike other name = true := by
        refine exists_congr fun a => and_congr_right fun _ => ?_
        constructor
        · rintro ⟨b, hb, name, hname, h⟩
          exact ⟨name, hname, b, hb, h⟩
        · rintro ⟨name, hname, b, hb, h⟩
          exact ⟨b, hb, name, hname, h⟩
    _ ↔ ∃ name ∈ s.names, ∃ other ∈ t.names, Text.alike other name = true := by
        simp only [exists_name_explode]

/-- A token is kept by a scope with one name at most. -/
theorem exists_sharesToken_explode :
    (∃ a ∈ s.explode true, ∃ b ∈ t.explode true, SharesToken a b) ↔
      SharesToken s t ∧ s.names.length ≤ 1 ∧ t.names.length ≤ 1 := by
  have hkept : ∀ {u a : Scope}, a ∈ u.explode true → ∀ token ∈ a.token,
      u.names.length ≤ 1 ∧ a = u := by
    intro u a ha token htoken
    obtain hself | ⟨-, name, -, rfl⟩ := mem_explode.mp ha
    · exact hself
    · cases htoken
  constructor
  · rintro ⟨a, ha, b, hb, hshares⟩
    obtain ⟨mine, hmine, other, hother, -⟩ := hshares.2
    obtain ⟨hs, rfl⟩ := hkept ha mine hmine
    obtain ⟨ht, rfl⟩ := hkept hb other hother
    exact ⟨hshares, hs, ht⟩
  · rintro ⟨hshares, hs, ht⟩
    exact ⟨s, mem_explode.mpr (.inl ⟨hs, rfl⟩), t, mem_explode.mpr (.inl ⟨ht, rfl⟩), hshares⟩

/-- One of the scopes has no name and the other several: all that they can share is a token, and the
alternatives of the other do not have it. -/
def LosesToken (s t : Scope) : Prop :=
  s.kind.isAnonymous = false ∧
    (s.names = [] ∧ 1 < t.names.length ∨ t.names = [] ∧ 1 < s.names.length)

instance (s t : Scope) : Decidable (LosesToken s t) :=
  inferInstanceAs (Decidable (_ ∧ (_ ∧ _ ∨ _ ∧ _)))

theorem SharesToken.losesToken_iff (h : SharesToken s t) (hkind : s.kind.isAnonymous = false) :
    LosesToken s t ↔ ¬ (s.names.length ≤ 1 ∧ t.names.length ≤ 1) := by
  rw [LosesToken, and_iff_right hkind]
  obtain hs | ht := h.1
  · simp [hs]
  · simp [ht]

theorem SharesName.not_losesToken (h : SharesName s t) : ¬ LosesToken s t := by
  obtain ⟨name, hname, hother⟩ := h
  rintro ⟨-, ⟨hs, -⟩ | ⟨ht, -⟩⟩
  · rw [hs] at hname
    cases hname
  · rw [hasName, ht] at hother
    cases hother

theorem LosesToken.sharesToken (h : LosesToken s t) (hvalue : s.sameValue t neg = true) :
    SharesToken s t := by
  obtain ⟨-, hkind | hname | htoken⟩ := sameValue_iff.mp hvalue
  · rw [h.1] at hkind
    cases hkind
  · exact absurd h hname.not_losesToken
  · exact htoken

/-- Scopes with one name at most, or without a token, lose none. -/
theorem not_losesToken (hvalue : s.sameValue t neg = true)
    (hs : s.names.length ≤ 1 ∨ s.token = none) (ht : t.names.length ≤ 1 ∨ t.token = none) :
    ¬ LosesToken s t := by
  intro hloses
  obtain ⟨-, _, hmine, _, hother, -⟩ := hloses.sharesToken hvalue
  have hs : s.names.length ≤ 1 := hs.resolve_right fun hnone => by
    rw [hnone] at hmine
    cases hmine
  have ht : t.names.length ≤ 1 := ht.resolve_right fun hnone => by
    rw [hnone] at hother
    cases hother
  obtain ⟨-, ⟨-, hmany⟩ | ⟨-, hmany⟩⟩ := hloses
  · exact absurd hmany (Nat.not_lt_of_le ht)
  · exact absurd hmany (Nat.not_lt_of_le hs)

/-- What alternatives have in common, they have by their kind, by a name or by a token. -/
theorem exists_sameValue_iff :
    (∃ a ∈ s.explode true, ∃ b ∈ t.explode true, a.sameValue b neg = true) ↔
      SameAxis s t neg ∧ (s.kind.isAnonymous = true ∨
        (∃ a ∈ s.explode true, ∃ b ∈ t.explode true, SharesName a b) ∨
        ∃ a ∈ s.explode true, ∃ b ∈ t.explode true, SharesToken a b) := by
  simp only [sameValue_iff]
  constructor
  · rintro ⟨a, ha, b, hb, haxis, hvalue⟩
    refine ⟨(sameAxis_explode ha hb).mp haxis, ?_⟩
    rw [(sameFrame_of_mem_explode ha).1] at hvalue
    obtain hkind | hname | htoken := hvalue
    · exact .inl hkind
    · exact .inr (.inl ⟨a, ha, b, hb, hname⟩)
    · exact .inr (.inr ⟨a, ha, b, hb, htoken⟩)
  · rintro ⟨haxis, hkind | ⟨a, ha, b, hb, hname⟩ | ⟨a, ha, b, hb, htoken⟩⟩
    · obtain ⟨a, ha⟩ := List.exists_mem_of_ne_nil _ s.explode_ne_nil
      obtain ⟨b, hb⟩ := List.exists_mem_of_ne_nil _ t.explode_ne_nil
      refine ⟨a, ha, b, hb, (sameAxis_explode ha hb).mpr haxis, .inl ?_⟩
      rw [(sameFrame_of_mem_explode ha).1, hkind]
    · exact ⟨a, ha, b, hb, (sameAxis_explode ha hb).mpr haxis, .inr (.inl hname)⟩
    · exact ⟨a, ha, b, hb, (sameAxis_explode ha hb).mpr haxis, .inr (.inr htoken)⟩

/-- Two scopes have a value in common by some of their alternatives exactly if they have one, and it
is not a token that one of them loses. -/
theorem exists_sameValue_explode :
    (∃ a ∈ s.explode true, ∃ b ∈ t.explode true, a.sameValue b neg = true) ↔
      s.sameValue t neg = true ∧ ¬ LosesToken s t := by
  rw [exists_sameValue_iff, exists_sharesName_explode, exists_sharesToken_explode, sameValue_iff,
    and_assoc]
  refine and_congr_right fun _ => ?_
  cases hkind : s.kind.isAnonymous with
  | true => simp [LosesToken, hkind]
  | false =>
    simp only [Bool.false_eq_true, false_or]
    constructor
    · rintro (hname | ⟨htoken, hshort⟩)
      · exact ⟨.inl hname, hname.not_losesToken⟩
      · exact ⟨.inr htoken, fun hloses => (htoken.losesToken_iff hkind).mp hloses hshort⟩
    · rintro ⟨hname | htoken, hkept⟩
      · exact .inl hname
      · exact .inr ⟨htoken, not_not.mp (mt (htoken.losesToken_iff hkind).mpr hkept)⟩

/-- The scope is that of a header, negated or not, with a qualifier or without. -/
def OfHeader (s : Scope) : Prop :=
  ∃ kind text negated qualifier, s = { Scope.ofText kind text with negated, qualifier }

end Scope

namespace ScopeList

open Scope

theorem meets_whole (l : ScopeList) (s : Scope) (neg : Bool) :
    l.meets s false neg = true ↔ ∃ mine ∈ l, mine.sameValue s neg = true := by
  simp [meets, alternativesOf]

theorem meets_exploded (l : ScopeList) (s : Scope) (neg : Bool) : l.meets s true neg = true ↔
    ∃ mine ∈ l, mine.sameValue s neg = true ∧ ¬ LosesToken mine s := by
  simp only [← exists_sameValue_explode, meets, alternativesOf, List.any_eq_true, if_true]

/-- A list that is exploded meets no scope more. It meets the same exactly if, where it meets the
scope, one of its scopes has a value in common with it that is no lost token; and so it is if no
scope has both a token and several names. -/
theorem meets_explode_iff (l : ScopeList) (s : Scope) (neg : Bool) :
    (l.meets s true neg = true → l.meets s false neg = true) ∧
      (l.meets s true neg = l.meets s false neg ↔
        ((∃ mine ∈ l, mine.sameValue s neg = true) →
          ∃ mine ∈ l, mine.sameValue s neg = true ∧ ¬ LosesToken mine s)) ∧
      ((∀ x ∈ s :: l, x.names.length ≤ 1 ∨ x.token = none) →
        l.meets s true neg = l.meets s false neg) := by
  have hmore : l.meets s true neg = true → l.meets s false neg = true := by
    rw [meets_whole, meets_exploded]
    exact fun ⟨mine, hmine, hvalue, _⟩ => ⟨mine, hmine, hvalue⟩
  have hsame : l.meets s true neg = l.meets s false neg ↔
      ((∃ mine ∈ l, mine.sameValue s neg = true) →
        ∃ mine ∈ l, mine.sameValue s neg = true ∧ ¬ LosesToken mine s) := by
    rw [← meets_whole, ← meets_exploded, Bool.eq_iff_iff]
    exact ⟨Iff.mpr, fun h => ⟨hmore, h⟩⟩
  refine ⟨hmore, hsame, fun hplain => hsame.mpr ?_⟩
  rintro ⟨mine, hmine, hvalue⟩
  exact ⟨mine, hmine, hvalue, not_losesToken hvalue (hplain mine (List.mem_cons_of_mem s hmine))
    (hplain s List.mem_cons_self)⟩

/-- Names are found in a list that is exploded, one by one and in whatever case. -/
theorem meets_explode_names :
    let l : ScopeList := [.ofText .event "<<~e1~>>", .ofText .scenario "A | B | C"]
    let s := Scope.ofText .scenario "c | D"
    (∀ x ∈ s :: l, x.names.length ≤ 1 ∨ x.token = none) ∧ l.meets s false true = true ∧
      l.meets s true true = l.meets s false true := by
  intro l s
  have hplain : ∀ x ∈ s :: l, x.names.length ≤ 1 ∨ x.token = none := by decide
  exact ⟨hplain, by decide, (meets_explode_iff l s true).2.2 hplain⟩

/-- It does not hold that a list of scopes of headers meets the same when it is exploded: a token
beside two names is lost. -/
theorem not_forall_meets_explode : ¬ ∀ (l : ScopeList) (s : Scope) (neg : Bool),
    (∀ x ∈ s :: l, OfHeader x) → l.meets s true neg = l.meets s false neg := by
  intro h
  have hheader : ∀ text, OfHeader (.ofText .scenario text) := fun text =>
    ⟨.scenario, text, _, _, rfl⟩
  have hsame := h [.ofText .scenario "A | B | <<V>>"] (.ofText .scenario "<<V>>") true
    (by simp [hheader])
  exact absurd hsame (by decide)

end ScopeList

end ControlFiles
