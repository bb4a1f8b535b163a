import ControlFiles.Proofs.Arrangement
import ControlFiles.Proofs.Reference.Values
import ControlFiles.Reference.Assignment
import Mathlib.Data.List.Pairwise

/-!
# What an assignment does

The search through the candidates ends at the first choice of positions under which the template is
the concrete path (`Assignment.find?_eq_some_iff`), and finds nothing only if no choice fits
(`Assignment.isSome_find?_iff`), whatever the order of the candidates
(`Assignment.isSome_find?_of_perm`). A scope gains the name of its token and keeps everything else
(`Assignment.assigned_apply`). `resolveScopes_spec` puts these together.
-/

namespace ControlFiles

namespace Assignment

/-! ## The template under an assignment -/

/-- The name that a token stands for. -/
def value? (a : Assignment) (t : Token) : Option Text :=
  (List.find? (fun p => p.1.same t) a).map (·.2)

/-- The text of a piece: a token that stands for a name gives it without the blanks around it. -/
def fillPiece (a : Assignment) : Piece → Text
  | .plain c => [c]
  | .token t =>
    match a.value? t with
    | some name => Text.trim name
    | none => t.text

/-- The template with the names in the place of its tokens. -/
def fill (a : Assignment) (template : Text) : Text := (Template.ofText template).flatMap a.fillPiece

theorem value?_congr (a : Assignment) {s t : Token} (h : s.same t = true) :
    a.value? s = a.value? t := by
  have hsame : ∀ p : Token × Text, p.1.same s = p.1.same t := fun p =>
    Bool.eq_iff_iff.mpr
      ⟨fun hp => Token.same_trans hp h, fun hp => Token.same_trans hp (Token.same_symm h)⟩
  simp only [value?, hsame]

/-- A template is expanded with bound tokens as the assignment says. -/
theorem expand_bind {template : Text} {names : List Text}
    (haxis : ∀ t ∈ Text.tokens template, t.axis?.isSome = true)
    (hlength : (Text.tokens template).length = names.length) :
    (Reference.bind .empty (Text.tokens template) names).expand template =
      fill ((Text.tokens template).zip names) template := by
  rw [Variables.expand, fill]
  refine List.flatMap_congr fun piece hpiece => ?_
  cases piece with
  | plain c => rfl
  | token t =>
    obtain ⟨u, hu, hsame⟩ := Template.exists_same_of_mem hpiece
    have hget : (Reference.bind .empty (Text.tokens template) names).get? t.name =
        value? ((Text.tokens template).zip names) t := by
      rw [← Variables.get?_congr _ hsame, ← value?_congr _ hsame]
      exact Reference.get?_bind (Template.distinct_tokens _) haxis hlength hu
    cases hvalue : value? ((Text.tokens template).zip names) t <;>
      rw [Variables.expandPiece, fillPiece, hget, hvalue]

/-! ## The search -/

/-- The assignment, if the template is the concrete path under it. -/
def fitting? (template concrete : Text) (a : Assignment) : Option Assignment :=
  if Path.key (a.fill template) = Path.key concrete then some a else none

/-- Every token with the candidate at its position. -/
def ofPositions (template : Text) (candidates : List Text) (positions : List Nat) : Assignment :=
  (Text.tokens template).zip (Arrangement.elementsAt candidates positions)

/-- Distinct positions, one for each token, whose candidates make the template the concrete
path. -/
structure Fits (template concrete : Text) (candidates : List Text) (positions : List Nat) :
    Prop where
  choice : Arrangement.IsChoice (Text.tokens template).length candidates.length positions
  fill : Path.key ((ofPositions template candidates positions).fill template) = Path.key concrete

variable {template concrete : Text} {candidates : List Text}

/-- The search goes through the choices of positions. -/
theorem find?_eq (haxis : ∀ t ∈ Text.tokens template, t.axis?.isSome = true)
    (hsome : Text.tokens template ≠ []) :
    find? template concrete candidates =
      (Arrangement.all (Text.tokens template).length (List.range candidates.length)).findSome?
        fun positions =>
          fitting? template concrete (ofPositions template candidates positions) := by
  have hnames : ∀ names ∈ Arrangement.all (Text.tokens template).length candidates,
      (if Path.key ((Reference.bind .empty (Text.tokens template) names).expand template) =
          Path.key concrete then some ((Text.tokens template).zip names) else none) =
        fitting? template concrete ((Text.tokens template).zip names) := fun names hmem => by
    rw [expand_bind haxis (Arrangement.mem_all.mp hmem).1.symm, fitting?]
  have hfind : find? template concrete candidates =
      (Arrangement.all (Text.tokens template).length candidates).findSome?
        fun names => fitting? template concrete ((Text.tokens template).zip names) := by
    rw [find?]
    split
    · -- with fewer candidates than tokens there is no arrangement
      rename_i hfew
      have hlt : candidates.length < (Text.tokens template).length := by simpa [hsome] using hfew
      refine (List.findSome?_eq_none_iff.mpr fun names hmem => ?_).symm
      obtain ⟨hlength, hsub⟩ := Arrangement.mem_all.mp hmem
      exact absurd (hlength ▸ hsub.length_le) (Nat.not_le.mpr hlt)
    · rw [← List.head?_filterMap, ← List.head?_filterMap, List.filterMap_congr hnames]
  rw [hfind, Arrangement.all_eq_map, List.findSome?_map]
  rfl

/-- The first choice of positions that fits is found. -/
theorem first_of_find?_eq_some (haxis : ∀ t ∈ Text.tokens template, t.axis?.isSome = true)
    (hsome : Text.tokens template ≠ []) {a : Assignment}
    (h : find? template concrete candidates = some a) :
    ∃ first, Fits template concrete candidates first ∧
      (∀ other, Fits template concrete candidates other → first ≤ other) ∧
      a = ofPositions template candidates first := by
  rw [find?_eq haxis hsome] at h
  obtain ⟨first, hmem, hfirst, hleast⟩ :=
    Arrangement.le_of_findSome? (Arrangement.pairwise_all_range _ _) h
  rw [fitting?] at hfirst
  split at hfirst
  · rename_i hfill
    refine ⟨first, ⟨Arrangement.mem_all_range.mp hmem, hfill⟩, fun other hother => ?_,
      (Option.some.inj hfirst).symm⟩
    refine hleast other (Arrangement.mem_all_range.mpr hother.choice) ?_
    rw [fitting?, if_pos hother.fill]
    rfl
  · cases hfirst

/-- Something is found exactly if some choice fits. -/
theorem isSome_find?_iff (haxis : ∀ t ∈ Text.tokens template, t.axis?.isSome = true)
    (hsome : Text.tokens template ≠ []) :
    (find? template concrete candidates).isSome = true ↔
      ∃ positions, Fits template concrete candidates positions := by
  rw [find?_eq haxis hsome, List.isSome_findSome?, List.any_eq_true]
  constructor
  · rintro ⟨positions, hmem, hfits⟩
    exact ⟨positions, Arrangement.mem_all_range.mp hmem, by simpa [fitting?] using hfits⟩
  · rintro ⟨positions, hchoice, hfill⟩
    exact ⟨positions, Arrangement.mem_all_range.mpr hchoice, by simp [fitting?, hfill]⟩

/-- Whether something is found does not depend on the order of the candidates. -/
theorem isSome_find?_of_perm {candidates' : List Text} (h : candidates'.Perm candidates) :
    (find? template concrete candidates').isSome = (find? template concrete candidates).isSome := by
  rw [find?, find?, h.length_eq]
  split
  · rfl
  · rw [Bool.eq_iff_iff, List.isSome_findSome?, List.isSome_findSome?, List.any_eq_true,
      List.any_eq_true]
    refine exists_congr fun names => and_congr_left fun _ => ?_
    rw [Arrangement.mem_all, Arrangement.mem_all]
    exact and_congr_right fun _ => ⟨fun hs => hs.trans h.subperm, fun hs => hs.trans h.symm.subperm⟩

/-! ## The scopes -/

/-- The token of the scope stands for the name. -/
def Assigns (a : Assignment) (s : Scope) (name : Text) : Prop :=
  ∃ token written, s.token = some written ∧ (token, name) ∈ a ∧
    Text.alike token.text written = true

/-- What an assignment makes of a scope. -/
structure Assigned (a : Assignment) (s s' : Scope) : Prop where
  others : s' = { s with names := s'.names }
  keeps : s.names <+: s'.names
  gains : ∀ name, a.Assigns s name → s'.hasName name = true
  only : ∀ name ∈ s'.names, name ∈ s.names ∨ a.Assigns s name
  unchanged : (∀ name, ¬ a.Assigns s name) → s' = s

/-- No two tokens of the assignment are the same. -/
abbrev Functional (a : Assignment) : Prop := Template.Distinct (a.map Prod.fst)

theorem Fits.functional {positions : List Nat} (h : Fits template concrete candidates positions) :
    Functional (ofPositions template candidates positions) := by
  have hlength := Arrangement.length_elementsAt h.choice
  rw [Functional, ofPositions, List.map_fst_zip hlength.ge]
  exact Template.distinct_tokens _

/-- A token stands for one name at most. -/
theorem Functional.eq {a : Assignment} (ha : Functional a) {s : Scope} {x y : Text}
    (hx : a.Assigns s x) (hy : a.Assigns s y) : x = y := by
  obtain ⟨t, written, hwritten, ht, hwt⟩ := hx
  obtain ⟨u, written', hwritten', hu, hwu⟩ := hy
  obtain rfl : written = written' := Option.some.inj (hwritten.symm.trans hwritten')
  have hsame : t.same u = true := by
    rw [← Token.alike_text, Text.alike_iff, Text.alike_iff.mp hwt, Text.alike_iff.mp hwu]
  have : Std.Symm fun p q : Token × Text => p.1.same q.1 = false :=
    ⟨fun p q h => Bool.eq_false_iff.mpr fun hqp => by simp [Token.same_symm hqp] at h⟩
  by_contra hne
  have hapart := (List.pairwise_map.mp ha).forall ht hu fun h => hne (congrArg Prod.snd h)
  rw [hsame] at hapart
  cases hapart

/-- A scope whose token stands for a name gains it, any other stays as it is. -/
theorem apply_cases (a : Assignment) (s : Scope) :
    (∃ name, a.Assigns s name ∧ a.apply s = s.addNames [name]) ∨
      (∀ name, ¬ a.Assigns s name) ∧ a.apply s = s := by
  rw [apply]
  split
  · rename_i t name hfound
    obtain ⟨written, hwritten, hfind⟩ := Option.bind_eq_some_iff.mp hfound
    have hwt : Text.alike t.text written = true := by simpa using List.find?_some hfind
    exact .inl ⟨name, ⟨t, written, hwritten, List.mem_of_find?_eq_some hfind, hwt⟩, rfl⟩
  · rename_i hnone
    refine .inr ⟨?_, rfl⟩
    rintro name ⟨t, written, hwritten, ht, hwt⟩
    rw [hwritten, Option.bind_some, List.find?_eq_none] at hnone
    exact hnone _ ht hwt

/-- A scope gains the name that its token stands for, and keeps everything else. -/
theorem assigned_apply {a : Assignment} (ha : Functional a) (s : Scope) :
    Assigned a s (a.apply s) := by
  obtain ⟨name, hname, happly⟩ | ⟨hnone, happly⟩ := a.apply_cases s
  · rw [happly]
    refine ⟨rfl, Text.prefix_addNew _ _, fun x hx => ?_, fun x hx => ?_, fun hnone =>
      absurd hname (hnone name)⟩
    · rw [ha.eq hx hname]
      exact Text.listed_addNew_self _ _
    · obtain hx | hx := Text.mem_addNew hx
      · exact .inl hx
      · exact .inr (List.mem_singleton.mp hx ▸ hname)
  · rw [happly]
    exact ⟨rfl, List.prefix_rfl, fun x hx => absurd hx (hnone x), fun x hx => .inl hx,
      fun _ => rfl⟩

end Assignment

open Assignment

/-! ## The answer -/

/-- An assignment is found exactly if some choice of positions fits, and it is that of the first
one. It gives the scopes the names of their tokens; if there is none they stay as they are. -/
theorem resolveScopes_spec (scopes : List Scope) {template : Text} (concrete : Text)
    (candidates : List Text) (haxis : ∀ t ∈ Text.tokens template, t.axis?.isSome = true)
    (hsome : Text.tokens template ≠ []) :
    ((resolveScopes scopes template concrete candidates).1.isSome = true ↔
        ∃ positions, Fits template concrete candidates positions) ∧
      (∀ a, (resolveScopes scopes template concrete candidates).1 = some a →
        (∃ first, Fits template concrete candidates first ∧
          (∀ other, Fits template concrete candidates other → first ≤ other) ∧
          a = ofPositions template candidates first) ∧
        List.Forall₂ (Assigned a) scopes
          (resolveScopes scopes template concrete candidates).2) ∧
      ((resolveScopes scopes template concrete candidates).1 = none →
        (resolveScopes scopes template concrete candidates).2 = scopes) ∧
      ∀ candidates', candidates'.Perm candidates →
        (resolveScopes scopes template concrete candidates').1.isSome =
          (resolveScopes scopes template concrete candidates).1.isSome := by
  have hanswer : ∀ candidates, (resolveScopes scopes template concrete candidates).1 =
      find? template concrete candidates := fun candidates => by
    rw [resolveScopes]
    cases find? template concrete candidates <;> rfl
  refine ⟨?_, fun a ha => ?_, fun hnone => ?_, fun candidates' hperm => ?_⟩
  · rw [hanswer]
    exact isSome_find?_iff haxis hsome
  · rw [hanswer] at ha
    obtain ⟨first, hfits, hleast, rfl⟩ := first_of_find?_eq_some haxis hsome ha
    refine ⟨⟨first, hfits, hleast, rfl⟩, ?_⟩
    rw [resolveScopes, ha, List.forall₂_map_right_iff, List.forall₂_same]
    exact fun s _ => assigned_apply hfits.functional s
  · rw [hanswer] at hnone
    rw [resolveScopes, hnone]
  · rw [hanswer, hanswer]
    exact isSome_find?_of_perm hperm

/-- The path needs the candidates in another order, and one of them is listed twice. -/
theorem resolveScopes_spec_reversed :
    let scopes : List Scope :=
      [{ Scope.ofText .scenario "<<~S2~>>" with negated := true }, Scope.ofText .event "<<~e1~>>"]
    let template : Text := "2d_code_<<~s1~>>_<<~s2~>>_<<~s1~>>.shp"
    let concrete : Text := ".\\2D_code_exg_5m_EXG.shp"
    let candidates : List Text := ["5m", "EXG", "5m"]
    let a := ofPositions template candidates [1, 0]
    (∀ t ∈ Text.tokens template, t.axis?.isSome = true) ∧ Text.tokens template ≠ [] ∧
      (resolveScopes scopes template concrete candidates).1 = some a ∧
      (∃ first, Fits template concrete candidates first ∧
        (∀ other, Fits template concrete candidates other → first ≤ other) ∧
        a = ofPositions template candidates first) ∧
      List.Forall₂ (Assigned a) scopes
        (resolveScopes scopes template concrete candidates).2 := by
  intro scopes template concrete candidates a
  have haxis : ∀ t ∈ Text.tokens template, t.axis?.isSome = true := by decide
  have hsome : Text.tokens template ≠ [] := by decide
  have ha : (resolveScopes scopes template concrete candidates).1 = some a := by decide +kernel
  exact ⟨haxis, hsome, ha,
    (resolveScopes_spec scopes concrete candidates haxis hsome).2.1 a ha⟩

end ControlFiles
