import ControlFiles.Proofs.Glob
import ControlFiles.Proofs.Path
import ControlFiles.Proofs.Text.Tokens
import ControlFiles.Reference.Search
import Mathlib.Data.List.Forall2

/-!
# Patterns of references

The pattern of a reference covers the path that the reference stands for under some values of its
tokens, if the values can stand in the place of a `*` and the tokens are apart from each other
(`Reference.Searchable.covers`). Piece by piece this is plain to see (`Variables.covers_pieces`);
the rest is that covering survives normal forms (`Glob.Covers.normalize`).
-/

namespace ControlFiles

/-! ## Paths that are covered -/

/-- The segments are alike, or names of which the first covers the second. -/
inductive Segment.Covers : Segment → Segment → Prop where
  | root : Covers .root .root
  | here : Covers .here .here
  | up : Covers .up .up
  | name {p t : Text} (h : Glob.Covers p t) : Covers (.name p) (.name t)

namespace Glob.Covers

variable {p t : Text}

/-- What covers full stops alone is full stops. -/
theorem eq_iff_of_dots (h : Covers p t) (dots : Text) (hdots : ∀ c ∈ dots, c = '.') :
    p = dots ↔ t = dots := by
  induction h generalizing dots with
  | nil => exact Iff.rfl
  | @char c p t h ih =>
    cases dots with
    | nil => exact iff_of_false (fun h => escape_ne_nil c (List.append_eq_nil_iff.mp h).1) nofun
    | cons d dots =>
      obtain rfl := hdots d List.mem_cons_self
      by_cases hc : IsSpecial c
      · rw [escape_of_special hc]
        refine iff_of_false (fun h => ?_) fun h => ?_
        · exact absurd (List.cons.inj h).1 (by decide)
        · obtain rfl := (List.cons.inj h).1
          exact absurd hc (by simp [IsSpecial])
      · rw [escape_of_not_special hc, List.singleton_append, List.cons_eq_cons, List.cons_eq_cons,
          ih _ fun d hd => hdots d (List.mem_cons_of_mem _ hd)]
  | @run v p t hv hp h ih =>
    obtain ⟨c, hc, hdot⟩ := hv.notDots
    refine iff_of_false (fun h => ?_) fun h => ?_
    · exact absurd (hdots '*' (h ▸ List.mem_cons_self)) (by decide)
    · exact hdot (hdots c (h ▸ List.mem_append_left t hc))

theorem ofPart? (h : Covers p t) :
    Option.Rel Segment.Covers (Segment.ofPart? p) (Segment.ofPart? t) := by
  have hempty := h.eq_iff_of_dots [] (by simp)
  have hhere := h.eq_iff_of_dots "." (by decide)
  have hup := h.eq_iff_of_dots ".." (by decide)
  simp only [Segment.ofPart?, Bool.or_eq_true, List.isEmpty_iff, decide_eq_true_eq, hempty, hhere,
    hup]
  split_ifs
  · exact .none
  · exact .some .up
  · exact .some (.name h)

theorem rootOf (h : Covers p t) : Path.rootOf p = Path.rootOf t := by
  rw [Path.rootOf, Path.rootOf, h.startsWith_slash]

theorem names (h : Covers p t) : List.Forall₂ Segment.Covers (Path.names p) (Path.names t) :=
  List.rel_filterMap (fun _ _ h => h.ofPart?) h.split

end Glob.Covers

theorem Path.covers_fold {ss ts : List Segment} (h : List.Forall₂ Segment.Covers ss ts)
    {s t : Segment} (hst : s.Covers t) :
    List.Forall₂ Segment.Covers (Path.fold ss s) (Path.fold ts t) := by
  cases hst with
  | root => exact .cons .root h
  | here => exact h
  | name hname => exact .cons (.name hname) h
  | up =>
    cases h with
    | nil => exact .cons .up .nil
    | cons htop h =>
      cases htop with
      | name hname => exact h
      | root => exact .cons .up (.cons .root h)
      | here => exact .cons .up (.cons .here h)
      | up => exact .cons .up (.cons .up h)

theorem Segment.Covers.text {s t : Segment} (h : s.Covers t) : Glob.Covers s.text t.text := by
  cases h with
  | root => exact .nil
  | here => exact .char '.' .nil
  | up => exact .char '.' (.char '.' .nil)
  | name h => exact h

theorem Path.covers_join {ss ts : List Segment} (h : List.Forall₂ Segment.Covers ss ts) :
    Glob.Covers (Text.join "/" (ss.map Segment.text)) (Text.join "/" (ts.map Segment.text)) := by
  induction h with
  | nil => exact .nil
  | @cons s t ss ts hst h ih =>
    cases h with
    | nil =>
      simpa [Text.join] using hst.text
    | @cons s' t' ss ts hst' h =>
      have hcovers := hst.text.append ih.slash (by simp)
      simpa [Text.join, List.intercalate_cons_cons] using hcovers

theorem Path.covers_textOf {ss ts : List Segment} (h : List.Forall₂ Segment.Covers ss ts) :
    Glob.Covers (Path.textOf ss) (Path.textOf ts) := by
  cases h with
  | nil => exact .nil
  | cons hst h =>
    cases hst with
    | root => exact (covers_join h).slash
    | here => exact covers_join (.cons .here h)
    | up => exact covers_join (.cons .up h)
    | name hname => exact covers_join (.cons (.name hname) h)

/-- The normal form of what covers a path covers its normal form. -/
theorem Glob.Covers.normalize {p t : Text} (h : Covers p t) :
    Covers (Path.normalize ⟨p⟩).text (Path.normalize ⟨t⟩).text := by
  have hroot : List.Forall₂ Segment.Covers (Path.rootOf t) (Path.rootOf t) := by
    rw [Path.rootOf]
    split
    · exact .cons .root .nil
    · exact .nil
  rw [Path.normalize_eq, Path.normalize_eq, h.rootOf]
  refine Path.covers_textOf (List.rel_reverse ?_)
  exact List.rel_foldl (P := List.Forall₂ Segment.Covers) (R := Segment.Covers)
    (fun _ _ h _ _ hst => Path.covers_fold h hst) .nil (List.rel_append hroot h.names)

/-! ## Templates -/

/-- No token stands right behind another. -/
def Template.Spaced (ps : Template) : Prop :=
  ps.IsChain fun p q => (token? p).isNone = true ∨ (token? q).isNone = true

namespace Variables

variable {vars : Variables} {raw : Text}

/-- Without tokens there is nothing to put a value for. -/
theorem expand_of_not_hasTokens (h : Text.hasTokens raw = false) : vars.expand raw = raw := by
  induction raw with
  | nil => rfl
  | cons c t ih =>
    rw [Text.hasTokens_cons, Bool.or_eq_false_iff, Option.isSome_eq_false_iff,
      Option.isNone_iff_eq_none] at h
    rw [expand, Template.ofText_cons_of_none h.1, List.flatMap_cons]
    exact congrArg (c :: ·) (ih h.2)

/-- If no token is left, every token has a value. -/
theorem exists_get?_of_not_hasTokens (h : Text.hasTokens (vars.expand raw) = false) {token : Token}
    (htoken : .token token ∈ Template.ofText raw) : ∃ v, vars.get? token.name = some v := by
  cases hget : vars.get? token.name with
  | some v => exact ⟨v, rfl⟩
  | none =>
    have hnamed := Template.isNamed_of_mem_ofText htoken
    obtain ⟨before, after, hpieces⟩ := List.append_of_mem htoken
    have hexpand : vars.expand raw = before.flatMap vars.expandPiece ++
        (token.text ++ after.flatMap vars.expandPiece) := by
      rw [expand, hpieces, List.flatMap_append, List.flatMap_cons, expandPiece, hget]
    rw [hexpand, hnamed.hasTokens] at h
    cases h

/-- A pattern in which nothing is known covers the text under values that can fill it. -/
theorem covers_pieces {ps : Template} (hspaced : ps.Spaced)
    (hfill : ∀ token, .token token ∈ ps →
      ∃ v, vars.get? token.name = some v ∧ Glob.IsFilling (Text.trim v)) :
    Glob.Covers (ps.flatMap empty.patternPiece) (ps.flatMap vars.expandPiece) := by
  induction ps with
  | nil => exact .nil
  | cons piece ps ih =>
    have hcovers := ih (List.isChain_of_isChain_cons hspaced) fun token htoken =>
      hfill token (List.mem_cons_of_mem _ htoken)
    rw [List.flatMap_cons, List.flatMap_cons]
    cases piece with
    | plain c => exact .char c hcovers
    | token token =>
      obtain ⟨v, hv, hfilling⟩ := hfill token List.mem_cons_self
      have hpattern : empty.patternPiece (.token token) = ['*'] := rfl
      have hexpand : vars.expandPiece (.token token) = Text.trim v := by rw [expandPiece, hv]
      rw [hpattern, hexpand]
      refine .run hfilling ?_ hcovers
      cases ps with
      | nil => exact nofun
      | cons next ps =>
        cases next with
        | plain c => exact Glob.head?_escape_append c _
        | token next =>
          obtain h | h := (List.isChain_cons_cons.mp hspaced).1 <;> cases h

end Variables

namespace Reference

/-- Search meets every file that a reference written in the directory can name under the values:
the directory has a text, the reference is relative to it, no token stands right behind another, and
the values can stand in the place of a `*`. -/
structure Searchable (base : Path) (raw : Text) (vars : Variables) : Prop where
  base_ne_nil : base.text ≠ []
  relative : (Path.mk (Text.slashed (Text.trim (vars.expand raw)))).isAbsolute = false
  spaced : (Template.ofText raw).Spaced
  filling : ∀ token v, .token token ∈ Template.ofText raw → vars.get? token.name = some v →
    Glob.IsFilling (Text.trim v)

theorem Searchable.covers {base : Path} {raw : Text} {vars : Variables}
    (h : Searchable base raw vars) (hplain : Text.hasTokens (vars.expand raw) = false) :
    Glob.Covers (fullPattern base (Variables.empty.pattern raw))
      (base.resolve (vars.expand raw)).text := by
  have hcovers : Glob.Covers (Variables.empty.pattern raw) (vars.expand raw) := by
    refine Variables.covers_pieces h.spaced fun token htoken => ?_
    obtain ⟨v, hv⟩ := Variables.exists_get?_of_not_hasTokens hplain htoken
    exact ⟨v, hv, h.filling token v htoken hv⟩
  rw [Path.resolve, Path.normalize_join h.base_ne_nil h.relative, fullPattern]
  have hjoined := (Glob.covers_escape base.text).append hcovers.trim.slashed.slash (by simp)
  simpa using hjoined.normalize

end Reference

end ControlFiles
