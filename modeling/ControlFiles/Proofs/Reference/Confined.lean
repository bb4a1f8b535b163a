import ControlFiles.Proofs.Glob.Forms
import ControlFiles.Proofs.Reference.Known

/-!
# References whose tokens stand apart

The patterns of a reference are written for forms: the reference with the values of its known
tokens, and an open place for each of the others (`Variables.form`). Placing a pattern in a
directory leaves it the pattern of a form (`Reference.isForm_fullPattern`), and brings no stars
together (`Reference.stars_of_fullPattern`).

So each pattern that is searched for is confined to single parts of paths exactly if no two stars
stand in a row in it, and the search fails exactly if such stars are not all of a part
(`patterns_confined_iff`).
-/

namespace ControlFiles

namespace Path

theorem isForm_normalize {t : Text} (h : Glob.IsForm t) : Glob.IsForm (normalize ⟨t⟩).text := by
  obtain ⟨front, parts, hnormal, hfront, hparts⟩ := exists_normalize_join t
  have hjoin : Glob.IsForm (Text.join "/" parts) := .join fun part hpart => by
    obtain rfl | hpart := hparts part hpart
    · exact .nil
    · exact h.split part hpart
  rw [hnormal]
  obtain rfl | rfl := hfront
  · exact hjoin
  · exact (Glob.IsForm.escape "/").append hjoin

/-- What stands within one part of a normal form stands in the path. -/
theorem infix_of_infix_normalize {mark t : Text} (hne : mark ≠ []) (hslash : '/' ∉ mark)
    (h : mark <:+: (normalize ⟨t⟩).text) : mark <:+: t := by
  obtain ⟨front, parts, hnormal, hfront, hparts⟩ := exists_normalize_join t
  have hnil : ¬ mark <:+: [] := fun h => hne (List.eq_nil_of_infix_nil h)
  have hjoin : mark <:+: Text.join "/" parts := by
    rw [hnormal] at h
    obtain rfl | rfl := hfront
    · exact h
    · exact (Text.infix_of_infix_append_cons (a := []) hslash h).resolve_left hnil
  obtain ⟨part, hpart, hmark⟩ := Text.infix_of_infix_join hne hslash hjoin
  obtain rfl | hpart := hparts part hpart
  · exact absurd hmark hnil
  · exact hmark.trans (Text.infix_of_mem_split hpart)

end Path

namespace Variables

/-- The places of a piece: a token without a value is one open place. -/
def formPiece (vars : Variables) : Piece → Glob.Form
  | .plain c => [some c]
  | .token t =>
    match vars.get? t.name with
    | some value => (Text.trim value).map some
    | none => [none]

/-- The text with its known tokens replaced by their values, and open places for the others. -/
def form (vars : Variables) (t : Text) : Glob.Form := (Template.ofText t).flatMap vars.formPiece

theorem pattern_form (vars : Variables) (t : Text) : (vars.form t).pattern = vars.pattern t := by
  have hpiece : ∀ piece, (vars.formPiece piece).pattern = vars.patternPiece piece := by
    intro piece
    cases piece with
    | plain c => exact Glob.Form.pattern_map_some [c]
    | token token =>
      rw [formPiece, patternPiece]
      cases vars.get? token.name with
      | some value => exact Glob.Form.pattern_map_some _
      | none => rfl
  rw [Glob.Form.pattern, form, List.flatMap_assoc, pattern]
  exact List.flatMap_congr fun piece _ => hpiece piece

end Variables

namespace Reference

/-- Placed in a directory, the pattern of a form is the pattern of a form. -/
theorem isForm_fullPattern (base : Path) {p : Text} (h : Glob.IsForm p) :
    Glob.IsForm (fullPattern base p) := by
  have hbase := (Glob.IsForm.escape base.text).append (.escape "/")
  exact Path.isForm_normalize (hbase.append h.trim.slashed)

/-- Placing a pattern in a directory brings no stars together. -/
theorem stars_of_fullPattern {base : Path} {p : Text}
    (h : ("**" : Text) <:+: fullPattern base p) : ("**" : Text) <:+: p := by
  have hjoined := Path.infix_of_infix_normalize (by decide) (by decide) h
  rw [List.append_assoc] at hjoined
  obtain hbase | hpattern := Text.infix_of_infix_append_cons (by decide) hjoined
  · have hplain : Glob.Form.Apart (base.text.map some) := fun h => by
      have hnone : none ∈ base.text.map some := h.subset List.mem_cons_self
      simp at hnone
    rw [← Glob.Form.pattern_map_some, Glob.Form.stars_infix_pattern_iff] at hbase
    exact absurd hplain hbase
  · exact (Text.infix_of_infix_slashed (by decide) hpattern).trans (Text.trim_infix p)

theorem isForm_of_mem_patterns {template : Text} {vars : Variables} {chosen : Chosen} {p : Text}
    (hp : p ∈ patterns template vars chosen) : Glob.IsForm p := by
  obtain ⟨v, -, rfl⟩ := mem_patterns.mp hp
  exact v.pattern_form template ▸ Glob.isForm_pattern _

theorem exists_search_of_searchAll {store : Store} {base : Path} {patterns : List Text}
    {found paths : List Path} (h : searchAll store.files base found patterns = .ok paths) :
    ∀ p ∈ patterns, ∃ paths, store.search (fullPattern base p) = .ok paths := by
  induction patterns generalizing found with
  | nil => exact nofun
  | cons first patterns ih =>
    obtain ⟨more, hmore, h⟩ := searchAll_cons_ok h
    exact List.forall_mem_cons.mpr ⟨⟨more, hmore⟩, ih h⟩

/-- The search fails only if a pattern is malformed. -/
theorem exists_search_iff {store : Store} {base : Path} {template : Text} {vars : Variables}
    {chosen : Chosen} :
    (∃ paths, search store.files base template vars chosen = .ok paths) ↔
      ∀ p ∈ patterns template vars chosen, ∃ tokens,
        Glob.parse (fullPattern base p) = .ok tokens := by
  have hsearch : ∀ p, (∃ paths, store.search p = .ok paths) ↔
      ∃ tokens, Glob.parse p = .ok tokens := by
    intro p
    rw [Store.search]
    cases Glob.parse p <;> simp
  simp only [← hsearch]
  constructor
  · rintro ⟨paths, h⟩
    exact exists_search_of_searchAll h
  · exact fun h => ⟨_, searchAll_eq h []⟩

end Reference

open Reference

/-- A pattern that is searched for is confined to single parts of paths exactly if no stars stand in
a row in it; the search comes to an end without an error exactly if such stars are always all of a
part. So it is as it should be if no two tokens without a value stand side by side, with nothing
between them or nothing but values that are blank. -/
theorem patterns_confined_iff (store : Store) (base : Path) (template : Text) (vars : Variables)
    (chosen : Chosen) :
    (∀ p ∈ patterns template vars chosen,
      Glob.Confined (fullPattern base p) ↔ ¬ ("**" : Text) <:+: fullPattern base p) ∧
    ((∃ paths, search store.files base template vars chosen = .ok paths) ↔
      ∀ p ∈ patterns template vars chosen, ∀ part ∈ Text.split '/' (fullPattern base p),
        Glob.Sound part) ∧
    ((∀ v ∈ variants template vars chosen, (v.form template).Apart) →
      (∀ p ∈ patterns template vars chosen, Glob.Confined (fullPattern base p)) ∧
        ∃ paths, search store.files base template vars chosen = .ok paths) := by
  have hconfined : ∀ p ∈ patterns template vars chosen,
      (Glob.Confined (fullPattern base p) ↔ ¬ ("**" : Text) <:+: fullPattern base p) := by
    intro p hp
    obtain ⟨f, hf⟩ := (isForm_fullPattern base (isForm_of_mem_patterns hp)).exists_form
    rw [← hf]
    exact f.confined_iff
  refine ⟨hconfined, ?_, fun hapart => ?_⟩
  · rw [exists_search_iff]
    refine forall₂_congr fun p hp => ?_
    obtain ⟨f, hf⟩ := (isForm_fullPattern base (isForm_of_mem_patterns hp)).exists_form
    rw [← hf]
    exact f.parse_ok_iff
  · have hall : ∀ p ∈ patterns template vars chosen, Glob.Confined (fullPattern base p) := by
      intro p hp
      rw [hconfined p hp]
      intro hstars
      obtain ⟨v, hv, rfl⟩ := mem_patterns.mp hp
      have hpattern := stars_of_fullPattern hstars
      rw [← v.pattern_form, Glob.Form.stars_infix_pattern_iff] at hpattern
      exact hpattern (hapart v hv)
    refine ⟨hall, exists_search_iff.mpr fun p hp => ?_⟩
    obtain ⟨f, -, tokens, hparse, -⟩ := hall p hp
    exact ⟨tokens, hparse⟩

/-- Tokens that are kept apart by a value: a star for each of them, and the stars of the value
stand for themselves. -/
theorem patterns_confined_iff_apart :
    let store := Store.ofList [(⟨"/m/xa**b/[c].tgc"⟩, []), (⟨"/m/xa/**b/[c].tgc"⟩, [])]
    let template : Text := "<<~s1~>><<A>><<V>><<B>>\\[<<C>>].tgc"
    let vars := Variables.empty.set "v" " ** "
    let chosen : Chosen := ⟨["x"], []⟩
    let p : Text := "x*[*][*]*\\[[]*[]].tgc"
    (∀ v ∈ variants template vars chosen, (v.form template).Apart) ∧
      p ∈ patterns template vars chosen ∧
      fullPattern ⟨"/m"⟩ p = "/m/x*[*][*]*/[[]*[]].tgc" ∧ Glob.Confined (fullPattern ⟨"/m"⟩ p) ∧
      ∃ paths, search store.files ⟨"/m"⟩ template vars chosen = .ok paths := by
  intro store template vars chosen p
  have hapart : ∀ v ∈ variants template vars chosen, (v.form template).Apart := by decide +kernel
  have hp : p ∈ patterns template vars chosen := by decide +kernel
  obtain ⟨hconfined, hsearch⟩ :=
    (patterns_confined_iff store ⟨"/m"⟩ template vars chosen).2.2 hapart
  exact ⟨hapart, hp, by decide +kernel, hconfined p hp, hsearch⟩

/-- It does not hold that the patterns are confined to single parts of paths, nor that the search
comes to an end without an error: the stars of two tokens side by side are malformed together, or,
if they are all of a part, reach over directories. -/
theorem not_forall_patterns_confined :
    (¬ ∀ (files : List (Path × Text)) (base : Path) (template : Text) (vars : Variables)
        (chosen : Chosen), ∃ paths,
          search (Store.ofList files).files base template vars chosen = .ok paths) ∧
    (¬ ∀ (base : Path) (template : Text) (vars : Variables) (chosen : Chosen),
        ∀ p ∈ patterns template vars chosen, ∀ tokens,
          Glob.parse (fullPattern base p) = .ok tokens → Glob.Confined (fullPattern base p)) := by
  constructor
  · intro h
    obtain ⟨paths, hpaths⟩ := h [(⟨"/m/a.tgc"⟩, [])] ⟨"/m"⟩ "<<A>><<B>>.tgc" .empty ⟨[], []⟩
    have hfails : Except.toOption (search (m := Id) (Store.ofList [(⟨"/m/a.tgc"⟩, [])]).files ⟨"/m"⟩
        "<<A>><<B>>.tgc" .empty ⟨[], []⟩) = none := by decide +kernel
    rw [hpaths] at hfails
    cases hfails
  · intro h
    let f : Glob.Form := "/m/".toList.map some ++ [none, none] ++ "/x.tgc".toList.map some
    have hf : f.pattern = fullPattern ⟨"/m"⟩ "**/x.tgc" := by decide +kernel
    have hstars : ("**" : Text) <:+: f.pattern := by decide +kernel
    obtain ⟨tokens, hparse⟩ := f.parse_ok_iff.mpr (by decide +kernel)
    have hconfined := h ⟨"/m"⟩ "<<A>><<B>>/x.tgc" .empty ⟨[], []⟩ "**/x.tgc" (by decide +kernel)
    rw [← hf, f.confined_iff] at hconfined
    exact hconfined tokens hparse hstars

end ControlFiles
