import ControlFiles.Proofs.Glob.Exact
import ControlFiles.Proofs.Reference.Searching
import ControlFiles.Proofs.Reference.Values

/-!
# References whose tokens are known

If every token of a text has a value, its pattern is the expanded text, escaped
(`Variables.Knows.pattern_eq`), and matches that text and no other
(`Variables.Knows.fits_pattern_iff`). This stays so for references on their way to a path
(`Reference.fullPattern_of_knows`), so the search is exact: it meets the files whose path is that of
the reference under one of the ways to bind its tokens (`Reference.search_of_knows`).

The path that is searched for stands behind the text of the directory and a slash
(`Reference.searched`). That is the path that the reference names, unless the directory has no text
or the reference starts at the root (`Reference.searched_eq_resolve`).
-/

namespace ControlFiles

/-! ## Normal forms of escaped paths -/

/-- The segment with its name escaped. -/
def Segment.escape : Segment → Segment
  | .name n => .name (Glob.escape n)
  | s => s

theorem Segment.text_escape (s : Segment) : s.escape.text = Glob.escape s.text := by
  cases s <;> rfl

theorem Segment.ofPart?_escape (part : Text) :
    ofPart? (Glob.escape part) = (ofPart? part).map Segment.escape := by
  have hempty := (Glob.covers_escape part).eq_iff_of_dots [] (by simp)
  have hhere := (Glob.covers_escape part).eq_iff_of_dots "." (by simp)
  have hup := (Glob.covers_escape part).eq_iff_of_dots ".." (by simp)
  simp only [ofPart?, Bool.or_eq_true, List.isEmpty_iff, decide_eq_true_eq, hempty, hhere, hup]
  split_ifs <;> rfl

namespace Path

theorem names_escape (t : Text) : names (Glob.escape t) = (names t).map Segment.escape := by
  rw [names, Glob.split_escape, List.filterMap_map, names, List.map_filterMap]
  exact List.filterMap_congr fun part _ => Segment.ofPart?_escape part

theorem fold_escape (stack : List Segment) (s : Segment) :
    fold (stack.map Segment.escape) s.escape = (fold stack s).map Segment.escape := by
  cases s with
  | up =>
    cases stack with
    | nil => rfl
    | cons top stack => cases top <;> rfl
  | _ => rfl

theorem foldl_fold_escape (ss stack : List Segment) :
    (ss.map Segment.escape).foldl fold (stack.map Segment.escape) =
      (ss.foldl fold stack).map Segment.escape := by
  induction ss generalizing stack with
  | nil => rfl
  | cons s ss ih => rw [List.map_cons, List.foldl_cons, List.foldl_cons, fold_escape, ih]

theorem textOf_escape (ss : List Segment) :
    textOf (ss.map Segment.escape) = Glob.escape (textOf ss) := by
  have hjoin : ∀ ss : List Segment, Text.join "/" ((ss.map Segment.escape).map Segment.text) =
      Glob.escape (Text.join "/" (ss.map Segment.text)) := fun ss => by
    rw [Glob.escape_join, List.map_map, List.map_map]
    exact congrArg _ (List.map_congr_left fun s _ => s.text_escape)
  cases ss with
  | nil => rfl
  | cons s ss =>
    cases s with
    | root => exact congrArg ('/' :: ·) (hjoin ss)
    | here => exact hjoin (.here :: ss)
    | up => exact hjoin (.up :: ss)
    | name n => exact hjoin (.name n :: ss)

/-- The normal form of an escaped path is its normal form, escaped. -/
theorem normalize_escape (t : Text) :
    (normalize ⟨Glob.escape t⟩).text = Glob.escape (normalize ⟨t⟩).text := by
  have hroot : rootOf (Glob.escape t) = (rootOf t).map Segment.escape := by
    rw [(Glob.covers_escape t).rootOf, rootOf]
    split <;> rfl
  rw [normalize_eq, normalize_eq, hroot, names_escape, ← List.map_append]
  refine Eq.trans ?_ (textOf_escape _)
  rw [List.map_reverse]
  exact congrArg (fun stack => textOf stack.reverse) (foldl_fold_escape _ [])

end Path

namespace Variables

/-- The pattern of a text whose tokens have values is the text with the values in their place,
escaped. -/
theorem Knows.pattern_eq {vars : Variables} {t : Text} (h : vars.Knows t) :
    vars.pattern t = Glob.escape (vars.expand t) := by
  have hflat : ∀ ps : List Text, Glob.escape ps.flatten = (ps.map Glob.escape).flatten := by
    intro ps
    induction ps with
    | nil => rfl
    | cons p ps ih =>
      rw [List.flatten_cons, Glob.escape_append, ih, List.map_cons, List.flatten_cons]
  rw [pattern, expand, List.flatMap_def, List.flatMap_def, hflat, List.map_map]
  refine congrArg _ (List.map_congr_left fun piece hpiece => ?_)
  cases piece with
  | plain c => rfl
  | token token =>
    obtain ⟨v, hv⟩ := h.exists_get? hpiece
    rw [Function.comp_apply, patternPiece, expandPiece, hv]

/-- With a value for every token, the pattern of a text is well formed, and what it matches is the
expanded text, in whatever case. -/
theorem Knows.fits_pattern_iff {vars : Variables} {t : Text} (h : vars.Knows t) :
    ∃ pattern, Glob.parse (vars.pattern t) = .ok pattern ∧
      ∀ s, Glob.fits Store.searchOptions pattern s = true ↔
        Text.alike s (vars.expand t) = true := by
  have hparse : Glob.parse (vars.pattern t) = .ok (Glob.exactly (vars.expand t)) := by
    rw [h.pattern_eq, Glob.parse_escape]
  refine ⟨_, hparse, fun s => ?_⟩
  rw [Glob.fits_exactly]

/-- Brackets and stars stand for themselves, in the text, in a value and where the two meet. -/
theorem Knows.fits_pattern_iff_special :
    let vars := (Variables.empty.set "v" " *[!A-z]? ").set "~S1~" "**"
    let t : Text := "[<<V>>]/<<~s~>><<~s1~>><<v>>!.tgc"
    vars.Knows t ∧ vars.expand t = "[*[!A-z]?]/*****[!A-z]?!.tgc" ∧
      ∃ pattern, Glob.parse (vars.pattern t) = .ok pattern ∧
        Glob.fits Store.searchOptions pattern "[*[!a-Z]?]/*****[!a-z]?!.TGC" = true ∧
        Glob.fits Store.searchOptions pattern "[*[!A-z]?]/******[!A-z]?!.tgc" = false := by
  intro vars t
  have hknows : vars.Knows t := by decide +kernel
  have hexpand : vars.expand t = "[*[!A-z]?]/*****[!A-z]?!.tgc" := by decide +kernel
  obtain ⟨pattern, hparse, hfits⟩ := hknows.fits_pattern_iff
  simp only [hexpand] at hfits
  refine ⟨hknows, hexpand, pattern, hparse, (hfits _).mpr (by decide +kernel), ?_⟩
  rw [← Bool.not_eq_true, hfits]
  decide +kernel

theorem Knows.mono {vars vars' : Variables} {t : Text} (h : vars.Knows t)
    (hmono : ∀ name, vars.has name = true → vars'.has name = true) : vars'.Knows t :=
  fun token htoken => hmono _ (h token htoken)

theorem has_set {vars : Variables} {other : Text} (h : vars.has other = true) (name value : Text) :
    (vars.set name value).has other = true := by
  rw [has, get?_set]
  split
  · rfl
  · exact h

theorem has_setAll {vars : Variables} {other : Text} (h : vars.has other = true)
    (pairs : List (Text × Text)) : (vars.setAll pairs).has other = true := by
  induction pairs generalizing vars with
  | nil => exact h
  | cons pair pairs ih => exact ih (has_set h _ _)

end Variables

namespace Reference

theorem has_byPosition {vars : Variables} {other : Text} (h : vars.has other = true)
    (names : List Text) (tokens : List (Token × Nat)) :
    (byPosition vars names tokens).has other = true := by
  induction tokens generalizing vars with
  | nil => exact h
  | cons token tokens ih =>
    refine ih ?_
    dsimp only
    split
    · exact Variables.has_set h _ _
    · exact h

theorem has_of_mem_bindings {vars v : Variables} {names : List Text} {tokens : List (Token × Nat)}
    (hv : v ∈ bindings vars names tokens) {other : Text} (h : vars.has other = true) :
    v.has other = true := by
  rw [bindings] at hv
  split at hv
  · rw [List.mem_singleton.mp hv]
    exact has_byPosition h names tokens
  · obtain ⟨chosen, -, rfl⟩ := List.mem_map.mp hv
    exact Variables.has_setAll h _

/-- Binding axis tokens to names takes no value away. -/
theorem knows_of_mem_variants {vars v : Variables} {template : Text} {chosen : Chosen}
    (hv : v ∈ variants template vars chosen) (h : vars.Knows template) : v.Knows template := by
  obtain ⟨w, hw, hv⟩ := List.mem_flatMap.mp hv
  exact h.mono fun name hname => has_of_mem_bindings hv (has_of_mem_bindings hw hname)

/-- The path that is searched for when a reference is written in a directory. -/
def searched (base : Path) (reference : Text) : Path :=
  Path.normalize ⟨base.text ++ "/" ++ Text.slashed (Text.trim reference)⟩

/-- The directory has a text and the reference is relative to it, or neither. -/
def Placed (base : Path) (reference : Text) : Prop :=
  base.text = [] ↔ (Path.mk (Text.slashed (Text.trim reference))).isAbsolute = true

instance (base : Path) (reference : Text) : Decidable (Placed base reference) :=
  inferInstanceAs (Decidable (_ ↔ _))

/-- Then the path that is searched for is the one that the reference names. -/
theorem searched_eq_resolve {base : Path} {reference : Text} (h : Placed base reference) :
    searched base reference = base.resolve reference := by
  rw [searched, Path.resolve]
  by_cases hbase : base.text = []
  · have habsolute := h.mp hbase
    rw [Path.join, if_pos habsolute, hbase]
    exact Path.normalize_cons_slash habsolute
  · have hrelative := Bool.eq_false_iff.mpr fun habsolute => hbase (h.mpr habsolute)
    rw [Path.normalize_join hbase hrelative]
    simp

theorem fullPattern_of_knows {vars : Variables} {template : Text} (h : vars.Knows template)
    (base : Path) :
    fullPattern base (vars.pattern template) =
      Glob.escape (searched base (vars.expand template)).text := by
  rw [fullPattern, h.pattern_eq, Glob.trim_escape, Glob.slashed_escape, searched,
    ← Path.normalize_escape, Glob.escape_append, Glob.escape_append]
  rfl

/-! ## The search -/

/-- The files that a pattern meets. -/
def matching (store : Store) (base : Path) (pattern : Text) : List Path :=
  (store.search (fullPattern base pattern)).toOption.getD []

/-- If no pattern is malformed, all the files that some pattern meets are added. -/
theorem searchAll_eq {store : Store} {base : Path} {patterns : List Text}
    (h : ∀ p ∈ patterns, ∃ paths, store.search (fullPattern base p) = .ok paths)
    (found : List Path) :
    searchAll store.files base found patterns = .ok
      ((patterns.flatMap (matching store base)).foldl (fun acc q => q.insertSorted acc) found) := by
  induction patterns generalizing found with
  | nil => rfl
  | cons p patterns ih =>
    obtain ⟨paths, hpaths⟩ := h p List.mem_cons_self
    have hmatching : matching store base p = paths := by
      rw [matching, hpaths]
      rfl
    have hrest := ih (fun q hq => h q (List.mem_cons_of_mem p hq))
      (paths.foldl (fun acc q => q.insertSorted acc) found)
    have hsearch : store.files.search (fullPattern base p) = .ok paths := hpaths
    rw [List.flatMap_cons, hmatching, List.foldl_append, ← hrest, searchAll_cons, hsearch]
    rfl

theorem mem_patterns {template : Text} {vars : Variables} {chosen : Chosen} {p : Text} :
    p ∈ patterns template vars chosen ↔
      ∃ v ∈ variants template vars chosen, v.pattern template = p := by
  have hfold : ∀ new acc : List Text, p ∈ new.foldl addPattern acc ↔ p ∈ acc ∨ p ∈ new := by
    intro new
    induction new with
    | nil => simp
    | cons q new ih =>
      intro acc
      have hadd : p ∈ addPattern acc q ↔ p ∈ acc ∨ p = q := by
        rw [addPattern]
        split
        · rename_i hq
          refine ⟨.inl, fun hp => hp.elim id fun hp => ?_⟩
          rw [hp]
          simpa using hq
        · simp
      rw [List.foldl_cons, ih, hadd, List.mem_cons, or_assoc]
  rw [patterns, hfold]
  simp

/-- The files that the search meets have the path of the reference under some of the ways to bind
its tokens, in whatever case. -/
theorem search_of_knows (files : List (Path × Text)) (base : Path) {template : Text}
    {vars : Variables} (chosen : Chosen) (h : vars.Knows template) :
    search (Store.ofList files).files base template vars chosen =
      .ok ((Store.ofList files).paths.filter fun p =>
        (variants template vars chosen).any fun v =>
          Text.alike p.text (searched base (v.expand template)).text) := by
  have hsearch : ∀ v ∈ variants template vars chosen,
      (Store.ofList files).search (fullPattern base (v.pattern template)) =
        .ok ((Store.ofList files).paths.filter fun p =>
          Text.alike p.text (searched base (v.expand template)).text) := fun v hv => by
    rw [fullPattern_of_knows (knows_of_mem_variants hv h), Store.search_escape]
  have hall : ∀ p ∈ patterns template vars chosen,
      ∃ paths, (Store.ofList files).search (fullPattern base p) = .ok paths := by
    intro p hp
    obtain ⟨v, hv, rfl⟩ := mem_patterns.mp hp
    exact ⟨_, hsearch v hv⟩
  have hmem : ∀ p,
      p ∈ (patterns template vars chosen).flatMap (matching (Store.ofList files) base) ↔
        p ∈ (Store.ofList files).paths ∧ ∃ v ∈ variants template vars chosen,
          Text.alike p.text (searched base (v.expand template)).text = true := by
    intro p
    rw [List.mem_flatMap]
    constructor
    · rintro ⟨pattern, hpattern, hp⟩
      obtain ⟨v, hv, rfl⟩ := mem_patterns.mp hpattern
      rw [matching, hsearch v hv] at hp
      obtain ⟨hp, halike⟩ := List.mem_filter.mp hp
      exact ⟨hp, v, hv, halike⟩
    · rintro ⟨hp, v, hv, halike⟩
      refine ⟨_, mem_patterns.mpr ⟨v, hv, rfl⟩, ?_⟩
      rw [matching, hsearch v hv]
      exact List.mem_filter.mpr ⟨hp, halike⟩
  rw [search, searchAll_eq hall]
  refine congrArg _ (Path.Ascending.eq_of_mem_iff (Path.ascending_sorted _)
    ((Store.ascending_ofList files).filter _) fun p => ?_)
  change p ∈ Path.sorted _ ↔ _
  rw [Path.mem_sorted fun q hq => Store.normalize_of_mem_ofList ((hmem q).mp hq).1, hmem,
    List.mem_filter, List.any_eq_true]

end Reference

open Reference

/-- With a value for every token, the search meets exactly the files whose path is that of the
reference, in whatever case: behind the text of the directory and a slash, under some of the ways to
bind its tokens to names. Where the directory has a text and the reference is relative to it, or
neither, and no names are chosen, these are the files that the reference names. -/
theorem search_eq_filter (files : List (Path × Text)) (base : Path) {template : Text}
    {vars : Variables} (h : vars.Knows template) :
    (∀ chosen, search (Store.ofList files).files base template vars chosen =
      .ok ((Store.ofList files).paths.filter fun p =>
        (variants template vars chosen).any fun v =>
          Text.alike p.text (searched base (v.expand template)).text)) ∧
    (Placed base (vars.expand template) →
      search (Store.ofList files).files base template vars ⟨[], []⟩ =
        .ok ((Store.ofList files).paths.filter fun p =>
          Text.alike p.text (base.resolve (vars.expand template)).text)) := by
  refine ⟨fun chosen => search_of_knows files base chosen h, fun hplaced => ?_⟩
  rw [search_of_knows files base _ h, variants_nil]
  simp only [List.any_cons, List.any_nil, Bool.or_false, searched_eq_resolve hplaced]

/-- Nothing in the directory, the reference or the value is taken for a wildcard. -/
theorem search_eq_filter_special :
    let files : List (Path × Text) := [(⟨"/m/[x]/GEO_[a].tgc"⟩, []), (⟨"/m/[x]/geo_a.tgc"⟩, [])]
    let vars := Variables.empty.set "v" " [A] "
    let template : Text := "sub\\..\\geo_<<V>>.tgc"
    vars.Knows template ∧ Placed ⟨"/m/[x]"⟩ (vars.expand template) ∧
      search (Store.ofList files).files ⟨"/m/[x]"⟩ template vars ⟨[], []⟩ =
        .ok [⟨"/m/[x]/GEO_[a].tgc"⟩] := by
  intro files vars template
  have hknows : vars.Knows template := by decide +kernel
  have hplaced : Placed ⟨"/m/[x]"⟩ (vars.expand template) := by decide +kernel
  refine ⟨hknows, hplaced, ?_⟩
  refine ((search_eq_filter files ⟨"/m/[x]"⟩ hknows).2 hplaced).trans (congrArg Except.ok ?_)
  decide +kernel

/-- It does not hold that the search meets the files that a reference with known tokens names: not
if the directory has no text, and not if the reference starts at the root. -/
theorem not_forall_search_eq_filter :
    (¬ ∀ (files : List (Path × Text)) (template : Text) (vars : Variables), vars.Knows template →
      search (Store.ofList files).files ⟨[]⟩ template vars ⟨[], []⟩ =
        .ok ((Store.ofList files).paths.filter fun p =>
          Text.alike p.text (Path.resolve ⟨[]⟩ (vars.expand template)).text)) ∧
    (¬ ∀ (files : List (Path × Text)) (template : Text) (vars : Variables), vars.Knows template →
      search (Store.ofList files).files ⟨"/m"⟩ template vars ⟨[], []⟩ =
        .ok ((Store.ofList files).paths.filter fun p =>
          Text.alike p.text (Path.resolve ⟨"/m"⟩ (vars.expand template)).text)) := by
  constructor
  · intro h
    have hsearch := h [(⟨"a.tgc"⟩, [])] "<<V>>.tgc" (Variables.empty.set "V" "a")
      (by decide +kernel)
    exact absurd (congrArg Except.toOption hsearch) (by decide +kernel)
  · intro h
    have hsearch := h [(⟨"/m/a.tgc"⟩, [])] "/m/<<V>>.tgc" (Variables.empty.set "V" "a")
      (by decide +kernel)
    exact absurd (congrArg Except.toOption hsearch) (by decide +kernel)

end ControlFiles
