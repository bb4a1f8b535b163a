import ControlFiles.ControlFile.Load
import ControlFiles.Proofs.Except
import ControlFiles.Proofs.Files.Store
import ControlFiles.Proofs.Reference.Pattern

/-!
# What loading finds for a reference

Loading knows no value of any token, so it takes one pattern for a reference with tokens, in which
each may be anything (`Reference.patterns_eq`). A run knows the values, and takes the first file
that was found under the path that it comes to. `Load.Foresees` says that this file is the one at
that path; it is so for every reference without tokens, and for those that can be searched for, as
long as no other file goes by the same name in another case.
-/

namespace ControlFiles

namespace Reference

theorem bindings_nil (vars : Variables) (tokens : List (Token × Nat)) :
    bindings vars [] tokens = [vars] := by
  rw [bindings]
  split
  · rename_i h
    obtain rfl := List.length_eq_zero_iff.mp (Nat.le_zero.mp h)
    rfl
  · rfl

/-- Without names the tokens are left as they are bound. -/
theorem variants_nil (raw : Text) (vars : Variables) : variants raw vars ⟨[], []⟩ = [vars] := by
  simp only [variants, bindings_nil, List.flatMap_cons, List.flatMap_nil, List.append_nil]

/-- Without names there is one pattern. -/
theorem patterns_eq (raw : Text) (vars : Variables) :
    patterns raw vars ⟨[], []⟩ = [vars.pattern raw] := by
  rw [patterns, variants_nil]
  rfl

theorem search_files {store : Store} {base : Path} {raw : Text} {pattern : Glob.Pattern}
    (h : Glob.parse (fullPattern base (Variables.empty.pattern raw)) = .ok pattern) :
    search store.files base raw .empty ⟨[], []⟩ =
      .ok (Path.sorted
        (store.paths.filter fun q => Glob.fits Store.searchOptions pattern q.text)) := by
  have hsearch : store.search (fullPattern base (Variables.empty.pattern raw)) =
      .ok (store.paths.filter fun q => Glob.fits Store.searchOptions pattern q.text) := by
    rw [Store.search, h]
  rw [search, patterns_eq]
  simp only [searchAll, Store.files, hsearch, pure]
  rfl

theorem searchAll_cons {files : Files Id} {base : Path} (found : List Path) (pattern : Text)
    (patterns : List Text) :
    searchAll (m := Id) files base found (pattern :: patterns) =
      Except.bind (files.search (fullPattern base pattern)) fun more =>
        searchAll (m := Id) files base (more.foldl (fun acc p => p.insertSorted acc) found)
          patterns := by
  cases hsearch : files.search (fullPattern base pattern) <;>
    simp only [searchAll, pure, hsearch] <;> rfl

theorem searchAll_cons_ok {files : Files Id} {base : Path} {found paths : List Path}
    {pattern : Text} {patterns : List Text}
    (h : searchAll (m := Id) files base found (pattern :: patterns) = .ok paths) :
    ∃ more, files.search (fullPattern base pattern) = .ok more ∧
      searchAll (m := Id) files base (more.foldl (fun acc p => p.insertSorted acc) found)
        patterns = .ok paths := by
  rw [searchAll_cons] at h
  exact Except.bind_eq_ok.mp h

/-- A search finds files in order, each once. -/
theorem ascending_of_searchAll {files : Files Id} {base : Path} {patterns : List Text}
    {found paths : List Path} (h : searchAll files base found patterns = .ok paths)
    (hfound : Path.Ascending found) : Path.Ascending paths := by
  induction patterns generalizing found with
  | nil =>
    obtain rfl := Except.ok.inj h
    exact hfound
  | cons pattern patterns ih =>
    obtain ⟨more, -, h⟩ := searchAll_cons_ok h
    exact ih h (hfound.foldl_insertSorted more)

/-- A search finds files of the store. -/
theorem mem_paths_of_searchAll {store : Store} {base : Path} {patterns : List Text}
    {found paths : List Path} (h : searchAll store.files base found patterns = .ok paths)
    (hfound : ∀ p ∈ found, p ∈ store.paths) : ∀ p ∈ paths, p ∈ store.paths := by
  induction patterns generalizing found with
  | nil =>
    obtain rfl := Except.ok.inj h
    exact hfound
  | cons pattern patterns ih =>
    obtain ⟨more, hsearch, h⟩ := searchAll_cons_ok h
    refine ih h fun p hp => ?_
    obtain hp | hp := Path.mem_of_mem_foldl_insertSorted hp
    · exact hfound p hp
    · exact store.mem_paths_of_search hsearch hp

end Reference

namespace Load

/-- What loading finds for the reference has the path, before any other that is written alike. -/
def Foresees (store : Store) (base : Path) (raw : Text) (path : Path) : Prop :=
  ∃ paths, targets store.files base raw = .ok paths ∧
    paths.find? (fun p => Path.key p.text = Path.key path.text) = some path

variable {files : List (Path × Text)} {base : Path} {raw : Text} {vars : Variables}

theorem foresees_of_not_hasTokens {store : Store} (h : Text.hasTokens raw = false) :
    Foresees store base raw (base.resolve (vars.expand raw)) := by
  rw [Variables.expand_of_not_hasTokens h]
  refine ⟨[base.resolve raw], ?_, by simp⟩
  rw [targets, if_neg (by simp [h])]
  rfl

/-- A path is the first that is written alike if it is the only one. -/
theorem find?_key {p : Path} {ps : List Path} (hp : p ∈ ps)
    (hunique : ∀ q ∈ ps, Path.key q.text = Path.key p.text → q = p) :
    ps.find? (fun q => Path.key q.text = Path.key p.text) = some p := by
  cases hfind : ps.find? fun q => Path.key q.text = Path.key p.text with
  | none => exact absurd (List.find?_eq_none.mp hfind p hp) (by simp)
  | some q =>
    have hkey : Path.key q.text = Path.key p.text := by simpa using List.find?_some hfind
    rw [hunique q (List.mem_of_find?_eq_some hfind) hkey]

/-- A stored file that a reference stands for is found, if the reference can be searched for. -/
theorem foresees_of_searchable (h : Reference.Searchable base raw vars)
    (hplain : Text.hasTokens (vars.expand raw) = false)
    (hstored : base.resolve (vars.expand raw) ∈ (Store.ofList files).paths)
    (hunique : ∀ q ∈ (Store.ofList files).paths,
      Path.key q.text = Path.key (base.resolve (vars.expand raw)).text →
        q = base.resolve (vars.expand raw)) :
    Foresees (Store.ofList files) base raw (base.resolve (vars.expand raw)) := by
  by_cases hraw : Text.hasTokens raw = true
  · obtain ⟨pattern, hparse, hfits⟩ := (h.covers hplain).fits (o := Store.searchOptions)
    have hmem : ∀ q, q ∈ Path.sorted ((Store.ofList files).paths.filter fun q =>
        Glob.fits Store.searchOptions pattern q.text) ↔
          q ∈ (Store.ofList files).paths ∧ Glob.fits Store.searchOptions pattern q.text = true := by
      intro q
      rw [Path.mem_sorted fun q hq => Store.normalize_of_mem_ofList (List.mem_filter.mp hq).1,
        List.mem_filter]
    refine ⟨_, (if_pos hraw).trans (Reference.search_files hparse), ?_⟩
    exact find?_key ((hmem _).mpr ⟨hstored, hfits⟩) fun q hq => hunique q ((hmem q).mp hq).1
  · exact foresees_of_not_hasTokens (by simpa using hraw)

end Load

end ControlFiles
