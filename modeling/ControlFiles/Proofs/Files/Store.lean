import ControlFiles.Files.Store
import ControlFiles.Proofs.Path.Order

/-!
# What a store knows

A path is found in a store exactly if its normal form is that of a file or of a directory above one
(`Store.canonical_ok`), and a file that can be read is found (`Store.holds_of_read`). Writing a file
changes the text of that file alone (`Store.get?_write`) and loses nothing that was found
(`Store.holds_write`). A store that is written file by file holds their normal forms, in order
(`Store.paths_ofList`).
-/

namespace ControlFiles

namespace Store

variable {s : Store} {path real : Path}

theorem canonical_ok :
    s.canonical path = .ok real ↔ s.holds path = true ∧ real = path.normalize := by
  rw [canonical, holds]
  cases s.paths.any path.normalize.isUnder <;> simp [eq_comm]

theorem toBool_canonical (s : Store) (path : Path) : (s.canonical path).toBool = s.holds path := by
  rw [canonical, holds]
  cases s.paths.any path.normalize.isUnder <;> rfl

/-- Two ways to write a path are found or not alike. -/
theorem holds_congr {p q : Path} (h : p.normalize = q.normalize) : s.holds p = s.holds q := by
  rw [holds, holds, h]

theorem read_ok {text : Text} : s.read path = .ok text ↔ s.get? path = some text := by
  rw [read]
  cases s.get? path <;> simp

theorem mem_paths_of_read {text : Text} (h : s.read path = .ok text) :
    path.normalize ∈ s.paths := by
  rw [read_ok, get?, Option.map_eq_some_iff] at h
  obtain ⟨entry, hfind, -⟩ := h
  have hpath : entry.1 = path.normalize := by simpa using List.find?_some hfind
  exact hpath ▸ List.mem_map_of_mem (List.mem_of_find?_eq_some hfind)

theorem holds_of_read {text : Text} (h : s.read path = .ok text) : s.holds path = true :=
  List.any_eq_true.mpr ⟨_, mem_paths_of_read h, List.isPrefixOf_iff_prefix.mpr List.prefix_rfl⟩

theorem mem_paths_of_search {pattern : Text} {paths : List Path}
    (h : s.search pattern = .ok paths) (hpath : path ∈ paths) : path ∈ s.paths := by
  rw [search] at h
  split at h
  · obtain rfl := Except.ok.inj h
    exact (List.mem_filter.mp hpath).1
  · cases h

/-! ## Writing -/

/-- Writing a file changes the text of that file and of no other. -/
theorem get?_write (s : Store) (path q : Path) (text : Text) :
    (s.write path text).get? q = if q.normalize = path.normalize then some text else s.get? q := by
  obtain ⟨entries⟩ := s
  rw [write, get?, get?]
  dsimp only
  induction entries with
  | nil => by_cases h : q.normalize = path.normalize <;> simp [insert, h, Ne.symm]
  | cons first entries ih =>
    rw [insert]
    cases horder : path.normalize.order first.1 with
    | lt => by_cases h : q.normalize = path.normalize <;> simp [List.find?_cons, h, Ne.symm]
    | eq =>
      -- an entry that is read again is in normal form, and is then the one that is written
      have hsame := Path.normalize_eq_of_order horder
      rw [path.normalize_normalize] at hsame
      by_cases h : q.normalize = path.normalize
      · simp [h]
      · have hother : first.1 ≠ q.normalize := by
          intro heq
          rw [heq, q.normalize_normalize] at hsame
          exact h hsame.symm
        simp [h, hother, Ne.symm h]
    | gt =>
      have hother : first.1 ≠ path.normalize := by
        intro heq
        rw [heq, @Std.ReflCmp.compare_self _ Path.order] at horder
        cases horder
      by_cases h : first.1 = q.normalize
      · have h' : q.normalize ≠ path.normalize := h ▸ hother
        simp [h, h']
      · rw [List.find?_cons_of_neg (by simpa using h), List.find?_cons_of_neg (by simpa using h)]
        exact ih

/-- What is found in a store is found after a file is written. -/
theorem holds_write {q : Path} (h : s.holds q = true) (path : Path) (text : Text) :
    (s.write path text).holds q = true := by
  obtain ⟨entries⟩ := s
  rw [holds, paths, List.any_map, List.any_eq_true] at h ⊢
  obtain ⟨entry, hentry, hunder⟩ := h
  rw [write]
  dsimp only at hentry ⊢
  induction entries with
  | nil => cases hentry
  | cons first entries ih =>
    rw [insert]
    cases horder : path.normalize.order first.1 with
    | lt => exact ⟨entry, List.mem_cons_of_mem _ hentry, hunder⟩
    | eq =>
      obtain rfl | hentry := List.mem_cons.mp hentry
      · refine ⟨_, List.mem_cons_self, ?_⟩
        rwa [Function.comp_apply, Path.isUnder, Path.orderSegments_eq horder]
      · exact ⟨entry, List.mem_cons_of_mem _ hentry, hunder⟩
    | gt =>
      obtain rfl | hentry := List.mem_cons.mp hentry
      · exact ⟨entry, List.mem_cons_self, hunder⟩
      · obtain ⟨found, hfound, hunder⟩ := ih hentry
        exact ⟨found, List.mem_cons_of_mem _ hfound, hunder⟩

theorem map_fst_insert {text : Text} {entries : List (Path × Text)} (hpath : path.normalize = path)
    (hentries : ∀ entry ∈ entries, entry.1.normalize = entry.1) :
    (insert path text entries).map (·.1) = Path.insertSorted path (entries.map (·.1)) := by
  induction entries with
  | nil => rfl
  | cons first entries ih =>
    have hrest := ih fun entry h => hentries entry (List.mem_cons_of_mem first h)
    rw [insert, List.map_cons, Path.insertSorted]
    cases horder : path.order first.1 with
    | lt => rfl
    | eq =>
      -- the entry is written anew, under the same path
      have hsame := Path.normalize_eq_of_order horder
      rw [hpath, hentries first List.mem_cons_self] at hsame
      rw [hsame]
      rfl
    | gt => exact congrArg (first.1 :: ·) hrest

/-- A store of files has their normal forms, in order. -/
theorem paths_ofList (files : List (Path × Text)) :
    (ofList files).paths = Path.sorted (files.map fun file => file.1.normalize) := by
  have hfold : ∀ (files : List (Path × Text)) (s : Store), (∀ p ∈ s.paths, p.normalize = p) →
      (files.foldl (fun s file => s.write file.1 file.2) s).paths =
        (files.map fun file => file.1.normalize).foldl
          (fun acc p => Path.insertSorted p acc) s.paths := by
    intro files
    induction files with
    | nil => exact fun s hs => rfl
    | cons file files ih =>
      intro s hs
      have hnormal := file.1.normalize_normalize
      have hwrite : (s.write file.1 file.2).paths = Path.insertSorted file.1.normalize s.paths :=
        map_fst_insert hnormal fun entry hentry => hs _ (List.mem_map_of_mem hentry)
      rw [List.foldl_cons, List.map_cons, List.foldl_cons, ih, hwrite]
      intro p hp
      rw [hwrite] at hp
      obtain rfl | hp := Path.mem_of_mem_insertSorted hp
      · exact hnormal
      · exact hs p hp
  exact hfold files ⟨[]⟩ (by simp [paths])

theorem normalize_of_mem_ofList {files : List (Path × Text)} {p : Path}
    (h : p ∈ (ofList files).paths) : p.normalize = p := by
  have hnormal : ∀ p ∈ files.map (fun file => file.1.normalize), p.normalize = p := by
    intro p hp
    obtain ⟨file, -, rfl⟩ := List.mem_map.mp hp
    exact file.1.normalize_normalize
  rw [paths_ofList, Path.mem_sorted hnormal] at h
  exact hnormal p h

theorem ascending_ofList (files : List (Path × Text)) : Path.Ascending (ofList files).paths := by
  rw [paths_ofList]
  exact Path.ascending_sorted _

end Store

end ControlFiles
