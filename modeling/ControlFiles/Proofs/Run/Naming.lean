import ControlFiles.Proofs.Path.Below
import ControlFiles.Proofs.Reference.Searching
import ControlFiles.Proofs.Run.Tokens
import ControlFiles.Proofs.Run.Visiting

/-!
# Values that name files

A reference of a run to a control file or a database has one file, and its value names that file,
taken from the directory of the file that the reference stands in (`resolve_names`). A file that was
searched for is shown below that directory if it lies there, and else as it was found, which names
it only if the path taken from the directory is the path itself (`Resolve.resolve_shown`): not if
both are relative (`not_valuesName`).
-/

namespace ControlFiles

namespace Resolve

/-- What is shown of a path names it if the path lies below the directory, or is itself when it is
taken from there. -/
theorem resolve_shown {base path : Path} (hpath : path.normalize = path)
    (htrim : Text.trim (shown base path) = shown base path) (hback : '\\' ∉ shown base path) :
    base.resolve (shown base path) = path ↔
      base.isUnder path = true ∨ (base.join path).normalize = path := by
  rw [Path.resolve, htrim, Text.slashed_of_not_mem hback, shown]
  cases hunder : base.isUnder path with
  | true =>
    obtain ⟨rest, hrest⟩ : ∃ rest, Path.below? base path = some rest := by
      rw [Path.below?, hunder, if_neg (by decide)]
      dsimp only
      split <;> exact ⟨_, rfl⟩
    rw [hrest]
    exact iff_of_true (Path.normalize_join_below? hpath hrest) (.inl rfl)
  | false =>
    have hnone : Path.below? base path = none := by
      rw [Path.below?, hunder]
      rfl
    rw [hnone]
    simp

/-- The value shows a stored file that was searched for. -/
structure Shows (store : Store) (base path : Path) (value : Text) : Prop where
  stored : path ∈ store.paths
  searched : ∃ template vars chosen, Text.hasTokens template = true ∧
    Reference.search store.files base template vars chosen = .ok [path]
  shown : value = shown base path

/-- The value of a reference with children names its one file, or shows one that was searched
for. -/
theorem value_of_hasChild {store : Store} {base : Path} {c : Context} {s : Statement}
    {value : Text} {paths : List Path} (hkind : s.kind.hasChild = true)
    (h : Resolve.value store.files base c s = .ok (some value, paths)) :
    ∃ path, paths = [path] ∧ (base.resolve value = path ∨ Shows store base path value) := by
  cases value_eq_ok_iff.mp h with
  | known _ _ =>
    rw [if_pos (namesFiles_of_hasChild hkind), segments_of_hasChild hkind, List.map_singleton]
    exact ⟨_, rfl, .inl (by rw [Path.resolve, Path.resolve, Text.trim_trim])⟩
  | searched _ _ _ _ hfound =>
    rw [segments_of_hasChild hkind] at hfound
    obtain ⟨-, rfl⟩ | ⟨htokens, path, hsearch, rfl⟩ := findSegments_child hfound
    · refine ⟨_, rfl, .inl ?_⟩
      rw [List.map_singleton, Text.join_singleton, Path.resolve, Path.resolve, Text.trim_trim]
    · refine ⟨path, rfl, .inr ⟨?_, ⟨_, _, _, (Text.hasTokens_trim _).trans htokens, hsearch⟩, ?_⟩⟩
      · exact Reference.mem_paths_of_searchAll hsearch (by simp) path (List.mem_singleton_self _)
      · rw [List.map_singleton, Text.join_singleton]

end Resolve

open Resolve

/-- A statement of a run that refers to a control file or a database has one file. Its value, taken
from the directory of its own file, names that file, unless it shows what was searched for; and then
too, exactly if the path lies below the directory or is itself when it is taken from there, where
what is shown has no blanks around it and no backslash. -/
theorem resolve_names {files : List (Path × Text)} {f : ControlFile} {c : Context}
    {res : Resolution} (hres : f.resolve (Store.ofList files).files c = .ok res) {rf : RunFile}
    (hrf : res.run.Includes rf) {r : RunStatement} (hr : r ∈ rf.statements)
    (hkind : r.kind.hasChild = true) {value : Text} (hvalue : r.value = some value) :
    ∃ path, r.files = [path] ∧
      (rf.path.directory.resolve value = path ∨
        Shows (.ofList files) rf.path.directory path value ∧
          (Text.trim value = value → '\\' ∉ value →
            (rf.path.directory.resolve value = path ↔
              rf.path.directory.isUnder path = true ∨
                (rf.path.directory.join path).normalize = path))) := by
  obtain ⟨fs, cf, g, findings, -, hpath, hrun⟩ := Visits.exists_of_includes hres hrf
  obtain ⟨s, -, -, found, hs⟩ := exists_of_mem_runStatements hrun hr
  obtain ⟨hbecomes, -⟩ := runActive_ok hs
  have hmeaning := hbecomes.value
  rw [hvalue] at hmeaning
  obtain ⟨path, hfiles, hnames⟩ := value_of_hasChild (hbecomes.kind ▸ hkind) hmeaning
  rw [hpath]
  refine ⟨path, hfiles, hnames.imp_right fun hshows => ⟨hshows, ?_⟩⟩
  obtain rfl := hshows.shown
  exact resolve_shown (Store.normalize_of_mem_ofList hshows.stored)

/-- Two files that are found one below the other, the second above the directory of the first. -/
theorem resolve_names_found :
    let store := Store.ofList [
      (⟨"/m/m.tcf"⟩, "Geometry Control File == sub/geo_<<~s1~>>.tgc\n"),
      (⟨"/m/sub/geo_A.tgc"⟩, "Read Database == ../x_<<~e1~>>.csv\n"), (⟨"/m/x_B.csv"⟩, "a\n")]
    ∃ t res rf r value path, ControlFile.load store.files .standard ⟨"/m/m.tcf"⟩ = .ok t ∧
      t.resolve store.files (.ofChosen ⟨[], []⟩) = .ok res ∧ res.run.Includes rf ∧
      rf.path = ⟨"/m/sub/geo_A.tgc"⟩ ∧ r ∈ rf.statements ∧ r.kind.hasChild = true ∧
      r.value = some value ∧ r.files = [path] ∧ rf.path.directory.resolve value = path := by
  intro store
  have hrun : ((ControlFile.load store.files .standard ⟨"/m/m.tcf"⟩).toOption.any fun t =>
      (t.resolve store.files (.ofChosen ⟨[], []⟩)).toOption.any fun res =>
        res.run.children.any fun rf => rf.path == ⟨"/m/sub/geo_A.tgc"⟩ &&
          rf.statements.any fun r => r.kind.hasChild && r.value == some "/m/x_B.csv" &&
            r.files == [⟨"/m/x_B.csv"⟩]) = true := by
    decide +kernel
  obtain ⟨t, ht, hrun⟩ := Except.toOption_any_iff.mp hrun
  obtain ⟨res, hres, hrun⟩ := Except.toOption_any_iff.mp hrun
  simp only [List.any_eq_true, Bool.and_eq_true, beq_iff_eq] at hrun
  obtain ⟨rf, hrf, hpath, r, hr, ⟨hkind, hvalue⟩, hfiles⟩ := hrun
  have hrf : res.run.Includes rf := .child .root hrf
  obtain ⟨path, hfiles', hnames⟩ := resolve_names hres hrf hr hkind hvalue
  obtain rfl := List.singleton_inj.mp (hfiles.symm.trans hfiles')
  refine ⟨t, res, rf, r, _, _, ht, hres, hrf, hpath, hr, hkind, hvalue, hfiles, ?_⟩
  obtain hnames | ⟨-, hiff⟩ := hnames
  · exact hnames
  · rw [hpath] at hiff ⊢
    exact (hiff (by decide) (by decide)).mpr (.inr (by decide))

/-! ## Values that name no file -/

/-- In every run of a tree that is loaded, each value of a reference to a control file or a database
names its one file, where the root is as given. -/
def ValuesName (P : Path → Prop) : Prop :=
  ∀ (files : List (Path × Text)) (root : Path) (t : ControlFile) (c : Context) (res : Resolution)
    (rf : RunFile) (r : RunStatement) (value : Text),
    P root → ControlFile.load (Store.ofList files).files .standard root = .ok t →
      t.resolve (Store.ofList files).files c = .ok res → res.run.Includes rf →
        r ∈ rf.statements → r.kind.hasChild = true → r.value = some value →
          ∃ path, r.files = [path] ∧ rf.path.directory.resolve value = path

/-- Some value of a root names another file than the one that was found. -/
theorem not_valuesName_of_any {P : Path → Prop} (files : List (Path × Text)) (root : Path)
    (c : Context) (hP : P root)
    (h : ((ControlFile.load (Store.ofList files).files .standard root).toOption.any fun t =>
      (t.resolve (Store.ofList files).files c).toOption.any fun res =>
        res.run.statements.any fun r => r.kind.hasChild &&
          r.value.any fun value => !(r.files == [res.run.path.directory.resolve value])) = true) :
    ¬ ValuesName P := by
  intro hall
  obtain ⟨t, ht, h⟩ := Except.toOption_any_iff.mp h
  obtain ⟨res, hres, h⟩ := Except.toOption_any_iff.mp h
  simp only [List.any_eq_true, Bool.and_eq_true, Option.any_eq_true, Bool.not_eq_true',
    beq_eq_false_iff_ne] at h
  obtain ⟨r, hr, hkind, value, hvalue, hne⟩ := h
  obtain ⟨path, hfiles, hpath⟩ :=
    hall files root t c res res.run r value hP ht hres .root hr hkind hvalue
  exact hne (hpath ▸ hfiles)

/-- It does not hold that each value names the file: a relative path is shown as it was found if it
does not lie below the directory, and what is shown of a path that ends with a blank is read without
it. -/
theorem not_valuesName : ¬ ValuesName (fun root => root.isAbsolute = false) ∧
    ¬ ValuesName (fun root => root.isAbsolute = true) := by
  constructor
  · exact not_valuesName_of_any [
      (⟨"m/a.tcf"⟩, "Geometry Control File == ../x_<<~s1~>>.tgc\n"), (⟨"x_A.tgc"⟩, "X == 1\n")]
      ⟨"m/a.tcf"⟩ (.ofChosen ⟨[], []⟩) (by decide) (by decide +kernel)
  · exact not_valuesName_of_any [
      (⟨"/m/a.tcf"⟩, "Geometry Control File == geo_<<~s1~>>\n"), (⟨"/m/geo_A "⟩, "X == 1\n")]
      ⟨"/m/a.tcf"⟩ (.ofChosen ⟨[], []⟩) (by decide) (by decide +kernel)

end ControlFiles
