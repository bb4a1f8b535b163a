import ControlFiles.ControlFile.Version
import ControlFiles.Proofs.Files.Store
import ControlFiles.Proofs.Path.FileNames
import ControlFiles.Proofs.Text.Numerals
import Mathlib.Data.Fintype.Card
import Mathlib.Data.Nat.Find
import Mathlib.Logic.Function.Iterate

/-!
# Versions of a file

The version after a file ends with a number, behind the last underscore of its stem. A path that
comes of `Path.nextVersion` is described as a whole by `Path.IsVersion`: its directory, what stands
before the number, the digits and the extension. As long as the numbers have less than 64 bits, each
is one more than the number before it (`Path.IsVersion.next`, `Path.nextVersion_spec`), so versions
of one file are different files, and no entry of a store lies at or below two of them. A store has a
free version of a file after at most as many as it has entries
(`Store.VersionsBounded.exists_free`), and that is where the file is written
(`Store.writeVersion_spec`).
-/

namespace ControlFiles

namespace Path

variable {p dir : Path} {stem base digits : Text} {extension : Option Text} {n k : Nat}

/-! ## The next version -/

/-- The number that a stem ends with, behind its last underscore. -/
def stemNumber? (stem : Text) : Option Nat :=
  (cutLast? '_' stem).bind fun (_, digits) => Text.number? digits

/-- The number of the version that a path is. -/
def versionNumber? (p : Path) : Option Nat := p.stem?.bind stemNumber?

/-- The number of the version after a stem. -/
def numberAfter (stem : Text) : Nat :=
  match stemNumber? stem with
  | some n => if n < Text.numberLimit then n + 1 else 1
  | none => 1

theorem numberAfter_lt (h : stemNumber? stem ≠ some (Text.numberLimit - 1)) :
    numberAfter stem < Text.numberLimit := by
  have hone : 1 < Text.numberLimit := by decide
  rw [numberAfter]
  split
  · rename_i n hn
    have hmax : n ≠ Text.numberLimit - 1 := fun heq => h (hn.trans (congrArg some heq))
    split_ifs <;> omega
  · exact hone

theorem not_mem_of_number? {c : Char} (h : Text.number? digits = some n) (hc : c.isDigit = false) :
    c ∉ digits := by
  intro hmem
  rw [(Text.number?_eq_some.mp h).2.1 c hmem] at hc
  cases hc

theorem cutLast?_of_number? (base : Text) (h : Text.number? digits = some n) :
    cutLast? '_' (base ++ '_' :: digits) = some (base, digits) :=
  cutLast?_append (not_mem_of_number? h (by decide)) base

theorem stemNumber?_append (base : Text) (h : Text.number? digits = some n) :
    stemNumber? (base ++ '_' :: digits) = some n := by
  rw [stemNumber?, cutLast?_of_number? base h]
  exact h

theorem versionNumber?_of_stem? (hstem : p.stem? = some (base ++ '_' :: digits))
    (hn : Text.number? digits = some n) : p.versionNumber? = some n := by
  rw [versionNumber?, hstem, Option.bind_some, stemNumber?_append base hn]

theorem number?_padded (width n : Nat) : Text.number? (padded width n) = some n :=
  Text.number?_replicate_append_decimal _ n

theorem length_padded (width n : Nat) :
    (padded width n).length = max width (Text.decimal n).length := by
  rw [padded, List.length_append, List.length_replicate]
  omega

theorem nextStem_of_number? (base : Text) (h : Text.number? digits = some n) :
    nextStem (base ++ '_' :: digits) =
      base ++ '_' :: padded digits.length (if n < Text.numberLimit then n + 1 else 1) := by
  simp only [nextStem, cutLast?_of_number? base h, h, Option.isSome_some, if_true, nextNumber]
  exact List.append_assoc ..

theorem nextStem_of_none (h : stemNumber? stem = none) : nextStem stem = stem ++ '_' :: "001" := by
  rw [nextStem]
  split
  · rename_i base digits hcut
    have hnone : Text.number? digits = none := by
      rw [stemNumber?, hcut] at h
      exact h
    rw [hnone]
    rfl
  · rfl

/-- The stem of a version: what stands before the number stays or is the stem itself. -/
theorem exists_nextStem_eq (stem : Text) : ∃ base digits,
    nextStem stem = base ++ '_' :: digits ∧ Text.number? digits = some (numberAfter stem) ∧
      base <+: stem := by
  rw [numberAfter]
  cases hnumber : stemNumber? stem with
  | none => exact ⟨stem, "001", nextStem_of_none hnumber, rfl, List.prefix_rfl⟩
  | some n =>
    rw [stemNumber?, Option.bind_eq_some_iff] at hnumber
    obtain ⟨⟨base, digits⟩, hcut, hn⟩ := hnumber
    obtain ⟨rfl, -⟩ := cutLast?_eq_some.mp hcut
    exact ⟨base, _, nextStem_of_number? base hn, number?_padded _ _, List.prefix_append _ _⟩

/-- The path is a version of a file in a directory, with the digits of its number. -/
structure IsVersion (dir : Path) (base digits : Text) (extension : Option Text) (p : Path) :
    Prop where
  trimmed : IsTrimmed dir
  name : IsFileName (nameOf (base ++ '_' :: digits) extension)
  cut : IsCut (base ++ '_' :: digits) extension
  eq : p = dir.join ⟨nameOf (base ++ '_' :: digits) extension⟩

/-- A version keeps its directory, its extension and what stands before its number. -/
theorem isVersion_of_nextStem (hstem : p.stem? = some stem) (hdir : p.parent? = some dir)
    (hnext : nextStem stem = base ++ '_' :: digits) (hn : Text.number? digits = some n)
    (hbase : base <+: stem) : IsVersion dir base digits p.extension? p.nextVersion := by
  obtain ⟨name, hname, hfile, hcut, rfl⟩ := exists_name_of_stem? hstem
  obtain ⟨dir', htrimmed, hdir', heq⟩ :=
    withFileName_eq hname (nameOf (base ++ '_' :: digits) p.extension?)
  obtain rfl := Option.some.inj (hdir'.symm.trans hdir)
  have hsubset : ∀ c ∈ nameOf (base ++ '_' :: digits) p.extension?,
      c = '_' ∨ c ∈ digits ∨ c ∈ nameOf stem p.extension? := by
    intro c hc
    have hbase : c ∈ base → c ∈ stem := fun h => hbase.subset h
    cases hextension : p.extension? <;> rw [hextension] at hc <;>
      simp only [nameOf, List.mem_append, List.mem_cons] at hc ⊢ <;> tauto
  have hmark : '_' ∈ nameOf (base ++ '_' :: digits) p.extension? := by
    cases p.extension? <;> simp [nameOf]
  refine ⟨htrimmed, ⟨?_, ?_, ?_, ?_⟩, ⟨by simp, hcut.noDot, fun hnone => ?_⟩, ?_⟩
  · exact List.ne_nil_of_mem hmark
  · intro hhere
    exact absurd (hhere ▸ hmark) (by decide)
  · intro hup
    exact absurd (hup ▸ hmark) (by decide)
  · intro hslash
    obtain hslash | hslash | hslash := hsubset _ hslash
    · exact absurd hslash (by decide)
    · exact not_mem_of_number? hn (by decide) hslash
    · exact hfile.noSlash hslash
  · obtain ⟨rest, rfl⟩ := hbase
    have hplain := hcut.plain hnone
    have hdigits := not_mem_of_number? (c := '.') hn (by decide)
    cases base with
    | nil => exact hdigits
    | cons c base =>
      simp only [List.cons_append, List.tail_cons, List.mem_append, List.mem_cons, not_or]
        at hplain ⊢
      exact ⟨hplain.1, by decide, hdigits⟩
  · rw [← heq, ← hnext, nextVersion, hstem]
    cases p.extension? <;> rfl

namespace IsVersion

variable (h : IsVersion dir base digits extension p)
include h

theorem parent?_eq : p.parent? = some dir := by
  rw [h.eq, parent?_join h.trimmed h.name]

theorem stem?_eq : p.stem? = some (base ++ '_' :: digits) := by
  rw [h.eq, (stem?_join h.trimmed h.name h.cut).1]

theorem extension?_eq : p.extension? = extension := by
  rw [h.eq, (stem?_join h.trimmed h.name h.cut).2]

theorem versionNumber?_eq (hn : Text.number? digits = some n) : p.versionNumber? = some n :=
  versionNumber?_of_stem? h.stem?_eq hn

theorem segments_eq : p.normalize.segments =
    (dir.segments.foldl fold []).reverse ++ [.name (nameOf (base ++ '_' :: digits) extension)] := by
  rw [h.eq, segments_normalize_join dir h.name]

/-- The version after one with a number below the limit has the next number. -/
theorem next (hn : Text.number? digits = some n) (hlimit : n < Text.numberLimit) :
    IsVersion dir base (padded digits.length (n + 1)) extension p.nextVersion := by
  have hnext := nextStem_of_number? base hn
  rw [if_pos hlimit] at hnext
  have hversion := isVersion_of_nextStem h.stem?_eq h.parent?_eq hnext (number?_padded _ _)
    (List.prefix_append _ _)
  rwa [h.extension?_eq] at hversion

/-- The versions after one have the numbers after its number, up to the limit. -/
theorem iterate (hn : Text.number? digits = some n) (k : Nat) (hk : n + k ≤ Text.numberLimit) :
    ∃ digits', IsVersion dir base digits' extension (nextVersion^[k] p) ∧
      Text.number? digits' = some (n + k) := by
  induction k with
  | zero => exact ⟨digits, h, hn⟩
  | succ k ih =>
    obtain ⟨digits', hversion, hnumber⟩ := ih (by omega)
    rw [Function.iterate_succ_apply']
    exact ⟨_, hversion.next hnumber (by omega), number?_padded _ _⟩

/-- What lies at or below a version has its name behind the directory. -/
theorem getElem?_of_isUnder {q : Path} (hunder : p.normalize.isUnder q = true) :
    q.segments[(dir.segments.foldl fold []).reverse.length]? =
      some (.name (nameOf (base ++ '_' :: digits) extension)) := by
  obtain ⟨rest, hrest⟩ := List.isPrefixOf_iff_prefix.mp hunder
  rw [← hrest, h.segments_eq, List.append_assoc, List.getElem?_append_right (Nat.le_refl _),
    Nat.sub_self]
  rfl

/-- Nothing lies at or below two different versions of one file. -/
theorem eq_of_isUnder {q r : Path} {digits' : Text} (hq : IsVersion dir base digits' extension q)
    (hunder : p.normalize.isUnder r = true) (hunder' : q.normalize.isUnder r = true) : p = q := by
  have hname := (h.getElem?_of_isUnder hunder).symm.trans (hq.getElem?_of_isUnder hunder')
  rw [h.eq, hq.eq, Segment.name.inj (Option.some.inj hname)]

end IsVersion

/-! ## The numbers of versions -/

theorem exists_parent? {name : Text} (h : p.fileName? = some name) :
    ∃ dir, p.parent? = some dir := by
  obtain ⟨dir, -, hdir, -⟩ := withFileName_eq h name
  exact ⟨dir, hdir⟩

/-- The versions after a path with a number have the numbers after it, up to the limit. -/
theorem versionNumber?_iterate (hstem : p.stem? = some (base ++ '_' :: digits))
    (hn : Text.number? digits = some n) (k : Nat) (hk : n + k ≤ Text.numberLimit) :
    (nextVersion^[k] p).versionNumber? = some (n + k) := by
  cases k with
  | zero => exact versionNumber?_of_stem? hstem hn
  | succ k =>
    obtain ⟨name, hname, -⟩ := exists_name_of_stem? hstem
    obtain ⟨dir, hdir⟩ := exists_parent? hname
    have hnext := nextStem_of_number? base hn
    rw [if_pos (by omega)] at hnext
    have hfirst := isVersion_of_nextStem hstem hdir hnext (number?_padded _ _)
      (List.prefix_append _ _)
    obtain ⟨digits', hversion, hnumber⟩ := hfirst.iterate (number?_padded _ _) k (by omega)
    rw [Function.iterate_succ_apply, hversion.versionNumber?_eq hnumber]
    exact congrArg some (by omega)

/-- The version after a path with a number keeps its directory, its extension and what stands before
the number, and it has the next number with the width of the old one, or one digit more if the
number outgrows it. A number of 64 bits or more is not counted on from: the numbers begin again at
one. -/
theorem nextVersion_spec (hstem : p.stem? = some (base ++ '_' :: digits))
    (hn : Text.number? digits = some n) :
    ∃ digits', p.nextVersion.parent? = p.parent? ∧
      p.nextVersion.stem? = some (base ++ '_' :: digits') ∧
      p.nextVersion.extension? = p.extension? ∧
      (n + 1 < Text.numberLimit → Text.number? digits' = some (n + 1) ∧
        digits'.length = if n + 1 = 10 ^ digits.length then digits.length + 1 else digits.length) ∧
      (Text.numberLimit ≤ n → Text.number? digits' = some 1 ∧ digits'.length = digits.length) ∧
      ∀ k, n + k < Text.numberLimit → (nextVersion^[k] p).versionNumber? = some (n + k) := by
  obtain ⟨name, hname, -⟩ := exists_name_of_stem? hstem
  obtain ⟨dir, hdir⟩ := exists_parent? hname
  have hversion := isVersion_of_nextStem hstem hdir (nextStem_of_number? base hn)
    (number?_padded _ _) (List.prefix_append _ _)
  refine ⟨_, hversion.parent?_eq.trans hdir.symm, hversion.stem?_eq, hversion.extension?_eq,
    fun hbelow => ?_, fun habove => ?_, fun k hk => versionNumber?_iterate hstem hn k (by omega)⟩
  · rw [if_pos (by omega)]
    refine ⟨number?_padded _ _, ?_⟩
    rw [length_padded]
    split_ifs with hcarry
    · obtain h | h := Text.length_decimal_succ hn
      · exact absurd hcarry h.2
      · omega
    · obtain h | h := Text.length_decimal_succ hn
      · omega
      · exact absurd h.1 hcarry
  · rw [if_neg (by omega)]
    have hpos : 0 < digits.length := List.length_pos_iff.mpr (Text.number?_eq_some.mp hn).1
    have hone : (Text.decimal 1).length = 1 := rfl
    refine ⟨number?_padded _ _, ?_⟩
    rw [length_padded]
    omega

theorem nextVersion_spec_carry :
    stem? ⟨"/m/model_99.tcf"⟩ = some ("model" ++ '_' :: "99") ∧ Text.number? "99" = some 99 ∧
      ∃ digits', (nextVersion ⟨"/m/model_99.tcf"⟩).stem? = some ("model" ++ '_' :: digits') ∧
        Text.number? digits' = some 100 ∧ digits'.length = 3 := by
  have hstem : stem? ⟨"/m/model_99.tcf"⟩ = some ("model" ++ '_' :: "99") := by decide
  have hn : Text.number? "99" = some 99 := by decide
  obtain ⟨digits', -, hstem', -, hnext, -, -⟩ := nextVersion_spec hstem hn
  exact ⟨hstem, hn, digits', hstem', hnext (by decide)⟩

/-- The version after a path with a number of 64 bits or more does not have the next number. -/
theorem not_forall_nextVersion_counts :
    ¬ ∀ (p : Path) (base digits : Text) (n : Nat), p.stem? = some (base ++ '_' :: digits) →
      Text.number? digits = some n → n ≠ Text.numberLimit - 1 →
      ∃ digits', p.nextVersion.parent? = p.parent? ∧
        p.nextVersion.stem? = some (base ++ '_' :: digits') ∧
        p.nextVersion.extension? = p.extension? ∧ Text.number? digits' = some (n + 1) ∧
        digits'.length =
          if n + 1 = 10 ^ digits.length then digits.length + 1 else digits.length := by
  intro h
  obtain ⟨digits', -, hstem, -, hnumber, -⟩ := h ⟨"/m/m_18446744073709551616.tcf"⟩ "m"
    "18446744073709551616" Text.numberLimit (by decide) (by decide) (by decide)
  exact absurd (versionNumber?_of_stem? hstem hnumber) (by decide)

/-! ## The search for a free version -/

/-- The search stops at the first path that is not taken, if it is given enough tries. -/
theorem freeVersion_eq {taken : Path → Bool} {tries : Nat} (hk : k < tries)
    (hbefore : ∀ j < k, taken (nextVersion^[j] p) = true)
    (hfree : taken (nextVersion^[k] p) = false) :
    Id.run (freeVersion (fun q => pure (taken q)) tries p) = nextVersion^[k] p := by
  induction k generalizing p tries with
  | zero =>
    obtain ⟨tries, rfl⟩ := Nat.exists_eq_add_one.mpr hk
    have hp : taken p = false := hfree
    simp [freeVersion, hp]
  | succ k ih =>
    obtain ⟨tries, rfl⟩ := Nat.exists_eq_add_one.mpr (Nat.zero_lt_of_lt hk)
    have hp : taken p = true := hbefore 0 (Nat.succ_pos k)
    have hnext := ih (p := p.nextVersion) (Nat.lt_of_succ_lt_succ hk)
      (fun j hj => hbefore (j + 1) (Nat.succ_lt_succ hj)) hfree
    simpa [freeVersion, hp] using hnext

end Path

namespace Store

open ControlFiles.Path

variable {s : Store} {p : Path} {k : Nat}

/-- No path of which the next version is asked, from `p` on, ends with the largest number of
64 bits. -/
def VersionsBounded (s : Store) (p : Path) : Prop :=
  ∀ k, (∀ j < k, s.holds (nextVersion^[j + 1] p) = true) →
    (nextVersion^[k] p).versionNumber? ≠ some (Text.numberLimit - 1)

/-- As long as all versions are taken, they have one number after the other. -/
theorem VersionsBounded.exists_isVersion (h : s.VersionsBounded p) {name : Text}
    (hname : p.fileName? = some name) :
    ∃ dir base extension n, ∀ k, (∀ j < k, s.holds (nextVersion^[j + 1] p) = true) →
      n + k < Text.numberLimit ∧ ∃ digits,
        IsVersion dir base digits extension (nextVersion^[k + 1] p) ∧
          Text.number? digits = some (n + k) := by
  obtain ⟨dir, hdir⟩ := exists_parent? hname
  obtain ⟨stem, hstem⟩ : ∃ stem, p.stem? = some stem := ⟨_, by rw [stem?, hname, Option.map_some]⟩
  obtain ⟨base, digits, hnext, hnumber, hbase⟩ := exists_nextStem_eq stem
  have hfirst := isVersion_of_nextStem hstem hdir hnext hnumber hbase
  have hlimit : numberAfter stem < Text.numberLimit := by
    have hp := h 0 fun j hj => absurd hj (Nat.not_lt_zero j)
    rw [Function.iterate_zero_apply, versionNumber?, hstem, Option.bind_some] at hp
    exact numberAfter_lt hp
  refine ⟨dir, base, p.extension?, numberAfter stem, fun k => ?_⟩
  induction k with
  | zero => exact fun _ => ⟨hlimit, digits, hfirst, hnumber⟩
  | succ k ih =>
    intro hheld
    obtain ⟨hk, digits', hversion, hnumber'⟩ := ih fun j hj => hheld j (Nat.lt_succ_of_lt hj)
    have hmax := h (k + 1) hheld
    rw [hversion.versionNumber?_eq hnumber'] at hmax
    have hmax : numberAfter stem + k ≠ Text.numberLimit - 1 := fun heq => hmax (congrArg some heq)
    rw [Function.iterate_succ_apply']
    exact ⟨by omega, _, hversion.next hnumber' hk, number?_padded _ _⟩

/-- Each version that is taken has an entry of its own. -/
theorem VersionsBounded.le_length (h : s.VersionsBounded p) {name : Text}
    (hname : p.fileName? = some name) (hheld : ∀ j < k, s.holds (nextVersion^[j + 1] p) = true) :
    k ≤ s.entries.length := by
  obtain ⟨dir, base, extension, n, hversions⟩ := h.exists_isVersion hname
  have hentry : ∀ j : Fin k, ∃ i : Fin s.paths.length,
      (nextVersion^[j.1 + 1] p).normalize.isUnder s.paths[i] = true := by
    intro j
    obtain ⟨q, hq, hunder⟩ := List.any_eq_true.mp (hheld j.1 j.2)
    obtain ⟨i, hi, rfl⟩ := List.mem_iff_getElem.mp hq
    exact ⟨⟨i, hi⟩, hunder⟩
  choose entry hunder using hentry
  have hinjective : Function.Injective entry := by
    intro i j hij
    obtain ⟨-, digits₁, hi, hni⟩ := hversions i.1 fun l hl => hheld l (hl.trans i.2)
    obtain ⟨-, digits₂, hj, hnj⟩ := hversions j.1 fun l hl => hheld l (hl.trans j.2)
    have hsame := hi.eq_of_isUnder hj (hunder i) (hij ▸ hunder j)
    have hnumber := hi.versionNumber?_eq hni
    rw [hsame, hj.versionNumber?_eq hnj] at hnumber
    have hnumber := Option.some.inj hnumber
    exact Fin.ext (by omega)
  have hcard := Fintype.card_le_of_injective entry hinjective
  simpa [paths] using hcard

/-- Some version of a file is free. -/
theorem VersionsBounded.exists_free (h : s.VersionsBounded p) {name : Text}
    (hname : p.fileName? = some name) :
    ∃ k, s.holds (nextVersion^[k + 1] p) = false ∧
      ∀ j < k, s.holds (nextVersion^[j + 1] p) = true := by
  have hfree : ∃ k, s.holds (nextVersion^[k + 1] p) = false := by
    by_contra hall
    have hheld : ∀ j < s.entries.length + 1, s.holds (nextVersion^[j + 1] p) = true :=
      fun j _ => Bool.of_not_eq_false fun hj => hall ⟨j, hj⟩
    exact Nat.not_succ_le_self _ (h.le_length hname hheld)
  exact ⟨Nat.find hfree, Nat.find_spec hfree,
    fun j hj => Bool.of_not_eq_false (Nat.find_min hfree hj)⟩

/-- The search in a store asks for what the store holds. -/
theorem files_freeVersion (s : Store) (p : Path) :
    s.files.freeVersion p =
      Path.freeVersion (fun q => pure (s.holds q)) versionLimit p.nextVersion := by
  have htaken : (fun q => pure (s.canonical q).toBool : Path → Id Bool) =
      fun q => pure (s.holds q) := funext fun q => congrArg pure (s.toBool_canonical q)
  rw [← htaken]
  rfl

/-- A control file is written beside its source under the first version that the store does not
hold, which the search finds with any number of tries that is large enough, and nothing else in the
store changes. -/
theorem writeVersion_spec (s : Store) (f : ControlFile) (hname : f.path.fileName?.isSome = true)
    (hbounded : s.VersionsBounded f.path) :
    (∀ fault, f.toText = .error fault → s.writeVersion f = .error fault) ∧
    ∀ text, f.toText = .ok text → ∃ k target s', k ≤ s.entries.length ∧
      target = nextVersion^[k + 1] f.path ∧ s.holds target = false ∧
      (∀ j < k, s.holds (nextVersion^[j + 1] f.path) = true) ∧
      (∀ tries, k < tries →
        Id.run (Path.freeVersion (fun q => pure (s.holds q)) tries f.path.nextVersion) = target) ∧
      Id.run (s.files.freeVersion f.path) = target ∧
      s.writeVersion f = .ok (s', target) ∧ s'.get? target = some text ∧
      (∀ q, q.normalize ≠ target.normalize → s'.get? q = s.get? q) ∧
      ∀ q, s.holds q = true → s'.holds q = true ∧ s'.get? q = s.get? q := by
  refine ⟨fun fault hfault => by rw [writeVersion, hfault]; rfl, fun text htext => ?_⟩
  obtain ⟨name, hname⟩ := Option.isSome_iff_exists.mp hname
  obtain ⟨k, hfree, hbefore⟩ := hbounded.exists_free hname
  have hlength := hbounded.le_length hname hbefore
  have hlimit : k < versionLimit := by
    obtain ⟨dir, base, extension, n, hversions⟩ := hbounded.exists_isVersion hname
    exact (Nat.le_add_left k n).trans_lt (hversions k hbefore).1
  generalize htarget : nextVersion^[k + 1] f.path = target at hfree
  have hsearch : ∀ tries, k < tries →
      Id.run (Path.freeVersion (fun q => pure (s.holds q)) tries f.path.nextVersion) = target :=
    fun tries hk => (freeVersion_eq hk hbefore (htarget ▸ hfree)).trans htarget
  have hfiles : Id.run (s.files.freeVersion f.path) = target := by
    rw [files_freeVersion, hsearch _ hlimit]
  have hwrite : s.writeVersion f = .ok (s.write target text, target) := by
    have hfound : s.freeVersion f.path = target := hsearch _ (Nat.lt_succ_of_le hlength)
    rw [writeVersion, htext, Except.map, hfound]
  have hother : ∀ q, q.normalize ≠ target.normalize → (s.write target text).get? q = s.get? q :=
    fun q hq => by rw [get?_write, if_neg hq]
  refine ⟨k, target, _, hlength, htarget.symm, hfree, hbefore, hsearch, hfiles, hwrite,
    by rw [get?_write, if_pos rfl], hother,
    fun q hq => ⟨holds_write hq _ _, hother q fun hsame => ?_⟩⟩
  rw [holds_congr hsame, hfree] at hq
  cases hq

theorem writeVersion_spec_taken :
    let s := ofList [(⟨"/m/a.tcf"⟩, "X == 1"), (⟨"/m/a_001.tcf"⟩, "X == 2")]
    let f : ControlFile := ⟨⟨"/m/a.tcf"⟩, .tcf,
      [⟨⟨"0"⟩, "X == 3", some "X", some "3", none, .setting, [], "/m/a.tcf", 1, []⟩], []⟩
    f.path.fileName?.isSome = true ∧ s.VersionsBounded f.path ∧ f.toText = .ok "X == 3\n" ∧
      ∃ s', s.writeVersion f = .ok (s', ⟨"/m/a_002.tcf"⟩) ∧
        s'.get? ⟨"/m/a_002.tcf"⟩ = some "X == 3\n" ∧ s'.get? ⟨"/m/a_001.tcf"⟩ = some "X == 2" := by
  intro s f
  have hname : f.path.fileName?.isSome = true := by decide
  have hbounded : s.VersionsBounded f.path := by
    intro k hk
    match k with
    | 0 => decide
    | 1 => decide
    | k + 2 => exact absurd (hk 1 (by omega)) (by decide)
  have htext : f.toText = .ok "X == 3\n" := rfl
  obtain ⟨k, target, s', -, htarget, hfree, hbefore, -, -, hwrite, hnew, -, hkept⟩ :=
    (writeVersion_spec s f hname hbounded).2 _ htext
  have htaken : s.holds (nextVersion^[0 + 1] f.path) = true := by decide
  have hnext : s.holds (nextVersion^[1 + 1] f.path) = false := by decide
  obtain rfl : k = 1 := by
    obtain hk | hk | hk := Nat.lt_trichotomy k 1
    · rw [htarget, Nat.lt_one_iff.mp hk, htaken] at hfree
      cases hfree
    · exact hk
    · have hnext' := hbefore 1 hk
      rw [hnext] at hnext'
      cases hnext'
  obtain rfl : target = ⟨"/m/a_002.tcf"⟩ := htarget.trans (by decide)
  exact ⟨hname, hbounded, htext, s', hwrite, hnew,
    (hkept ⟨"/m/a_001.tcf"⟩ (by decide)).2.trans (by decide)⟩

end Store

end ControlFiles
