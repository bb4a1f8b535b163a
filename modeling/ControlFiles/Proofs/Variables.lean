import ControlFiles.Proofs.Text.Alike
import ControlFiles.Variables

/-!
# Names of variables

A variable is found in whatever case its name is written (`Variables.get?_congr`): the key of a name
is the same for names that are alike. What holds alike of the letters in both cases does not depend
on the case (`Text.apply_toLower`). Of several values for one name the last counts
(`Variables.get?_setAll`).
-/

namespace ControlFiles

namespace Text

/-- The letters that have a lower case. -/
def capitals : Text := "ABCDEFGHIJKLMNOPQRSTUVWXYZ"

theorem mem_capitals {c : Char} (hlow : 65 ≤ c.toNat) (hhigh : c.toNat ≤ 90) : c ∈ capitals := by
  have hall : ∀ n < 91, 65 ≤ n → Char.ofNat n ∈ capitals := by decide +kernel
  rw [← Char.ofNat_toNat c]
  exact hall c.toNat (by omega) hlow

theorem toLower_of_notMem {c : Char} (h : c ∉ capitals) : c.toLower = c := by
  refine dif_neg fun hc => h ?_
  have hlow : 65 ≤ c.toNat := UInt32.le_iff_toNat_le.mp hc.1
  have hhigh : c.toNat ≤ 90 := UInt32.le_iff_toNat_le.mp hc.2
  exact mem_capitals hlow hhigh

/-- What holds alike of both cases of the letters does not depend on the case. -/
theorem apply_toLower {α : Type} [DecidableEq α] {f : Char → α}
    (h : (capitals.all fun c => f c.toLower = f c) = true) (c : Char) : f c.toLower = f c := by
  by_cases hc : c ∈ capitals
  · exact of_decide_eq_true (List.all_eq_true.mp h c hc)
  · rw [toLower_of_notMem hc]

theorem isBlank_toLower (c : Char) : isBlank c.toLower = isBlank c :=
  apply_toLower (by decide +kernel) c

/-- Only letters have a case. -/
theorem toLower_eq_iff {c d : Char} (hd : d.isAlpha = false) : c.toLower = d ↔ c = d := by
  have hletters : (capitals.all Char.isAlpha) = true := by decide +kernel
  have hself : ∀ c : Char, c.isAlpha = false → c.toLower = c := fun c hc =>
    toLower_of_notMem fun hmem => by simpa [hc] using List.all_eq_true.mp hletters c hmem
  have halpha : c.toLower.isAlpha = c.isAlpha := apply_toLower (by decide +kernel) c
  refine ⟨fun h => ?_, by rintro rfl; exact hself c hd⟩
  rw [← h, halpha] at hd
  rw [← h, hself c hd]

theorem trim_lower (t : Text) : trim (lower t) = lower (trim t) := by
  have hblank : isBlank ∘ Char.toLower = isBlank := funext isBlank_toLower
  simp only [trim, trimEnd, trimStart, lower, List.dropWhile_map, hblank, ← List.map_reverse]

theorem number?_lower (t : Text) : number? (lower t) = number? t := by
  have hdigit : ∀ c : Char, c.toLower.isDigit = c.isDigit := apply_toLower (by decide +kernel)
  have hnone : (capitals.all fun c => !c.isDigit) = true := by decide +kernel
  have hvalue : ∀ c : Char, c.isDigit = true → c.toLower = c := fun c hc =>
    toLower_of_notMem fun hmem => by simpa [hc] using List.all_eq_true.mp hnone c hmem
  have hall : (lower t).all Char.isDigit = t.all Char.isDigit := by
    simp only [lower, List.all_map, Function.comp_def, hdigit]
  cases hdigits : t.all Char.isDigit with
  | false => simp [number?, hall, hdigits]
  | true =>
    have hself : lower t = t :=
      (List.map_congr_left fun c hc => hvalue c (List.all_eq_true.mp hdigits c hc)).trans
        (List.map_id t)
    rw [hself]

theorem upper_lower (t : Text) : upper (lower t) = upper t := by
  simp only [upper, lower, List.map_map]
  exact List.map_congr_left fun c _ => apply_toLower (by decide +kernel) c

theorem lower_upper (t : Text) : lower (upper t) = lower t := by
  have hsmall : ∀ n < 123, (Char.ofNat n).toUpper.toLower = (Char.ofNat n).toLower := by
    decide +kernel
  have hchar : ∀ c : Char, c.toUpper.toLower = c.toLower := fun c => by
    by_cases hc : c.toNat < 123
    · rw [← Char.ofNat_toNat c]
      exact hsmall _ hc
    · have hself : c.toUpper = c := dif_neg fun h => hc (by
        have hle : c.toNat ≤ 122 := UInt32.le_iff_toNat_le.mp h.2
        omega)
      rw [hself]
  simp only [upper, lower, List.map_map]
  exact List.map_congr_left fun c _ => hchar c

end Text

namespace Variables

theorem nameKey_congr {a b : Text} (h : Text.alike a b = true) : nameKey a = nameKey b := by
  have hkey : ∀ t, nameKey t = Text.upper (Text.trim (Text.lower t)) := fun t => by
    rw [nameKey, Text.trim_lower, Text.upper_lower]
  rw [hkey, hkey, Text.alike_iff.mp h]

/-- A variable is found in whatever case its name is written. -/
theorem get?_congr (vars : Variables) {a b : Text} (h : Text.alike a b = true) :
    vars.get? a = vars.get? b := by
  simp only [get?, nameKey_congr h]

/-- What is set is found, and nothing else changes. -/
theorem get?_set (vars : Variables) (name value other : Text) :
    (vars.set name value).get? other =
      if nameKey name = nameKey other then some value else vars.get? other := by
  obtain ⟨entries⟩ := vars
  simp only [set, get?]
  induction entries with
  | nil => by_cases h : nameKey name = nameKey other <;> simp [insert, h]
  | cons e entries ih =>
    obtain ⟨k, v⟩ := e
    have hk : compare (nameKey name) k = .eq ↔ nameKey name = k :=
      Std.LawfulEqOrd.compare_eq_iff_eq
    rw [insert]
    split <;> rename_i hcompare
    · by_cases h : nameKey name = nameKey other <;> simp [h]
    · by_cases h : nameKey name = nameKey other <;> simp_all
    · -- the new entry comes later in the list, so it has another key than the first
      have hne : nameKey name ≠ k := fun heq => by
        rw [hk.mpr heq] at hcompare
        cases hcompare
      by_cases hkey : k = nameKey other
      · simp [hkey, hkey ▸ hne]
      · simp only [List.find?_cons, hkey, decide_false]
        exact ih

/-- The pairs for a name, however it is written. -/
def pairsFor (pairs : List (Text × Text)) (name : Text) : List (Text × Text) :=
  pairs.filter fun p => nameKey p.1 = nameKey name

/-- The value of the last pair for a name. -/
def lastValue? (pairs : List (Text × Text)) (name : Text) : Option Text :=
  (pairsFor pairs name).getLast?.map (·.2)

theorem lastValue?_cons (p : Text × Text) (pairs : List (Text × Text)) (name : Text) :
    lastValue? (p :: pairs) name =
      (lastValue? pairs name).or (if nameKey p.1 = nameKey name then some p.2 else none) := by
  rw [lastValue?, lastValue?, pairsFor, pairsFor, List.filter_cons]
  by_cases h : nameKey p.1 = nameKey name
  · rw [if_pos (by simpa using h), if_pos h, List.getLast?_cons]
    cases (pairs.filter fun p => nameKey p.1 = nameKey name).getLast? <;> rfl
  · rw [if_neg (by simpa using h), if_neg h, Option.or_none]

theorem lastValue?_congr {pairs : List (Text × Text)} {a b : Text} (h : nameKey a = nameKey b) :
    lastValue? pairs a = lastValue? pairs b := by
  rw [lastValue?, lastValue?, pairsFor, pairsFor, h]

/-- Of the values for a name the last counts, and if there is none the one before. -/
theorem get?_setAll (vars : Variables) (pairs : List (Text × Text)) (name : Text) :
    (vars.setAll pairs).get? name = (lastValue? pairs name).or (vars.get? name) := by
  induction pairs generalizing vars with
  | nil => rfl
  | cons p pairs ih =>
    have hcons : vars.setAll (p :: pairs) = (vars.set p.1 p.2).setAll pairs := rfl
    rw [hcons, ih, get?_set, lastValue?_cons, Option.or_assoc]
    split <;> rfl

theorem setAll_append (vars : Variables) (a b : List (Text × Text)) :
    vars.setAll (a ++ b) = (vars.setAll a).setAll b := List.foldl_append

end Variables

end ControlFiles
