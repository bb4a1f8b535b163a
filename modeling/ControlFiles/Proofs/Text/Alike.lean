import ControlFiles.Proofs.Text.Parts
import ControlFiles.Variables
import Mathlib.Data.String.Basic

/-!
# Texts that differ in case

`Text.alike` is an equivalence, and what looks names up without regard to case cannot tell apart
two texts that are alike: a list of names (`listed_congr`), and the list without repetitions
(`any_addNew`), in which no two names are alike (`nodup_addNew`).
-/

namespace ControlFiles

namespace Text

theorem alike_iff {s t : Text} : alike s t = true ↔ lower s = lower t := by
  simp [alike]

theorem alike_congr_right {t t' : Text} (h : alike t t' = true) (s : Text) :
    alike s t = alike s t' := by
  rw [alike, alike, alike_iff.mp h]

theorem alike?_iff {s t : Option Text} : alike? s t = true ↔ s.map lower = t.map lower := by
  cases s <;> cases t <;> simp [alike?, alike]

@[simp] theorem alike?_refl (t : Option Text) : alike? t t = true := alike?_iff.mpr rfl

/-- A list cannot tell apart names that are alike. -/
theorem listed_congr {s t : Text} (h : alike s t = true) (names : List Text) :
    listed names s = listed names t := by
  simp only [listed, alike_congr_right h]

theorem listed_append (a b : List Text) (name : Text) :
    listed (a ++ b) name = (listed a name || listed b name) := List.any_append

theorem listed_append_eq_false {a b : List Text} {name : Text} :
    listed (a ++ b) name = false ↔ listed a name = false ∧ listed b name = false := by
  rw [listed_append, Bool.or_eq_false_iff]

theorem listed_iff {names : List Text} {name : Text} :
    listed names name = true ↔ lower name ∈ names.map lower := by
  simp [listed, alike_iff]

theorem listed_eq_false_iff {names : List Text} {name : Text} :
    listed names name = false ↔ lower name ∉ names.map lower := by
  rw [← listed_iff, Bool.not_eq_true]

theorem listed_flatMap_append {α : Type} (l : List α) (f g : α → List Text) (name : Text) :
    listed (l.flatMap fun a => f a ++ g a) name =
      (listed (l.flatMap f) name || listed (l.flatMap g) name) := by
  induction l with
  | nil => rfl
  | cons a l ih =>
    simp only [List.flatMap_cons, listed_append] at ih ⊢
    rw [ih]
    grind

theorem listed_flatMap_iff {α : Type} {l : List α} {f : α → List Text} {name : Text} :
    listed (l.flatMap f) name = true ↔ ∃ a ∈ l, listed (f a) name = true := by
  rw [listed, List.any_flatMap, List.any_eq_true]
  rfl

/-- Leaving repeated names out does not change what can be found among them. -/
theorem any_addNew {p : Text → Bool} (hp : ∀ s t, alike s t = true → p s = p t)
    (names new : List Text) : (addNew names new).any p = (names.any p || new.any p) := by
  induction new generalizing names with
  | nil => simp [addNew]
  | cons name new ih =>
    rw [addNew, List.foldl_cons]
    change (addNew _ new).any p = _
    rw [ih]
    by_cases hlisted : listed names name = true
    · obtain ⟨n, hn, halike⟩ := List.any_eq_true.mp hlisted
      have hany : p name = true → names.any p = true := fun h =>
        List.any_eq_true.mpr ⟨n, hn, (hp n name halike).trans h⟩
      rw [if_pos hlisted, List.any_cons]
      cases hname : p name
      · simp
      · simp [hany hname]
    · rw [if_neg hlisted, List.any_append, List.any_cons, List.any_cons, List.any_nil,
        Bool.or_false, Bool.or_assoc]

theorem listed_addNew (names new : List Text) (name : Text) :
    listed (addNew names new) name = (listed names name || listed new name) :=
  any_addNew (fun s t hst => by rw [alike, alike, alike_iff.mp hst]) names new

theorem mem_addNew {names new : List Text} {name : Text} (h : name ∈ addNew names new) :
    name ∈ names ∨ name ∈ new := by
  induction new generalizing names with
  | nil => exact .inl h
  | cons first new ih =>
    rcases ih h with h | h
    · dsimp only at h
      split at h
      · exact .inl h
      · rcases List.mem_append.mp h with h | h
        · exact .inl h
        · exact .inr (by simp [List.mem_singleton.mp h])
    · exact .inr (List.mem_cons_of_mem _ h)

theorem listed_addNew_self (names : List Text) (name : Text) :
    listed (addNew names [name]) name = true := by
  rw [listed_addNew, listed, listed, List.any_cons, alike_iff.mpr rfl, Bool.true_or, Bool.or_true]

/-- Names that are not there yet are added to a part of the list as to the whole. -/
theorem addNew_append_left (base names : List Text) {new : List Text}
    (h : ∀ name ∈ new, listed base name = false) :
    addNew (base ++ names) new = base ++ addNew names new := by
  induction new generalizing names with
  | nil => rfl
  | cons name new ih =>
    have hrest := fun names => ih names fun n hn => h n (List.mem_cons_of_mem _ hn)
    have hlisted : listed (base ++ names) name = listed names name := by
      rw [listed_append, h name List.mem_cons_self, Bool.false_or]
    rw [addNew, addNew, List.foldl_cons, List.foldl_cons, hlisted]
    split
    · exact hrest names
    · rw [List.append_assoc]
      exact hrest (names ++ [name])

/-- The names of a second list of which none is in the first come behind those of the first. -/
theorem addNew_append {names new : List Text} (h : ∀ name ∈ new, listed names name = false) :
    addNew [] (names ++ new) = addNew [] names ++ addNew [] new := by
  have hfold : addNew [] (names ++ new) = addNew (addNew [] names ++ []) new := by
    rw [List.append_nil]
    exact List.foldl_append
  rw [hfold, addNew_append_left _ _ fun name hname => ?_]
  rw [listed_addNew]
  exact h name hname

theorem nodup_addNew {names : List Text} (h : (names.map lower).Nodup) (new : List Text) :
    ((addNew names new).map lower).Nodup := by
  induction new generalizing names with
  | nil => exact h
  | cons name new ih =>
    rw [addNew, List.foldl_cons]
    refine ih ?_
    split
    · exact h
    · rename_i hlisted
      rw [List.map_append, List.nodup_append]
      refine ⟨h, by simp, fun a ha b hb hab => hlisted ?_⟩
      rw [listed_iff, ← List.mem_singleton.mp hb, ← hab]
      exact ha

theorem prefix_addNew (names new : List Text) : names <+: addNew names new := by
  induction new generalizing names with
  | nil => exact List.prefix_rfl
  | cons name new ih =>
    rw [addNew, List.foldl_cons]
    refine List.IsPrefix.trans ?_ (ih _)
    split
    · exact List.prefix_rfl
    · exact List.prefix_append names [name]

theorem addNew_eq_nil_iff {names : List Text} : addNew [] names = [] ↔ names = [] := by
  refine ⟨fun h => ?_, fun h => by rw [h]; rfl⟩
  cases names with
  | nil => rfl
  | cons name names =>
    have hprefix : [name] <+: addNew [] (name :: names) := prefix_addNew [name] names
    rw [h] at hprefix
    exact absurd (List.prefix_nil.mp hprefix) (List.cons_ne_nil name [])

/-- Nothing is left out of names of which no two are alike. -/
theorem addNew_of_nodup {names new : List Text} (h : ((names ++ new).map lower).Nodup) :
    addNew names new = names ++ new := by
  induction new generalizing names with
  | nil => exact (List.append_nil names).symm
  | cons name new ih =>
    have hlisted : listed names name = false := by
      rw [List.map_append, List.nodup_append] at h
      rw [listed_eq_false_iff]
      exact fun hmem => h.2.2 _ hmem _ List.mem_cons_self rfl
    rw [addNew, List.foldl_cons, hlisted, if_neg (by decide)]
    refine (ih ?_).trans (List.append_cons names name new).symm
    rwa [← List.append_cons]

end Text

end ControlFiles
