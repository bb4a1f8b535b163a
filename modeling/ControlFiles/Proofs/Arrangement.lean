import ControlFiles.Arrangement
import Mathlib.Data.List.Lex
import Mathlib.Data.List.Perm.Subperm
import Mathlib.Data.List.ReduceOption

/-!
# Arrangements and positions

An arrangement of a list takes elements at distinct positions (`Arrangement.all_eq_map`), and the
arrangements come in the lexicographic order of these (`Arrangement.pairwise_all_range`). So a
search through them ends at the first choice of positions that will do
(`Arrangement.le_of_findSome?`), and whether there is one does not depend on the order of the list
(`Arrangement.mem_all`).
-/

namespace ControlFiles.Arrangement

variable {α β : Type}

/-! ## Elements -/

theorem mem_picks {x : α} {others xs : List α} :
    (x, others) ∈ picks xs ↔
      ∃ before after, xs = before ++ x :: after ∧ others = before ++ after := by
  induction xs generalizing others with
  | nil => simp [picks]
  | cons y xs ih =>
    simp only [picks, List.mem_cons, Prod.mk.injEq, List.mem_map, Prod.exists]
    constructor
    · rintro (⟨rfl, rfl⟩ | ⟨z, rest, hz, rfl, rfl⟩)
      · exact ⟨[], _, rfl, rfl⟩
      · obtain ⟨before, after, rfl, rfl⟩ := ih.mp hz
        exact ⟨y :: before, after, rfl, rfl⟩
    · rintro ⟨before, after, hxs, rfl⟩
      cases before with
      | nil =>
        obtain ⟨rfl, rfl⟩ := List.cons.inj hxs
        exact .inl ⟨rfl, rfl⟩
      | cons z before =>
        obtain ⟨rfl, rfl⟩ := List.cons.inj hxs
        exact .inr ⟨x, before ++ after, ih.mpr ⟨before, after, rfl, rfl⟩, rfl, rfl⟩

theorem picks_map (f : α → β) (xs : List α) :
    picks (xs.map f) = (picks xs).map fun (x, others) => (f x, others.map f) := by
  induction xs with
  | nil => rfl
  | cons x xs ih => simp [picks, ih, Function.comp_def]

theorem map_fst_picks (xs : List α) : (picks xs).map Prod.fst = xs := by
  induction xs with
  | nil => rfl
  | cons x xs ih => simpa [picks, Function.comp_def] using ih

/-- The arrangements of a list whose elements are changed are the arrangements, changed. -/
theorem all_map (f : α → β) (k : Nat) (xs : List α) :
    all k (xs.map f) = (all k xs).map (List.map f) := by
  induction k generalizing xs with
  | zero => rfl
  | succ k ih => simp [all, picks_map, ih, List.flatMap_map, List.map_flatMap, Function.comp_def]

/-- An arrangement is a choice among the elements, in whatever order, each as often as it is there
at most. -/
theorem mem_all {k : Nat} {xs ys : List α} : ys ∈ all k xs ↔ ys.length = k ∧ ys.Subperm xs := by
  induction k generalizing xs ys with
  | zero =>
    rw [all, List.mem_singleton, List.length_eq_zero_iff]
    exact ⟨fun h => ⟨h, h ▸ List.nil_subperm⟩, fun h => h.1⟩
  | succ k ih =>
    simp only [all, List.mem_flatMap, List.mem_map, Prod.exists, ih]
    constructor
    · rintro ⟨x, others, hpick, ys, ⟨hlength, hsub⟩, rfl⟩
      obtain ⟨before, after, rfl, rfl⟩ := mem_picks.mp hpick
      refine ⟨congrArg (· + 1) hlength, ?_⟩
      exact ((List.subperm_cons x).mpr hsub).trans List.perm_middle.symm.subperm
    · rintro ⟨hlength, hsub⟩
      obtain ⟨x, ys, rfl⟩ := List.exists_cons_of_length_eq_add_one hlength
      obtain ⟨before, after, rfl⟩ := List.append_of_mem (hsub.subset List.mem_cons_self)
      refine ⟨x, before ++ after, mem_picks.mpr ⟨before, after, rfl, rfl⟩, ys,
        ⟨Nat.succ.inj hlength, ?_⟩, rfl⟩
      exact (List.subperm_cons x).mp (hsub.trans List.perm_middle.subperm)

/-! ## Positions -/

/-- The numbers are `k` distinct positions of a list with `n` elements. -/
structure IsChoice (k n : Nat) (positions : List Nat) : Prop where
  length : positions.length = k
  distinct : positions.Nodup
  inside : ∀ i ∈ positions, i < n

/-- The elements of a list at some positions. -/
def elementsAt (xs : List α) (positions : List Nat) : List α := positions.filterMap (xs[·]?)

theorem mem_all_range {k n : Nat} {positions : List Nat} :
    positions ∈ all k (List.range n) ↔ IsChoice k n positions := by
  rw [mem_all]
  constructor
  · rintro ⟨hlength, hsub⟩
    obtain ⟨l, hperm, hsublist⟩ := hsub
    refine ⟨hlength, hperm.nodup_iff.mp (hsublist.nodup List.nodup_range), fun i hi => ?_⟩
    exact List.mem_range.mp (hsublist.subset (hperm.mem_iff.mpr hi))
  · rintro ⟨hlength, hdistinct, hinside⟩
    exact ⟨hlength, hdistinct.subperm fun i hi => List.mem_range.mpr (hinside i hi)⟩

/-- The arrangements of a list are its elements at the choices of positions. -/
theorem all_eq_map (k : Nat) (xs : List α) :
    all k xs = (all k (List.range xs.length)).map (elementsAt xs) := by
  have hsome : xs.map some = (List.range xs.length).map (xs[·]?) := by
    refine List.ext_getElem? fun i => ?_
    rw [List.getElem?_map, List.getElem?_map]
    by_cases hi : i < xs.length
    · rw [List.getElem?_range hi, List.getElem?_eq_getElem hi]
      simp
    · simp [hi]
  calc all k xs = ((all k xs).map (List.map some)).map List.reduceOption := by
        rw [List.map_map]
        refine (List.map_id _).symm.trans (List.map_congr_left fun ys _ => ?_)
        simp [List.reduceOption]
    _ = (all k (xs.map some)).map List.reduceOption := by rw [all_map]
    _ = ((all k (List.range xs.length)).map (List.map (xs[·]?))).map List.reduceOption := by
        rw [hsome, all_map]
    _ = (all k (List.range xs.length)).map (elementsAt xs) := by
        rw [List.map_map]
        refine List.map_congr_left fun positions _ => ?_
        rw [Function.comp_apply, elementsAt, List.reduceOption, List.filterMap_map]
        rfl

theorem length_elementsAt {k : Nat} {xs : List α} {positions : List Nat}
    (h : IsChoice k xs.length positions) : (elementsAt xs positions).length = k := by
  have hmem : elementsAt xs positions ∈ all k xs := by
    rw [all_eq_map]
    exact List.mem_map_of_mem (mem_all_range.mpr h)
  exact (mem_all.mp hmem).1

/-- What stands beside the elements at some positions stands beside the positions. -/
theorem zip_elementsAt {xs : List α} {pairs : List (Nat × β)} (h : ∀ q ∈ pairs, q.1 < xs.length) :
    (elementsAt xs (pairs.map Prod.fst)).zip (pairs.map Prod.snd) =
      pairs.filterMap fun q => xs[q.1]?.map fun x => (x, q.2) := by
  induction pairs with
  | nil => rfl
  | cons q pairs ih =>
    obtain ⟨hq, hpairs⟩ := List.forall_mem_cons.mp h
    have hget : xs[q.1]? = some xs[q.1] := List.getElem?_eq_getElem hq
    have hcons : elementsAt xs ((q :: pairs).map Prod.fst) =
        xs[q.1] :: elementsAt xs (pairs.map Prod.fst) := by
      rw [elementsAt, List.map_cons, List.filterMap_cons, hget]
      rfl
    rw [hcons, List.map_cons, List.zip_cons_cons, ih hpairs, List.filterMap_cons, hget]
    rfl

/-- The arrangements of numbers in increasing order come in lexicographic order. -/
theorem pairwise_all {xs : List Nat} (h : xs.Pairwise (· < ·)) (k : Nat) :
    (all k xs).Pairwise (· < ·) := by
  induction k generalizing xs with
  | zero => exact List.pairwise_singleton _ _
  | succ k ih =>
    rw [all, List.pairwise_flatMap]
    constructor
    · rintro ⟨x, others⟩ hpick
      obtain ⟨before, after, rfl, rfl⟩ := mem_picks.mp hpick
      have hothers : (before ++ after).Pairwise (· < ·) :=
        h.sublist ((List.Sublist.refl before).append (List.sublist_cons_self x after))
      rw [List.pairwise_map]
      exact (ih hothers).imp fun hlt => List.cons_lt_cons_iff.mpr (.inr ⟨rfl, hlt⟩)
    · have hfirst : (picks xs).Pairwise fun p q => p.1 < q.1 := by
        rw [← List.pairwise_map (f := Prod.fst), map_fst_picks]
        exact h
      refine hfirst.imp fun hlt ys hys zs hzs => ?_
      obtain ⟨ys, -, rfl⟩ := List.mem_map.mp hys
      obtain ⟨zs, -, rfl⟩ := List.mem_map.mp hzs
      exact List.cons_lt_cons_iff.mpr (.inl hlt)

theorem pairwise_all_range (k n : Nat) : (all k (List.range n)).Pairwise (· < ·) :=
  pairwise_all List.pairwise_lt_range k

/-- A search that ends in lexicographic order has found the first that will do. -/
theorem le_of_findSome? {l : List (List Nat)} (hl : l.Pairwise (· < ·)) {f : List Nat → Option β}
    {b : β} (h : l.findSome? f = some b) :
    ∃ first ∈ l, f first = some b ∧ ∀ other ∈ l, (f other).isSome = true → first ≤ other := by
  obtain ⟨before, first, after, rfl, hfirst, hbefore⟩ := List.findSome?_eq_some_iff.mp h
  refine ⟨first, by simp, hfirst, fun other hother hsome => ?_⟩
  rw [List.mem_append, List.mem_cons] at hother
  obtain hother | rfl | hother := hother
  · rw [hbefore other hother] at hsome
    cases hsome
  · exact le_refl _
  · exact le_of_lt (List.rel_of_pairwise_cons (List.pairwise_append.mp hl).2.1 hother)

end ControlFiles.Arrangement
