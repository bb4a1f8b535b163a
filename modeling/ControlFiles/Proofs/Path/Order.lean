import ControlFiles.Proofs.Path
import Mathlib.Data.List.Perm.Basic

/-!
# Paths in order

Paths are ordered like words, segment by segment (`Path.orderSegments_eq_compareLex`). A list in
ascending order stays so when a path is inserted (`Path.Ascending.insertSorted`), and it is known by
its members (`Path.Ascending.eq_of_mem_iff`).
-/

namespace ControlFiles

instance : Std.TransCmp Segment.order :=
  inferInstanceAs (Std.TransCmp (compareLex (compareOn Segment.rank) (compareOn Segment.text)))

namespace Path

theorem orderSegments_eq_compareLex : orderSegments = List.compareLex Segment.order := by
  funext ss ts
  induction ss generalizing ts with
  | nil => cases ts <;> rfl
  | cons s ss ih =>
    cases ts with
    | nil => rfl
    | cons t ts => rw [orderSegments, ih, List.compareLex_cons_cons]

instance : Std.TransCmp orderSegments :=
  orderSegments_eq_compareLex ▸ inferInstanceAs (Std.TransCmp (List.compareLex Segment.order))

instance : Std.TransCmp order where
  eq_swap {p q} := @Std.OrientedCmp.eq_swap _ orderSegments _ p.segments q.segments
  isLE_trans {p q r} :=
    @Std.TransCmp.isLE_trans _ orderSegments _ p.segments q.segments r.segments

/-- Each path comes before those behind it. -/
def Ascending (ps : List Path) : Prop := ps.Pairwise fun p q => p.order q = .lt

namespace Ascending
variable {ps qs : List Path}

theorem filter (h : Ascending ps) (f : Path → Bool) : Ascending (ps.filter f) :=
  List.Pairwise.filter f h

theorem nodup (h : Ascending ps) : ps.Nodup := by
  refine List.Pairwise.imp (fun hlt heq => ?_) h
  subst heq
  exact Std.OrientedCmp.not_lt_of_lt hlt hlt

theorem insertSorted (h : Ascending ps) (p : Path) : Ascending (insertSorted p ps) := by
  induction ps with
  | nil => exact List.pairwise_singleton _ _
  | cons q ps ih =>
    obtain ⟨hq, hps⟩ := List.pairwise_cons.mp h
    rw [Path.insertSorted]
    split
    · rename_i hlt
      refine List.pairwise_cons.mpr ⟨fun r hr => ?_, h⟩
      obtain rfl | hr := List.mem_cons.mp hr
      · exact hlt
      · exact Std.TransCmp.lt_trans hlt (hq r hr)
    · exact h
    · rename_i hgt
      refine List.pairwise_cons.mpr ⟨fun r hr => ?_, ih hps⟩
      obtain rfl | hr := mem_of_mem_insertSorted hr
      · exact Std.OrientedCmp.gt_iff_lt.mp hgt
      · exact hq r hr

theorem foldl_insertSorted (h : Ascending ps) (new : List Path) :
    Ascending (new.foldl (fun acc p => Path.insertSorted p acc) ps) := by
  induction new generalizing ps with
  | nil => exact h
  | cons p new ih => exact ih (h.insertSorted p)

/-- A list in ascending order is known by its members. -/
theorem eq_of_mem_iff (hps : Ascending ps) (hqs : Ascending qs) (h : ∀ p, p ∈ ps ↔ p ∈ qs) :
    ps = qs := by
  refine List.Perm.eq_of_pairwise (fun p q _ _ hpq hqp => ?_) hps hqs
    ((List.perm_ext_iff_of_nodup hps.nodup hqs.nodup).mpr h)
  exact absurd hqp (Std.OrientedCmp.not_lt_of_lt hpq)

end Ascending

theorem ascending_sorted (ps : List Path) : Ascending (sorted ps) :=
  Ascending.foldl_insertSorted List.Pairwise.nil ps

end Path

end ControlFiles
