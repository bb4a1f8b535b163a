import Mathlib.Data.List.Perm.Subperm
import ControlFiles.Proofs.Run.Arguments

/-!
# Flags without a position

A flag of a run may leave the position of its name open. Such a bare flag takes the position after
as many as its axis has by then, so that the names choose what they choose when these positions are
written (`ofArguments_settled`). The lowest position that is free is another one behind a gap, and
only there: the two rules settle the same positions exactly if no bare flag stands behind a gap
(`settled_eq_iff`). Behind one they never both choose a run (`gapless_of_chosen`), and a bare flag
can take a position that an earlier name has.
-/

namespace ControlFiles.Arguments

/-! ## Positions -/

/-- The positions are those from 1 on, each once. -/
def NoGap (taken : List Nat) : Prop := taken.Perm (List.range' 1 taken.length)

/-- The position after as many as are taken. -/
def afterCount (taken : List Nat) : Nat := taken.length + 1

/-- The lowest position that is not taken. -/
def lowestFree (taken : List Nat) : Nat :=
  ((List.range' 1 (taken.length + 1)).find? fun n => n ∉ taken).getD 0

section
variable {taken : List Nat} {n : Nat}

theorem NoGap.mem_iff (h : NoGap taken) : n ∈ taken ↔ 0 < n ∧ n ≤ taken.length := by
  rw [List.Perm.mem_iff h, List.mem_range'_1]
  omega

/-- Among one more positions than are taken there is a free one. -/
theorem exists_free (taken : List Nat) : ∃ n ∈ List.range' 1 (taken.length + 1), n ∉ taken := by
  by_contra hnone
  have hall : List.range' 1 (taken.length + 1) ⊆ taken := fun n hn =>
    not_not.mp fun hfree => hnone ⟨n, hn, hfree⟩
  have hlength := (List.subperm_of_subset List.nodup_range' hall).length_le
  rw [List.length_range'] at hlength
  omega

theorem lowestFree_spec (taken : List Nat) :
    lowestFree taken ∉ taken ∧ 0 < lowestFree taken ∧ lowestFree taken ≤ taken.length + 1 ∧
      ∀ n, 0 < n → n < lowestFree taken → n ∈ taken := by
  have hsome : ((List.range' 1 (taken.length + 1)).find? fun n => n ∉ taken).isSome := by
    simpa only [List.find?_isSome, decide_eq_true_eq] using exists_free taken
  obtain ⟨n, hn⟩ := Option.isSome_iff_exists.mp hsome
  rw [lowestFree, hn, Option.getD_some]
  simp only [List.find?_range'_eq_some, decide_eq_true_eq, List.mem_range'_1, Bool.not_eq_true',
    decide_eq_false_iff_not, not_not] at hn
  obtain ⟨hfree, ⟨hpos, hlt⟩, hbelow⟩ := hn
  exact ⟨hfree, hpos, by omega, hbelow⟩

/-- The two rules agree exactly if the positions that are taken have no gap. -/
theorem afterCount_eq_lowestFree_iff (taken : List Nat) :
    afterCount taken = lowestFree taken ↔ NoGap taken := by
  obtain ⟨hfree, hpos, hle, hbelow⟩ := lowestFree_spec taken
  constructor
  · intro heq
    have hall : List.range' 1 taken.length ⊆ taken := by
      intro n hn
      rw [List.mem_range'_1] at hn
      exact hbelow n hn.1 (by rw [← heq, afterCount]; omega)
    have hsub := List.subperm_of_subset List.nodup_range' hall
    exact (hsub.perm_of_length_le (by rw [List.length_range'])).symm
  · intro hnoGap
    have hbeyond := mt hnoGap.mem_iff.mpr hfree
    rw [afterCount]
    omega

example : afterCount [1, 4, 2] = 4 ∧ lowestFree [1, 4, 2] = 3 := by decide

end

/-! ## Names behind flags -/

/-- The flag names an axis and no position. -/
def IsBare (flag : Text) (axis : Axis) : Prop := ∃ letter ∈ axis.letters, flag = ['-', letter]

theorem flag?_of_isBare {flag : Text} {axis : Axis} (h : IsBare flag axis) :
    flag? flag = some (axis, none) := by
  obtain ⟨letter, hletter, rfl⟩ := h
  cases axis <;> simp only [Axis.letters, List.mem_cons, List.not_mem_nil, or_false] at hletter <;>
    obtain rfl | rfl := hletter <;> rfl

/-- A name behind a flag that writes its position, or behind a bare one. -/
inductive Supplied where
  | placed (p : Placed)
  | bare (axis : Axis) (name flag : Text) (isBare : IsBare flag axis)

/-- The positions of an axis that some names have. -/
def taken (axis : Axis) (ps : List Placed) : List Nat := positionsOn axis (ps.map Placed.choice)

theorem mem_taken {axis : Axis} {ps : List Placed} {n : Nat} :
    n ∈ taken axis ps ↔ ∃ p ∈ ps, p.axis = axis ∧ p.position = n :=
  mem_positionsOn

theorem taken_append (axis : Axis) (ps qs : List Placed) :
    taken axis (ps ++ qs) = taken axis ps ++ taken axis qs := by
  simp only [taken, positionsOn, List.map_append, List.filter_append]

theorem taken_singleton (axis : Axis) (p : Placed) :
    taken axis [p] = if p.axis = axis then [p.position] else [] := by
  simp only [taken, positionsOn, List.map_cons, List.map_nil, List.filter_cons, List.filter_nil,
    Placed.choice, decide_eq_true_eq]
  split <;> rfl

theorem length_taken_le (axis : Axis) (ps : List Placed) : (taken axis ps).length ≤ ps.length := by
  calc (taken axis ps).length = ((ps.map Placed.choice).filter (·.1 = axis)).length :=
      List.length_map _
    _ ≤ (ps.map Placed.choice).length := List.length_filter_le ..
    _ = ps.length := List.length_map _

namespace Supplied

/-- The two arguments. -/
def texts : Supplied → List Text
  | placed p => p.texts
  | bare _ name flag _ => [flag, name]

/-- The name with its position. For a bare flag a rule makes it from those that are taken. -/
def settle (rule : List Nat → Nat) (earlier : List Placed) : Supplied → Placed
  | placed p => p
  | bare axis name _ _ => .ofPosition axis (rule (taken axis earlier)) name

/-- The flag writes its position, or it does not stand behind a gap. -/
def NotBehindGap (earlier : List Placed) : Supplied → Prop
  | placed _ => True
  | bare axis _ _ _ => NoGap (taken axis earlier)

theorem settle_eq_iff {earlier : List Placed} {s : Supplied} :
    s.settle afterCount earlier = s.settle lowestFree earlier ↔ s.NotBehindGap earlier := by
  cases s with
  | placed p => exact iff_of_true rfl trivial
  | bare axis name flag isBare =>
    rw [NotBehindGap, ← afterCount_eq_lowestFree_iff, settle, settle]
    exact ⟨congrArg Placed.position, fun heq => by rw [heq]⟩

end Supplied

/-- The names with their positions, settled from left to right behind some earlier ones. -/
def settled (rule : List Nat → Nat) (earlier : List Placed) : List Supplied → List Placed
  | [] => []
  | s :: ss => s.settle rule earlier :: settled rule (earlier ++ [s.settle rule earlier]) ss

/-- No bare flag stands behind a gap of its axis. -/
def Gapless (earlier : List Placed) : List Supplied → Prop
  | [] => True
  | s :: ss => s.NotBehindGap earlier ∧ Gapless (earlier ++ [s.settle afterCount earlier]) ss

section
variable {rule : List Nat → Nat} {earlier : List Placed} {ss : List Supplied}

theorem settled_eq_iff :
    settled afterCount earlier ss = settled lowestFree earlier ss ↔ Gapless earlier ss := by
  induction ss generalizing earlier with
  | nil => exact iff_of_true rfl trivial
  | cons s ss ih =>
    rw [Gapless, ← Supplied.settle_eq_iff, ← ih, settled, settled, List.cons.injEq]
    refine and_congr_right fun hsame => ?_
    rw [hsame]

theorem mem_settled_of_placed {p : Placed} (h : .placed p ∈ ss) : p ∈ settled rule earlier ss := by
  induction ss generalizing earlier with
  | nil => cases h
  | cons s ss ih =>
    rw [settled, List.mem_cons]
    obtain rfl | hlater := List.mem_cons.mp h
    · exact .inl rfl
    · exact .inr (ih hlater)

/-- A bare flag takes no position up to as many as its axis has before it. -/
theorem placed_mem_of_le_length {p : Placed} (hp : p ∈ settled afterCount earlier ss)
    (hle : p.position ≤ (taken p.axis earlier).length) : .placed p ∈ ss := by
  induction ss generalizing earlier with
  | nil => cases hp
  | cons s ss ih =>
    rw [settled] at hp
    obtain rfl | hlater := List.mem_cons.mp hp
    · cases s with
      | placed p => exact List.mem_cons_self
      | bare axis name flag isBare => exact absurd hle (Nat.not_succ_le_self _)
    · refine List.mem_cons_of_mem _ (ih hlater ?_)
      rw [taken_append, List.length_append]
      exact hle.trans (Nat.le_add_right ..)

/-- A gap that a bare flag passes over is closed only by a flag that writes the position. -/
theorem exists_placed_of_gap {axis : Axis} (hgap : ¬ NoGap (taken axis earlier))
    (hclosed : NoGap (taken axis (earlier ++ settled afterCount earlier ss))) :
    ∃ p, .placed p ∈ ss ∧ p.axis = axis ∧ p.position = lowestFree (taken axis earlier) := by
  obtain ⟨hfree, hpos, hle, -⟩ := lowestFree_spec (taken axis earlier)
  have hlow : lowestFree (taken axis earlier) ≤ (taken axis earlier).length := by
    have hne := mt (afterCount_eq_lowestFree_iff _).mp hgap
    rw [afterCount] at hne
    omega
  have hlength : (taken axis earlier).length ≤
      (taken axis (earlier ++ settled afterCount earlier ss)).length := by
    rw [taken_append, List.length_append]
    exact Nat.le_add_right ..
  have hmem := hclosed.mem_iff.mpr ⟨hpos, hlow.trans hlength⟩
  rw [taken_append, List.mem_append, or_iff_right hfree] at hmem
  obtain ⟨p, hp, rfl, hposition⟩ := mem_taken.mp hmem
  exact ⟨p, placed_mem_of_le_length hp (hposition ▸ hlow), rfl, hposition⟩

/-- Positions that one rule settles without a gap and the other without a repetition are the same:
the flag that closes a gap would take a position that the other rule gives away. -/
theorem gapless_of_noGap_of_nodup
    (hcount : ∀ axis, NoGap (taken axis (earlier ++ settled afterCount earlier ss)))
    (hlowest : ∀ axis, (taken axis (earlier ++ settled lowestFree earlier ss)).Nodup) :
    Gapless earlier ss := by
  induction ss generalizing earlier with
  | nil => trivial
  | cons s ss ih =>
    by_cases hs : s.NotBehindGap earlier
    · have hsame := Supplied.settle_eq_iff.mpr hs
      rw [settled, List.append_cons] at hcount hlowest
      rw [← hsame] at hlowest
      exact ⟨hs, ih hcount hlowest⟩
    · cases s with
      | placed p => exact absurd trivial hs
      | bare axis name flag isBare =>
        obtain ⟨p, hp, rfl, hposition⟩ := exists_placed_of_gap hs (hcount axis)
        have hlater := (List.mem_cons.mp hp).resolve_left nofun
        have honce := hlowest p.axis
        rw [settled, List.append_cons, taken_append] at honce
        have hgiven : lowestFree (taken p.axis earlier) ∈ taken p.axis (earlier ++
            [(Supplied.bare p.axis name flag isBare).settle lowestFree earlier]) :=
          mem_taken.mpr ⟨_, List.mem_append_right _ List.mem_cons_self, rfl, rfl⟩
        exact absurd (mem_taken.mpr ⟨p, mem_settled_of_placed hlater, rfl, hposition⟩)
          (List.disjoint_of_nodup_append honce hgiven)

theorem exists_of_settled_eq {before after : List Placed} {p : Placed}
    (h : settled rule earlier ss = before ++ p :: after) :
    ∃ ss₁ s ss₂, ss = ss₁ ++ s :: ss₂ ∧ before = settled rule earlier ss₁ ∧
      p = s.settle rule (earlier ++ before) := by
  induction ss generalizing earlier before with
  | nil => exact absurd h.symm (by simp [settled])
  | cons s ss ih =>
    rw [settled] at h
    cases before with
    | nil =>
      rw [List.append_nil]
      exact ⟨[], s, ss, rfl, rfl, (List.cons.inj h).1.symm⟩
    | cons first before =>
      obtain ⟨rfl, hrest⟩ := List.cons.inj h
      obtain ⟨ss₁, s', ss₂, rfl, rfl, hp⟩ := ih hrest
      rw [List.append_assoc, List.singleton_append] at hp
      exact ⟨s :: ss₁, s', ss₂, rfl, rfl, hp⟩

end

/-! ## Reading -/

section
variable {g : Given} {earlier : List Placed}

theorem read_bare {flag : Text} {axis : Axis} (h : IsBare flag axis) (name : Text)
    (rest : List Text) :
    read g (flag :: name :: rest) =
      match place? ((g.on axis).length + 1) (Text.trim name) (g.on axis) with
      | none => .error (.repeated axis ((g.on axis).length + 1))
      | some names => read (g.withNames axis names) rest := by
  rw [read, flag?_of_isBare h]
  rfl

/-- A bare flag is read as the flag of the position after as many as its axis has. -/
theorem read_settle (hcount : ∀ axis, (g.on axis).length = (taken axis earlier).length)
    (hlimit : earlier.length + 1 < Text.numberLimit) (s : Supplied) (rest : List Text) :
    read g (s.texts ++ rest) = read g ((s.settle afterCount earlier).texts ++ rest) := by
  cases s with
  | placed p => rfl
  | bare axis name flag isBare =>
    have hrange : InRange (afterCount (taken axis earlier)) :=
      ⟨Nat.succ_pos _, (Nat.succ_le_succ (length_taken_le axis earlier)).trans_lt hlimit⟩
    refine Eq.trans ?_ ((read_placed _ rest).trans (if_pos hrange)).symm
    rw [Supplied.texts, List.cons_append, List.cons_append, List.nil_append, read_bare isBare,
      hcount]
    rfl

theorem length_on_of_place? {p : Placed} {names : List (Nat × Text)}
    (hcount : ∀ axis, (g.on axis).length = (taken axis earlier).length)
    (h : place? p.position (Text.trim p.name) (g.on p.axis) = some names) (axis : Axis) :
    ((g.withNames p.axis names).on axis).length = (taken axis (earlier ++ [p])).length := by
  rw [Given.on_withNames, taken_append, taken_singleton, List.length_append, ← hcount]
  split
  · rename_i haxis
    subst haxis
    rw [if_pos rfl, (perm_of_place? h).length_eq]
    rfl
  · rename_i haxis
    rw [if_neg fun heq => haxis heq.symm]
    rfl

theorem read_settled (hcount : ∀ axis, (g.on axis).length = (taken axis earlier).length)
    (ss : List Supplied) (hlimit : earlier.length + ss.length < Text.numberLimit) :
    read g (ss.flatMap Supplied.texts) =
      read g ((settled afterCount earlier ss).flatMap Placed.texts) := by
  induction ss generalizing g earlier with
  | nil => rfl
  | cons s ss ih =>
    rw [List.length_cons] at hlimit
    rw [List.flatMap_cons, settled, List.flatMap_cons, read_settle hcount (by omega), read_placed,
      read_placed]
    split
    · split
      · rfl
      · rename_i names hplace
        refine ih (length_on_of_place? hcount hplace) ?_
        rw [List.length_append, List.length_singleton]
        omega
    · rfl

/-- A position is repeated where a name is read behind a flag of it and an earlier name has it. -/
theorem exists_of_read_eq_repeated {ps : List Placed} {axis : Axis} {n : Nat} (hg : g.Sorted)
    (h : read g (ps.flatMap Placed.texts) = .error (.repeated axis n)) :
    ∃ before p after, ps = before ++ p :: after ∧ p.axis = axis ∧ p.position = n ∧
      n ∈ (together g before axis).map Prod.fst := by
  induction ps generalizing g with
  | nil => cases h
  | cons p ps ih =>
    rw [List.flatMap_cons, read_placed] at h
    split at h
    · split at h
      · rename_i hplace
        obtain ⟨rfl, rfl⟩ := ArgumentFlaw.repeated.inj (Except.error.inj h)
        refine ⟨[], p, ps, rfl, rfl, rfl, ?_⟩
        rw [together, List.map_append]
        exact List.mem_append_left _ ((place?_eq_none_iff (hg p.axis)).mp hplace)
      · rename_i names hplace
        obtain ⟨before, q, after, rfl, haxis, hposition, hmem⟩ :=
          ih (hg.withNames (sorted_of_place? (hg p.axis) hplace)) h
        refine ⟨p :: before, q, after, rfl, haxis, hposition, ?_⟩
        exact ((perm_together_of_place? hplace axis).map Prod.fst).mem_iff.mp hmem
    · cases h

end

/-! ## Choosing -/

theorem exists_gap_of_contiguous_eq_error {axis : Axis} {first : Nat} {given : List (Nat × Text)}
    {flaw : ArgumentFlaw} (h : contiguous axis first given = .error flaw) :
    ∃ position expected, flaw = .gap axis position expected := by
  induction given generalizing first with
  | nil => cases h
  | cons entry given ih =>
    rw [contiguous] at h
    split at h
    · cases hrest : contiguous axis (first + 1) given with
      | ok names =>
        rw [hrest] at h
        cases h
      | error flaw' =>
        rw [hrest] at h
        obtain rfl : flaw' = flaw := Except.error.inj h
        exact ih hrest
    · exact ⟨_, _, (Except.error.inj h).symm⟩

/-- Only the reading finds a position repeated. -/
theorem read_eq_of_ofArguments_eq_repeated {arguments : List Text} {axis : Axis} {n : Nat}
    (h : Context.ofArguments arguments = .error (.repeated axis n)) :
    read ⟨[], []⟩ arguments = .error (.repeated axis n) := by
  rw [Context.ofArguments, chosen] at h
  cases hread : read ⟨[], []⟩ arguments with
  | error flaw =>
    rw [hread] at h
    obtain rfl : flaw = .repeated axis n := Except.error.inj h
    rfl
  | ok g =>
    rw [hread] at h
    simp only [bind, Except.bind, pure, Except.pure] at h
    cases hscenarios : contiguous .scenario 1 g.scenarios with
    | error flaw =>
      obtain ⟨_, _, rfl⟩ := exists_gap_of_contiguous_eq_error hscenarios
      rw [hscenarios] at h
      cases h
    | ok scenarios =>
      cases hevents : contiguous .event 1 g.events with
      | error flaw =>
        obtain ⟨_, _, rfl⟩ := exists_gap_of_contiguous_eq_error hevents
        rw [hscenarios, hevents] at h
        cases h
      | ok events =>
        rw [hscenarios, hevents] at h
        cases h

theorem noGap_of_chosen {ps : List Placed} {c : Context}
    (h : Context.ofArguments (ps.flatMap Placed.texts) = .ok c) (axis : Axis) :
    NoGap (taken axis ps) := by
  obtain ⟨chosen, hchosen, -⟩ := Except.map_eq_ok.mp h
  have hperm := (chosen_eq_ok_iff.mp hchosen axis).2.map Prod.fst
  rw [map_fst_choicesOn, map_fst_numbered] at hperm
  have hlength := hperm.length_eq
  rw [List.length_range'] at hlength
  rwa [← hlength] at hperm

section
variable {ss : List Supplied}

/-- A bare flag takes the position after as many as its axis has by then. -/
theorem ofArguments_settled (hlimit : ss.length < Text.numberLimit) :
    Context.ofArguments (ss.flatMap Supplied.texts) =
      Context.ofArguments ((settled afterCount [] ss).flatMap Placed.texts) := by
  have hcount : ∀ axis, (Given.on ⟨[], []⟩ axis).length = (taken axis []).length := by
    intro axis
    cases axis <;> rfl
  rw [Context.ofArguments, Context.ofArguments, chosen, chosen,
    read_settled hcount ss (by rwa [List.length_nil, Nat.zero_add])]

theorem gapless_of_chosen {c c' : Context}
    (hcount : Context.ofArguments ((settled afterCount [] ss).flatMap Placed.texts) = .ok c)
    (hlowest : Context.ofArguments ((settled lowestFree [] ss).flatMap Placed.texts) = .ok c') :
    Gapless [] ss := by
  refine gapless_of_noGap_of_nodup (noGap_of_chosen hcount) fun axis => ?_
  exact (noGap_of_chosen hlowest axis).nodup_iff.mpr List.nodup_range'

/-- Under the lowest free positions only a flag that writes its position repeats one. -/
theorem exists_placed_of_repeated {axis : Axis} {n : Nat}
    (h : Context.ofArguments ((settled lowestFree [] ss).flatMap Placed.texts) =
      .error (.repeated axis n)) :
    ∃ before p after, ss = before ++ .placed p :: after ∧ p.axis = axis ∧ p.position = n ∧
      n ∈ taken axis (settled lowestFree [] before) := by
  obtain ⟨before, p, after, hsplit, haxis, hposition, hmem⟩ :=
    exists_of_read_eq_repeated Given.sorted_nil (read_eq_of_ofArguments_eq_repeated h)
  obtain ⟨ss₁, s, ss₂, rfl, rfl, rfl⟩ := exists_of_settled_eq hsplit
  rw [together_nil, map_fst_choicesOn, List.nil_append] at *
  cases s with
  | placed p => exact ⟨ss₁, p, ss₂, rfl, haxis, hposition, hmem⟩
  | bare other name flag isBare =>
    obtain ⟨rfl, rfl⟩ := And.intro haxis hposition
    exact absurd hmem (lowestFree_spec _).1

end

/-- Each bare flag takes the position after as many as its axis has, and that is the lowest free one
exactly if none stands behind a gap. Then a position is repeated only by a flag that writes one that
an earlier name has. If a bare flag stands behind a gap, then the positions that are taken and the
lowest free ones do not both choose a run. -/
theorem ofArguments_supplied (ss : List Supplied) (hlimit : ss.length < Text.numberLimit) :
    let answer := Context.ofArguments (ss.flatMap Supplied.texts)
    let written := fun rule => Context.ofArguments ((settled rule [] ss).flatMap Placed.texts)
    answer = written afterCount ∧
      (settled afterCount [] ss = settled lowestFree [] ss ↔ Gapless [] ss) ∧
      (Gapless [] ss → ∀ axis n, answer = .error (.repeated axis n) →
        ∃ before p after, ss = before ++ .placed p :: after ∧ p.axis = axis ∧ p.position = n ∧
          n ∈ taken axis (settled lowestFree [] before)) ∧
      ∀ c c', answer = .ok c → written lowestFree = .ok c' → Gapless [] ss := by
  intro answer written
  have hanswer : answer = written afterCount := ofArguments_settled hlimit
  refine ⟨hanswer, settled_eq_iff, fun hgapless axis n hrepeated => ?_, fun c c' hc hc' => ?_⟩
  · have hsame : written afterCount = written lowestFree := by
      simp only [written, settled_eq_iff.mpr hgapless]
    exact exists_placed_of_repeated (hsame.symm.trans (hanswer.symm.trans hrepeated))
  · exact gapless_of_chosen (hanswer.symm.trans hc) hc'

/-- Bare flags before, between and behind written ones. The first position is repeated only by the
flag that writes it again. -/
theorem ofArguments_supplied_mixed :
    let first : Supplied := .bare .scenario "A" "-s" ⟨'s', by decide, rfl⟩
    let second : Supplied := .placed (.ofPosition .scenario 2 "B")
    let event : Supplied := .bare .event "Q" "-E" ⟨'E', by decide, rfl⟩
    let third : Supplied := .bare .scenario "C" "-s" ⟨'s', by decide, rfl⟩
    let again : Supplied := .placed (.ofPosition .scenario 1 "D")
    Context.ofArguments ["-s", "A", "-s2", "B", "-E", "Q", "-s", "C"] =
        Context.ofArguments ["-s1", "A", "-s2", "B", "-e1", "Q", "-s3", "C"] ∧
      Gapless [] [first, second, event, third] ∧
      ∃ before p after, [first, second, again] = before ++ .placed p :: after ∧
        p.axis = .scenario ∧ p.position = 1 ∧
          1 ∈ taken .scenario (settled lowestFree [] before) := by
  intro first second event third again
  have hwritten : ∀ rule ∈ [afterCount, lowestFree],
      (settled rule [] [first, second, event, third]).flatMap Placed.texts =
        ["-s1", "A", "-s2", "B", "-e1", "Q", "-s3", "C"] := by decide
  obtain ⟨hsettled, -, -, hgapless⟩ :=
    ofArguments_supplied [first, second, event, third] (by decide)
  simp only [hwritten _ List.mem_cons_self,
    hwritten _ (List.mem_cons_of_mem _ List.mem_cons_self)] at hsettled hgapless
  obtain ⟨-, hsame, hrepeated, -⟩ := ofArguments_supplied [first, second, again] (by decide)
  refine ⟨hsettled, ?_, ?_⟩
  · exact hgapless _ _ (hsettled.trans rfl) rfl
  · exact hrepeated (hsame.mp rfl) .scenario 1 rfl

/-- Behind a name for the second position a bare flag does not take the first, which is free: it
takes the second again. -/
theorem not_forall_ofArguments_lowestFree :
    Context.ofArguments ["-s2", "B", "-s", "A"] = .error (.repeated .scenario 2) ∧
      ¬ ∀ ss : List Supplied, Context.ofArguments (ss.flatMap Supplied.texts) =
        Context.ofArguments ((settled lowestFree [] ss).flatMap Placed.texts) := by
  refine ⟨rfl, fun hall => ?_⟩
  have hsame := hall [.placed (.ofPosition .scenario 2 "B"),
    .bare .scenario "A" "-s" ⟨'s', by decide, rfl⟩]
  have hfree : Context.ofArguments ["-s2", "B", "-s1", "A"] = .ok (.ofChosen ⟨["A", "B"], []⟩) :=
    rfl
  cases hsame.trans hfree

end ControlFiles.Arguments
