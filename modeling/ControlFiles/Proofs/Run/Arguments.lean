import ControlFiles.Proofs.Except
import ControlFiles.Proofs.Text.Numerals
import ControlFiles.Run.Context
import Mathlib.Data.List.Nodup
import Mathlib.Data.Nat.Basic
import Mathlib.Order.Basic

/-!
# Names given with their positions

A name is given for a run behind a flag that writes its position on an axis (`Placed`). Names that
are given so choose a run exactly if they are, in whatever order, the numbered names of the two axes
(`chosen_eq_ok_iff`): an insertion keeps what is given sorted by position, so that at the end only
the gaps are left to look for.
-/

namespace ControlFiles

/-- The letters that name an axis in a flag. -/
def Axis.letters : Axis → List Char
  | .scenario => ['s', 'S']
  | .event => ['e', 'E']

namespace Arguments

/-! ## Flags -/

/-- The flag writes a position of an axis: some digits that denote it, behind a dash and a letter of
the axis. A plus sign may stand before the digits. -/
def Writes (flag : Text) (axis : Axis) (position : Nat) : Prop :=
  ∃ letter ∈ axis.letters, ∃ digits, Text.number? digits = some position ∧
    (flag = '-' :: letter :: digits ∨ flag = '-' :: letter :: '+' :: digits)

theorem writes_flag (axis : Axis) (n : Nat) : Writes (axis.flag n) axis n := by
  have hdigits := Text.number?_replicate_append_decimal 0 n
  cases axis with
  | scenario => exact ⟨'s', by simp [Axis.letters], Text.decimal n, hdigits, .inl rfl⟩
  | event => exact ⟨'e', by simp [Axis.letters], Text.decimal n, hdigits, .inl rfl⟩

/-- A position that a run can have. -/
abbrev InRange (position : Nat) : Prop := 0 < position ∧ position < Text.numberLimit

theorem position?_of_number? {digits : Text} {n : Nat} (h : Text.number? digits = some n) :
    position? digits = (if InRange n then some n else none) ∧
      position? ('+' :: digits) = if InRange n then some n else none := by
  constructor
  · rw [position?, h]
    · simp
    · rintro rest rfl
      exact absurd ((Text.number?_eq_some.mp h).2.1 '+' List.mem_cons_self) (by decide)
  · simp [position?, h]

theorem flag?_of_writes {flag : Text} {axis : Axis} {n : Nat} (h : Writes flag axis n) :
    flag? flag = if InRange n then some (axis, some n) else none := by
  obtain ⟨letter, hletter, digits, hdigits, hflag⟩ := h
  obtain ⟨hplain, hplus⟩ := position?_of_number? hdigits
  have hne : digits ≠ [] := (Text.number?_eq_some.mp hdigits).1
  have hmap : (if InRange n then some n else none).map (fun n => (axis, some n)) =
      if InRange n then some (axis, some n) else none := by
    split <;> rfl
  cases axis <;> simp only [Axis.letters, List.mem_cons, List.not_mem_nil, or_false] at hletter <;>
    obtain rfl | rfl := hletter <;> obtain rfl | rfl := hflag <;>
      simp [flag?, hplain, hplus, hne, hmap]

/-! ## Given names -/

namespace Given

/-- The names of each axis stand in the order of their positions. -/
def Sorted (g : Given) : Prop := ∀ axis, (g.on axis).Pairwise (·.1 < ·.1)

@[simp] theorem on_withNames (g : Given) (axis other : Axis) (names : List (Nat × Text)) :
    (g.withNames axis names).on other = if other = axis then names else g.on other := by
  cases axis <;> cases other <;> rfl

theorem Sorted.withNames {g : Given} (h : g.Sorted) {axis : Axis} {names : List (Nat × Text)}
    (hnames : names.Pairwise (·.1 < ·.1)) : (g.withNames axis names).Sorted := by
  intro other
  rw [on_withNames]
  split
  · exact hnames
  · exact h other

end Given

section
variable {n : Nat} {name : Text} {names names' : List (Nat × Text)}

theorem perm_of_place? (h : place? n name names = some names') :
    names'.Perm ((n, name) :: names) := by
  induction names generalizing names' with
  | nil => exact .of_eq (Option.some.inj h).symm
  | cons entry names ih =>
    rw [place?] at h
    split at h
    · exact .of_eq (Option.some.inj h).symm
    · split at h
      · exact nomatch h
      · obtain ⟨placed, hplaced, rfl⟩ := Option.map_eq_some_iff.mp h
        exact ((ih hplaced).cons entry).trans (.swap ..)

theorem sorted_of_place? (hnames : names.Pairwise (·.1 < ·.1))
    (h : place? n name names = some names') : names'.Pairwise (·.1 < ·.1) := by
  induction names generalizing names' with
  | nil =>
    rw [← Option.some.inj h]
    exact List.pairwise_singleton ..
  | cons entry names ih =>
    obtain ⟨hfirst, hrest⟩ := List.pairwise_cons.mp hnames
    rw [place?] at h
    split at h
    · rename_i hlt
      rw [← Option.some.inj h]
      refine List.pairwise_cons.mpr ⟨fun other hother => ?_, hnames⟩
      obtain rfl | hother := List.mem_cons.mp hother
      · exact hlt
      · exact hlt.trans (hfirst other hother)
    · split at h
      · exact nomatch h
      · obtain ⟨placed, hplaced, rfl⟩ := Option.map_eq_some_iff.mp h
        refine List.pairwise_cons.mpr ⟨fun other hother => ?_, ih hrest hplaced⟩
        obtain rfl | hother := List.mem_cons.mp ((perm_of_place? hplaced).mem_iff.mp hother)
        · simp only
          omega
        · exact hfirst other hother

/-- A name has no place exactly if its position is taken. -/
theorem place?_eq_none_iff (hnames : names.Pairwise (·.1 < ·.1)) :
    place? n name names = none ↔ n ∈ names.map Prod.fst := by
  induction names with
  | nil => simp [place?]
  | cons entry names ih =>
    obtain ⟨hfirst, hrest⟩ := List.pairwise_cons.mp hnames
    rw [place?, List.map_cons, List.mem_cons]
    split
    · rename_i hlt
      refine ⟨nofun, fun htaken => ?_⟩
      obtain heq | hlater := htaken
      · omega
      · obtain ⟨other, hother, rfl⟩ := List.mem_map.mp hlater
        have := hfirst other hother
        omega
    · split
      · rename_i heq
        exact iff_of_true rfl (.inl heq)
      · rename_i hne
        rw [Option.map_eq_none_iff, ih hrest, or_iff_right hne]

end

/-! ## Reading -/

/-- A name behind a flag that writes its position. -/
structure Placed where
  axis : Axis
  position : Nat
  name : Text
  flag : Text
  writes : Writes flag axis position

namespace Placed

/-- The name behind the flag of a position. -/
def ofPosition (axis : Axis) (position : Nat) (name : Text) : Placed :=
  ⟨axis, position, name, axis.flag position, writes_flag axis position⟩

/-- The two arguments. -/
def texts (p : Placed) : List Text := [p.flag, p.name]

/-- What is asked for. -/
def choice (p : Placed) : Axis × Nat × Text := (p.axis, p.position, p.name)

end Placed

/-- The choices on an axis: the positions, with the names as a run has them. -/
def choicesOn (axis : Axis) (choices : List (Axis × Nat × Text)) : List (Nat × Text) :=
  (choices.filter (·.1 = axis)).map fun c => (c.2.1, Text.trim c.2.2)

/-- The positions on an axis that are asked for. -/
def positionsOn (axis : Axis) (choices : List (Axis × Nat × Text)) : List Nat :=
  (choices.filter (·.1 = axis)).map (·.2.1)

theorem map_fst_choicesOn (axis : Axis) (choices : List (Axis × Nat × Text)) :
    (choicesOn axis choices).map Prod.fst = positionsOn axis choices := by
  rw [choicesOn, List.map_map]
  rfl

theorem choicesOn_cons (axis : Axis) (c : Axis × Nat × Text) (choices : List (Axis × Nat × Text)) :
    choicesOn axis (c :: choices) =
      if c.1 = axis then (c.2.1, Text.trim c.2.2) :: choicesOn axis choices
      else choicesOn axis choices := by
  rw [choicesOn, List.filter_cons]
  split <;> simp_all [choicesOn]

section
variable {g g' : Given} {ps : List Placed}

theorem read_placed (p : Placed) (rest : List Text) :
    read g (p.texts ++ rest) =
      if InRange p.position then
        match place? p.position (Text.trim p.name) (g.on p.axis) with
        | none => .error (.repeated p.axis p.position)
        | some names => read (g.withNames p.axis names) rest
      else .error (.unknown p.flag) := by
  rw [Placed.texts, List.cons_append, List.cons_append, List.nil_append, read,
    flag?_of_writes p.writes]
  split
  · rename_i hnone
    rw [if_neg (by simpa using hnone)]
  · rename_i axis position hsome
    obtain ⟨hrange, hsome⟩ := Option.ite_some_none_eq_some.mp hsome
    obtain ⟨rfl, rfl⟩ := Prod.mk.inj hsome
    rw [if_pos hrange]
    rfl

/-- What was given before and what is given now. -/
def together (g : Given) (ps : List Placed) (axis : Axis) : List (Nat × Text) :=
  g.on axis ++ choicesOn axis (ps.map Placed.choice)

/-- Each name that finds its place moves from what is asked for to what is given. -/
theorem perm_together_of_place? {p : Placed} {names : List (Nat × Text)}
    (h : place? p.position (Text.trim p.name) (g.on p.axis) = some names) (axis : Axis) :
    (together (g.withNames p.axis names) ps axis).Perm (together g (p :: ps) axis) := by
  rw [together, together, Given.on_withNames, List.map_cons, choicesOn_cons]
  split
  · rename_i hon
    subst hon
    rw [if_pos (show p.choice.1 = p.axis from rfl)]
    exact ((perm_of_place? h).append_right _).trans List.perm_middle.symm
  · rename_i hon
    rw [if_neg fun heq => hon heq.symm]

theorem perm_of_read (hg : g.Sorted) (h : read g (ps.flatMap Placed.texts) = .ok g') :
    g'.Sorted ∧ (∀ p ∈ ps, InRange p.position) ∧
      ∀ axis, (g'.on axis).Perm (together g ps axis) := by
  induction ps generalizing g with
  | nil =>
    obtain rfl := Except.ok.inj h
    exact ⟨hg, nofun, fun axis => .of_eq (List.append_nil _).symm⟩
  | cons p ps ih =>
    rw [List.flatMap_cons, read_placed] at h
    split at h
    · rename_i hrange
      split at h
      · exact nomatch h
      · rename_i names hplace
        obtain ⟨hsorted, hranges, hperm⟩ :=
          ih (hg.withNames (sorted_of_place? (hg p.axis) hplace)) h
        exact ⟨hsorted, List.forall_mem_cons.mpr ⟨hrange, hranges⟩,
          fun axis => (hperm axis).trans (perm_together_of_place? hplace axis)⟩
    · exact nomatch h

/-- Positions that a run can have, each asked for once, are all given. -/
theorem exists_read (hg : g.Sorted) (hranges : ∀ p ∈ ps, InRange p.position)
    (honce : ∀ axis, ((together g ps axis).map Prod.fst).Nodup) :
    ∃ g', read g (ps.flatMap Placed.texts) = .ok g' := by
  induction ps generalizing g with
  | nil => exact ⟨g, rfl⟩
  | cons p ps ih =>
    obtain ⟨hrange, hranges⟩ := List.forall_mem_cons.mp hranges
    have hfree : place? p.position (Text.trim p.name) (g.on p.axis) ≠ none := by
      have hone := honce p.axis
      rw [together, List.map_cons, choicesOn_cons, if_pos (show p.choice.1 = p.axis from rfl),
        List.map_append] at hone
      rw [Ne, place?_eq_none_iff (hg p.axis)]
      exact fun htaken => List.disjoint_of_nodup_append hone htaken List.mem_cons_self
    obtain ⟨names, hplace⟩ := Option.ne_none_iff_exists'.mp hfree
    rw [List.flatMap_cons, read_placed, if_pos hrange, hplace]
    refine ih (hg.withNames (sorted_of_place? (hg p.axis) hplace)) hranges fun axis => ?_
    exact ((perm_together_of_place? hplace axis).map Prod.fst).nodup_iff.mpr (honce axis)

end

/-! ## Choosing -/

/-- The names in order, with the positions from 1 on. -/
def numbered (names : List Text) : List (Nat × Text) := (names.zipIdx 1).map Prod.swap

theorem map_fst_numbered (names : List Text) :
    (numbered names).map Prod.fst = List.range' 1 names.length := by
  rw [numbered, List.map_map, ← List.zipIdx_map_snd 1 names]
  rfl

theorem sorted_numbered (names : List Text) : (numbered names).Pairwise (·.1 < ·.1) := by
  have hpositions : ((numbered names).map Prod.fst).Pairwise (· < ·) := by
    rw [map_fst_numbered]
    exact List.pairwise_lt_range'
  exact List.pairwise_map.mp hpositions

theorem contiguous_eq_ok_iff {axis : Axis} {first : Nat} {given : List (Nat × Text)}
    {names : List Text} :
    contiguous axis first given = .ok names ↔ given = (names.zipIdx first).map Prod.swap := by
  induction given generalizing first names with
  | nil =>
    refine ⟨fun h => ?_, fun h => ?_⟩
    · rw [← Except.ok.inj h]
      rfl
    · rw [List.zipIdx_eq_nil_iff.mp (List.map_eq_nil_iff.mp h.symm)]
      rfl
  | cons entry given ih =>
    obtain ⟨position, name⟩ := entry
    rw [contiguous]
    refine ⟨fun h => ?_, fun h => ?_⟩
    · split at h
      · rename_i hposition
        obtain ⟨rest, hrest, rfl⟩ := Except.map_eq_ok.mp h
        rw [ih.mp hrest, hposition]
        rfl
      · exact nomatch h
    · cases names with
      | nil => exact nomatch h
      | cons other names =>
        obtain ⟨hentry, hgiven⟩ := List.cons.inj h
        obtain ⟨rfl, rfl⟩ := Prod.mk.inj hentry
        rw [if_pos rfl, ih.mpr hgiven]
        rfl

theorem chosen_eq_ok_iff_read {arguments : List Text} {c : Chosen} :
    chosen arguments = .ok c ↔
      ∃ g, read ⟨[], []⟩ arguments = .ok g ∧ ∀ axis, g.on axis = numbered (c.names axis) := by
  have hbind : chosen arguments = (read ⟨[], []⟩ arguments).bind fun g =>
      (contiguous .scenario 1 g.scenarios).bind fun scenarios =>
        (contiguous .event 1 g.events).bind fun events => .ok ⟨scenarios, events⟩ := rfl
  simp only [hbind, Except.bind_eq_ok, contiguous_eq_ok_iff, Except.ok.injEq]
  constructor
  · rintro ⟨g, hread, scenarios, hscenarios, events, hevents, rfl⟩
    refine ⟨g, hread, fun axis => ?_⟩
    cases axis with
    | scenario => exact hscenarios
    | event => exact hevents
  · rintro ⟨g, hread, hnames⟩
    exact ⟨g, hread, c.scenarios, hnames .scenario, c.events, hnames .event, rfl⟩

theorem mem_positionsOn {ps : List Placed} {axis : Axis} {n : Nat} :
    n ∈ positionsOn axis (ps.map Placed.choice) ↔ ∃ p ∈ ps, p.axis = axis ∧ p.position = n := by
  simp only [positionsOn, List.mem_map, List.mem_filter, decide_eq_true_eq]
  constructor
  · rintro ⟨_, ⟨⟨p, hp, rfl⟩, haxis⟩, hn⟩
    exact ⟨p, hp, haxis, hn⟩
  · rintro ⟨p, hp, haxis, hn⟩
    exact ⟨p.choice, ⟨⟨p, hp, rfl⟩, haxis⟩, hn⟩

theorem Given.sorted_nil : Given.Sorted ⟨[], []⟩
  | .scenario => .nil
  | .event => .nil

theorem together_nil (ps : List Placed) (axis : Axis) :
    together ⟨[], []⟩ ps axis = choicesOn axis (ps.map Placed.choice) := by
  cases axis <;> rfl

/-- Names that are given with their positions choose a run exactly if on each axis they are, in some
order, its numbered names. -/
theorem chosen_eq_ok_iff {ps : List Placed} {c : Chosen} :
    chosen (ps.flatMap Placed.texts) = .ok c ↔
      ∀ axis, (c.names axis).length < Text.numberLimit ∧
        (choicesOn axis (ps.map Placed.choice)).Perm (numbered (c.names axis)) := by
  have hpositions : ∀ {axis} {names : List Text},
      (choicesOn axis (ps.map Placed.choice)).Perm (numbered names) → ∀ n,
        (∃ p ∈ ps, p.axis = axis ∧ p.position = n) ↔ 0 < n ∧ n ≤ names.length := by
    intro axis names hperm n
    rw [← mem_positionsOn, ← map_fst_choicesOn, (hperm.map Prod.fst).mem_iff, map_fst_numbered,
      List.mem_range'_1]
    omega
  rw [chosen_eq_ok_iff_read]
  constructor
  · rintro ⟨g, hread, hnames⟩ axis
    obtain ⟨-, hranges, hperm⟩ := perm_of_read Given.sorted_nil hread
    have hplaced : (choicesOn axis (ps.map Placed.choice)).Perm (numbered (c.names axis)) := by
      rw [← hnames axis, ← together_nil ps axis]
      exact (hperm axis).symm
    refine ⟨?_, hplaced⟩
    obtain hnone | hsome := Nat.eq_zero_or_pos (c.names axis).length
    · rw [hnone]
      decide
    · -- the last position is one of those that a flag writes
      obtain ⟨p, hp, -, hlast⟩ := (hpositions hplaced _).mpr ⟨hsome, Nat.le_refl _⟩
      exact hlast ▸ (hranges p hp).2
  · intro h
    have hranges : ∀ p ∈ ps, InRange p.position := by
      intro p hp
      obtain ⟨hlength, hperm⟩ := h p.axis
      obtain ⟨hpos, hle⟩ := (hpositions hperm _).mp ⟨p, hp, rfl, rfl⟩
      exact ⟨hpos, hle.trans_lt hlength⟩
    have honce : ∀ axis, ((together ⟨[], []⟩ ps axis).map Prod.fst).Nodup := by
      intro axis
      rw [together_nil, ((h axis).2.map Prod.fst).nodup_iff, map_fst_numbered]
      exact List.nodup_range'
    obtain ⟨g, hread⟩ := exists_read Given.sorted_nil hranges honce
    obtain ⟨hsorted, -, hperm⟩ := perm_of_read Given.sorted_nil hread
    refine ⟨g, hread, fun axis => ?_⟩
    have hsame : (g.on axis).Perm (numbered (c.names axis)) := by
      refine (hperm axis).trans ?_
      rw [together_nil]
      exact (h axis).2
    exact hsame.eq_of_pairwise (fun a b _ _ hab hba => absurd hba (Nat.lt_asymm hab))
      (hsorted axis) (sorted_numbered _)

theorem choicesOn_append (axis : Axis) (a b : List (Axis × Nat × Text)) :
    choicesOn axis (a ++ b) = choicesOn axis a ++ choicesOn axis b := by
  rw [choicesOn, List.filter_append, List.map_append]
  rfl

/-- The numbered names of an axis, as choices. -/
def choicesOf (axis : Axis) (names : List Text) : List (Axis × Nat × Text) :=
  (names.zipIdx 1).map fun (name, n) => (axis, n, name)

theorem choicesOn_choicesOf (axis other : Axis) (names : List Text) :
    choicesOn axis (choicesOf other names) =
      if other = axis then numbered (names.map Text.trim) else [] := by
  have haxis : ∀ c ∈ choicesOf other names, c.1 = other := by
    intro c hc
    obtain ⟨_, -, rfl⟩ := List.mem_map.mp hc
    rfl
  split
  · rename_i hsame
    have hall : (choicesOf other names).filter (·.1 = axis) = choicesOf other names :=
      List.filter_eq_self.mpr fun c hc => decide_eq_true ((haxis c hc).trans hsame)
    rw [choicesOn, hall, choicesOf, List.map_map, numbered, List.zipIdx_map, List.map_map]
    rfl
  · rename_i hother
    have hnone : (choicesOf other names).filter (·.1 = axis) = [] :=
      List.filter_eq_nil_iff.mpr fun c hc => by rwa [haxis c hc, decide_eq_true_iff]
    rw [choicesOn, hnone, List.map_nil]

theorem choicesOn_both (axis : Axis) (scenarios events : List Text) :
    choicesOn axis (choicesOf .scenario scenarios ++ choicesOf .event events) =
      numbered ((Chosen.mk (scenarios.map Text.trim) (events.map Text.trim)).names axis) := by
  rw [choicesOn_append, choicesOn_choicesOf, choicesOn_choicesOf]
  cases axis with
  | scenario => exact List.append_nil _
  | event => rfl

/-- The numbered names of both axes, in any order, choose them as a run has them. Positions that are
not those from 1 on, each once, choose no run. -/
theorem ofArguments_placed (ps : List Placed) :
    (∀ scenarios events : List Text,
      scenarios.length < Text.numberLimit → events.length < Text.numberLimit →
      (ps.map Placed.choice).Perm (choicesOf .scenario scenarios ++ choicesOf .event events) →
      Context.ofArguments (ps.flatMap Placed.texts) =
        .ok (.ofChosen ⟨scenarios.map Text.trim, events.map Text.trim⟩)) ∧
    ∀ axis, (¬ (positionsOn axis (ps.map Placed.choice)).Nodup ∨
        ∀ n, ¬ (positionsOn axis (ps.map Placed.choice)).Perm (List.range' 1 n)) →
      ∃ flaw, Context.ofArguments (ps.flatMap Placed.texts) = .error flaw := by
  rw [Context.ofArguments]
  constructor
  · intro scenarios events hscenarios hevents hperm
    refine Except.map_eq_ok.mpr ⟨_, chosen_eq_ok_iff.mpr fun axis => ⟨?_, ?_⟩, rfl⟩
    · cases axis with
      | scenario => exact (List.length_map _).trans_lt hscenarios
      | event => exact (List.length_map _).trans_lt hevents
    · rw [← choicesOn_both]
      exact (hperm.filter _).map _
  · intro axis hpositions
    cases hchosen : chosen (ps.flatMap Placed.texts) with
    | error flaw => exact ⟨flaw, rfl⟩
    | ok c =>
      have hperm := (chosen_eq_ok_iff.mp hchosen axis).2.map Prod.fst
      rw [map_fst_choicesOn, map_fst_numbered] at hperm
      obtain hrepeated | hgap := hpositions
      · exact absurd (hperm.nodup_iff.mpr List.nodup_range') hrepeated
      · exact absurd hperm (hgap _)

/-- Two scenarios and an event in another order, one of them behind a flag of another form. Without
the first scenario, or with two first ones, they choose no run. -/
theorem ofArguments_placed_mixed :
    let second := Placed.ofPosition .scenario 2 " 5m"
    let event : Placed :=
      ⟨.event, 1, "Q100", "-E+01", 'E', by decide, "01", by decide, .inr rfl⟩
    let first := Placed.ofPosition .scenario 1 "D01"
    Context.ofArguments ["-s2", " 5m", "-E+01", "Q100", "-s1", "D01"] =
        .ok (.ofChosen ⟨["D01", "5m"], ["Q100"]⟩) ∧
      (∃ flaw, Context.ofArguments (([second, event]).flatMap Placed.texts) = .error flaw) ∧
      ∃ flaw, Context.ofArguments (([first, event, first]).flatMap Placed.texts) = .error flaw := by
  intro second event first
  refine ⟨(ofArguments_placed [second, event, first]).1 ["D01", " 5m"] ["Q100"] (by decide)
      (by decide) (by decide), (ofArguments_placed [second, event]).2 .scenario (.inr ?_),
    (ofArguments_placed [first, event, first]).2 .scenario (.inl (by decide))⟩
  intro n hperm
  have hlength : n = 1 := List.length_range'.symm.trans hperm.length_eq.symm
  subst hlength
  exact absurd hperm (by decide)

end Arguments

end ControlFiles
