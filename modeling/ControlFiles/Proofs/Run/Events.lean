import ControlFiles.Proofs.Text.Alike
import ControlFiles.Run.Context
import Mathlib.Data.List.Induction

/-!
# What events substitute

The table of events and the values of a run are both built by setting one value after the other, so
a lookup answers the last value that was set. `IsLast` says of a list what that is. A statement of a
tree gives a token a value for an event in one of two ways (`EventTable.Gives`); the table has
exactly the events that some statement gives a value for, each token with the last value that it is
given, and a run has the values of the last chosen event that has one (`ControlFile.events_spec`).
-/

namespace ControlFiles

/-! ## The last that is given -/

section
variable {α β : Type} {l : List α} {a : α} {b : β} {i : Nat} {gives : List α → α → β → Prop}

/-- The element at a place of the list gives `b` after those before it. -/
def GivenAt (gives : List α → α → β → Prop) (l : List α) (i : Nat) (b : β) : Prop :=
  ∃ h : i < l.length, gives (l.take i) l[i] b

/-- The last element of the list that gives anything gives `b`. -/
def IsLast (gives : List α → α → β → Prop) (l : List α) (b : β) : Prop :=
  ∃ i, GivenAt gives l i b ∧ ∀ j > i, ∀ b', ¬ GivenAt gives l j b'

theorem givenAt_append_singleton : GivenAt gives (l ++ [a]) i b ↔
    GivenAt gives l i b ∨ i = l.length ∧ gives l a b := by
  have hlength : (l ++ [a]).length = l.length + 1 := by simp
  constructor
  · rintro ⟨hi, h⟩
    obtain hi | rfl := Nat.lt_succ_iff_lt_or_eq.mp (hlength ▸ hi)
    · rw [List.take_append_of_le_length hi.le, List.getElem_append_left hi] at h
      exact .inl ⟨hi, h⟩
    · rw [List.take_left, List.getElem_concat_length rfl] at h
      exact .inr ⟨rfl, h⟩
  · rintro (⟨hi, h⟩ | ⟨rfl, h⟩)
    · refine ⟨hlength ▸ Nat.lt_succ_of_lt hi, ?_⟩
      rwa [List.take_append_of_le_length hi.le, List.getElem_append_left hi]
    · refine ⟨hlength ▸ Nat.lt_succ_self _, ?_⟩
      rwa [List.take_left, List.getElem_concat_length rfl]

theorem not_isLast_nil : ¬ IsLast gives [] b := fun ⟨_, ⟨h, _⟩, _⟩ => absurd h (Nat.not_lt_zero _)

theorem isLast_append_singleton : IsLast gives (l ++ [a]) b ↔
    gives l a b ∨ (∀ b', ¬ gives l a b') ∧ IsLast gives l b := by
  constructor
  · rintro ⟨i, hi, hlater⟩
    obtain hi | ⟨-, h⟩ := givenAt_append_singleton.mp hi
    · refine .inr ⟨fun b' h => ?_, i, hi, fun j hj b' h => ?_⟩
      · exact hlater _ hi.1 b' (givenAt_append_singleton.mpr (.inr ⟨rfl, h⟩))
      · exact hlater j hj b' (givenAt_append_singleton.mpr (.inl h))
    · exact .inl h
  · rintro (h | ⟨hnone, i, hi, hlater⟩)
    · refine ⟨l.length, givenAt_append_singleton.mpr (.inr ⟨rfl, h⟩), fun j hj b' h' => ?_⟩
      obtain h' | h' := givenAt_append_singleton.mp h'
      · exact absurd h'.1 (Nat.not_lt.mpr (Nat.le_of_lt hj))
      · exact absurd h'.1 (Nat.ne_of_gt hj)
    · refine ⟨i, givenAt_append_singleton.mpr (.inl hi), fun j hj b' h' => ?_⟩
      obtain h' | h' := givenAt_append_singleton.mp h'
      · exact hlater j hj b' h'
      · exact hnone b' h'.2

/-- Where anything is given, something is given last. -/
theorem exists_isLast_iff : (∃ b, IsLast gives l b) ↔ ∃ b i, GivenAt gives l i b := by
  constructor
  · rintro ⟨b, i, hi, -⟩
    exact ⟨b, i, hi⟩
  · induction l using List.reverseRecOn with
    | nil =>
      rintro ⟨b, i, hi, -⟩
      exact absurd hi (Nat.not_lt_zero i)
    | append_singleton l a ih =>
      rintro ⟨b, i, hi⟩
      by_cases hlast : ∃ b', gives l a b'
      · obtain ⟨b', h⟩ := hlast
        exact ⟨b', isLast_append_singleton.mpr (.inl h)⟩
      · obtain hi | ⟨-, h⟩ := givenAt_append_singleton.mp hi
        · obtain ⟨b', h⟩ := ih ⟨b, i, hi⟩
          exact ⟨b', isLast_append_singleton.mpr (.inr ⟨not_exists.mp hlast, h⟩)⟩
        · exact absurd ⟨b, h⟩ hlast

/-- A value that each element replaces, if it gives one, is in the end the last that is given. -/
theorem eq_some_iff_isLast (last : List α → Option β) (hnil : last [] = none)
    (hstep : ∀ l a b, last (l ++ [a]) = some b ↔
      gives l a b ∨ (∀ b', ¬ gives l a b') ∧ last l = some b) (l : List α) (b : β) :
    last l = some b ↔ IsLast gives l b := by
  induction l using List.reverseRecOn generalizing b with
  | nil => simp [hnil, not_isLast_nil]
  | append_singleton l a ih => rw [hstep, isLast_append_singleton, ih]

end

/-! ## Lists with a name for each element -/

section
variable {γ : Type} {key : γ → Text} {name : Text} {f : γ → γ} {new : γ} {l : List γ}

/-- The element under a name, in whatever case. -/
def named? (key : γ → Text) (l : List γ) (name : Text) : Option γ :=
  l.find? fun x => Text.alike (key x) name

/-- The list with the element under a name changed, or with a new one at the end. -/
def upsert (key : γ → Text) (name : Text) (f : γ → γ) (new : γ) : List γ → List γ
  | [] => [new]
  | x :: rest => if Text.alike (key x) name then f x :: rest else x :: upsert key name f new rest

theorem named?_congr {name' : Text} (h : Text.alike name name' = true) (l : List γ) :
    named? key l name = named? key l name' := by
  simp only [named?, Text.alike_congr_right h]

theorem mem_upsert {x : γ} (h : x ∈ upsert key name f new l) :
    x = new ∨ (∃ y ∈ l, x = f y) ∨ x ∈ l := by
  induction l with
  | nil => exact .inl (List.mem_singleton.mp h)
  | cons first l ih =>
    rw [upsert] at h
    split at h
    · obtain rfl | h := List.mem_cons.mp h
      · exact .inr (.inl ⟨first, List.mem_cons_self, rfl⟩)
      · exact .inr (.inr (List.mem_cons_of_mem first h))
    · obtain rfl | h := List.mem_cons.mp h
      · exact .inr (.inr List.mem_cons_self)
      · obtain h | ⟨y, hy, h⟩ | h := ih h
        · exact .inl h
        · exact .inr (.inl ⟨y, List.mem_cons_of_mem first hy, h⟩)
        · exact .inr (.inr (List.mem_cons_of_mem first h))

section
variable (hf : ∀ x, key (f x) = key x) (hnew : key new = name)
include hf hnew

theorem map_upsert (l : List γ) :
    (upsert key name f new l).map key = Text.addNew (l.map key) [name] := by
  induction l with
  | nil => exact congrArg ([·]) hnew
  | cons first l ih =>
    rw [upsert]
    cases halike : Text.alike (key first) name with
    | true => simp [Text.addNew, Text.listed, halike, hf]
    | false =>
      rw [if_neg Bool.false_ne_true, List.map_cons, ih, List.map_cons]
      exact (Text.addNew_append_left [key first] _ (by simp [Text.listed, halike])).symm

theorem named?_upsert (l : List γ) (name' : Text) :
    named? key (upsert key name f new l) name' =
      if Text.alike name name' then some ((named? key l name).elim new f)
      else named? key l name' := by
  induction l with
  | nil => cases h : Text.alike name name' <;> simp [upsert, named?, hnew, h]
  | cons first l ih =>
    rw [upsert]
    cases halike : Text.alike (key first) name with
    | true =>
      have hsame : Text.alike (key first) name' = Text.alike name name' := by
        rw [Text.alike, Text.alike, Text.alike_iff.mp halike]
      cases h : Text.alike name name' <;> simp [named?, hf, halike, hsame, h]
    | false =>
      cases hfirst : Text.alike (key first) name' with
      | true =>
        have hother : Text.alike name name' = false := by
          rw [Bool.eq_false_iff, ne_eq, Text.alike_iff] at halike ⊢
          exact fun h => halike ((Text.alike_iff.mp hfirst).trans h.symm)
        simp [named?, hfirst, hother]
      | false => simpa [named?, halike, hfirst] using ih

end

end

/-! ## Tokens and their values -/

namespace Substitutions

variable {l : Substitutions} {token value : Text}

/-- The value of a token. -/
def value? (l : Substitutions) (token : Text) : Option Text := (named? (·.1) l token).map (·.2)

/-- No two tokens are alike. -/
def Distinct (l : Substitutions) : Prop := ((l.map (·.1)).map Text.lower).Nodup

theorem set_eq_upsert (token value : Text) (l : Substitutions) :
    set token value l = upsert (·.1) token (fun p => (p.1, value)) (token, value) l := by
  induction l with
  | nil => rfl
  | cons first l ih => rw [set, upsert, ih]

theorem Distinct.set (h : Distinct l) (token value : Text) :
    Distinct (Substitutions.set token value l) := by
  rw [Distinct, set_eq_upsert, map_upsert (by exact fun _ => rfl) (by rfl)]
  exact Text.nodup_addNew h [token]

theorem value?_set (token value : Text) (l : Substitutions) (token' : Text) :
    value? (set token value l) token' =
      if Text.alike token token' then some value else value? l token' := by
  rw [value?, set_eq_upsert, named?_upsert (by exact fun _ => rfl) (by rfl), value?]
  split
  · cases named? (·.1) l token <;> rfl
  · rfl

/-- Values that are set one after the other, for tokens of which no two are alike, come before those
that were there. -/
theorem value?_foldl_set (h : Distinct l) (acc : Substitutions) (token : Text) :
    value? (l.foldl (fun acc (t, value) => set t value acc) acc) token =
      (value? l token).or (value? acc token) := by
  induction l generalizing acc with
  | nil => rfl
  | cons first l ih =>
    obtain ⟨hfirst, hrest⟩ := List.nodup_cons.mp h
    rw [List.foldl_cons, ih hrest, value?_set]
    cases halike : Text.alike first.1 token with
    | true =>
      have hnone : value? l token = none := by
        rw [value?, named?, Option.map_eq_none_iff, List.find?_eq_none]
        intro p hp hsame
        rw [Text.alike_iff.mp halike, ← Text.alike_iff.mp hsame] at hfirst
        exact hfirst (List.mem_map_of_mem (List.mem_map_of_mem hp))
      rw [hnone]
      simp [value?, named?, halike]
    | false => simp [value?, named?, halike]

theorem Distinct.foldl_set {acc : Substitutions} (h : Distinct acc) (l : Substitutions) :
    Distinct (l.foldl (fun acc (t, value) => Substitutions.set t value acc) acc) := by
  induction l generalizing acc with
  | nil => exact h
  | cons first l ih => exact ih (h.set first.1 first.2)

theorem exists_value? (h : l ≠ []) : ∃ token value, value? l token = some value := by
  obtain ⟨first, l, rfl⟩ := List.exists_cons_of_ne_nil h
  exact ⟨first.1, first.2, by simp [value?, named?, Text.alike]⟩

end Substitutions

/-! ## The table -/

namespace EventTable

variable {t : EventTable} {event event' token token' value value' : Text} {events : List Text}

/-- The value of a token for an event. -/
def value? (t : EventTable) (event token : Text) : Option Text :=
  (t.find? event).bind fun e => e.substitutions.value? token

/-- No two events are alike, and each has values for tokens of which no two are alike. -/
structure Distinct (t : EventTable) : Prop where
  names : ((t.map (·.name)).map Text.lower).Nodup
  tokens : ∀ e ∈ t, e.substitutions.Distinct
  ne_nil : ∀ e ∈ t, e.substitutions ≠ []

theorem set_eq_upsert (event token value : Text) (t : EventTable) :
    set event token value t = upsert (·.name) event
      (fun e => { e with substitutions := e.substitutions.set token value })
      ⟨event, [(token, value)]⟩ t := by
  induction t with
  | nil => rfl
  | cons first t ih => rw [set, upsert, ih]

theorem Distinct.set (h : t.Distinct) (event token value : Text) :
    (EventTable.set event token value t).Distinct := by
  rw [set_eq_upsert]
  refine ⟨?_, fun e he => ?_, fun e he => ?_⟩
  · rw [map_upsert (by exact fun _ => rfl) (by rfl)]
    exact Text.nodup_addNew h.names [event]
  · obtain rfl | ⟨e', he', rfl⟩ | he := mem_upsert he
    · exact List.pairwise_singleton _ _
    · exact (h.tokens e' he').set token value
    · exact h.tokens e he
  · obtain rfl | ⟨e', he', rfl⟩ | he := mem_upsert he
    · exact List.cons_ne_nil _ _
    · dsimp only
      cases hl : e'.substitutions with
      | nil => exact absurd hl (h.ne_nil e' he')
      | cons first l =>
        rw [Substitutions.set]
        split <;> exact List.cons_ne_nil _ _
    · exact h.ne_nil e he

theorem value?_set (event token value : Text) (t : EventTable) (event' token' : Text) :
    (set event token value t).value? event' token' =
      if Text.alike event event' && Text.alike token token' then some value
      else t.value? event' token' := by
  have hfind : (set event token value t).find? event' =
      if Text.alike event event' then
        some ((t.find? event).elim ⟨event, [(token, value)]⟩
          fun e => { e with substitutions := e.substitutions.set token value })
      else t.find? event' := by
    rw [set_eq_upsert]
    exact named?_upsert (by exact fun _ => rfl) (by rfl) t event'
  rw [value?, hfind]
  cases halike : Text.alike event event' with
  | false => rfl
  | true =>
    have hsame : t.find? event = t.find? event' := named?_congr halike t
    rw [if_pos rfl, Bool.true_and, Option.bind_some, value?, ← hsame]
    cases t.find? event with
    | none =>
      exact Substitutions.value?_set token value [] token'
    | some e => exact Substitutions.value?_set token value e.substitutions token'

theorem value?_setAll (events : List Text) (token value : Text) (t : EventTable)
    (event' token' : Text) :
    (setAll events token value t).value? event' token' =
      if !token.isEmpty && Text.listed events event' && Text.alike token token' then some value
      else t.value? event' token' := by
  rw [setAll]
  cases token.isEmpty with
  | true => rfl
  | false =>
    rw [if_neg Bool.false_ne_true, Bool.not_false, Bool.true_and]
    induction events generalizing t with
    | nil => rfl
    | cons event events ih =>
      have hlisted : Text.listed (event :: events) event' =
          (Text.alike event event' || Text.listed events event') := rfl
      rw [List.foldl_cons, ih, value?_set, hlisted]
      cases Text.alike event event' <;> cases Text.listed events event' <;>
        cases Text.alike token token' <;> rfl

theorem Distinct.setAll (h : t.Distinct) (events : List Text) (token value : Text) :
    (EventTable.setAll events token value t).Distinct := by
  rw [EventTable.setAll]
  split
  · exact h
  · induction events generalizing t with
    | nil => exact h
    | cons event events ih => exact ih (h.set event token value)

/-! ## What the statements of a tree give -/

variable {before : List Statement} {s : Statement} {c : Collecting}

/-- The token that the last `BC Event Text` names. -/
def textToken? (before : List Statement) : Option Text :=
  (before.filter fun (s : Statement) => s.key = "bc event text").getLast?.map fun s =>
    Text.trim (s.value.getD [])

/-- The statement stands in a `Define Event` block that names the event. -/
def DefinedFor (s : Statement) (event : Text) : Prop :=
  ∃ c ∈ s.scope, c.kind = .eventVariable ∧ c.negated = false ∧ Text.listed c.names event = true

/-- The token that a statement gives a value, after the statements before it, and the value. -/
inductive Enters (before : List Statement) (s : Statement) : Text → Text → Prop
  | source {token value : Text} (hkey : s.key = "bc event source")
      (hcut : Text.cut? "|" (Text.trim (s.value.getD [])) = some (token, value)) :
      Enters before s (Text.trim token) (Text.trim value)
  | name {token : Text} (hkey : s.key = "bc event name") (htext : textToken? before = some token) :
      Enters before s token (Text.trim (s.value.getD []))

/-- A statement gives a token a value for an event, after the statements before it. -/
def Gives (event token : Text) (before : List Statement) (s : Statement) (value : Text) : Prop :=
  DefinedFor s event ∧ ∃ t, t ≠ [] ∧ Text.alike t token = true ∧ Enters before s t value

theorem listed_definedFor : Text.listed (definedFor s) event = true ↔ DefinedFor s event := by
  simp [definedFor, DefinedFor, Text.listed, and_assoc]

theorem enters_of_source (hkey : s.key = "bc event source") {token value : Text} :
    Enters before s token value ↔ ∃ parts,
      Text.cut? "|" (Text.trim (s.value.getD [])) = some parts ∧
        token = Text.trim parts.1 ∧ value = Text.trim parts.2 := by
  constructor
  · rintro (⟨-, hcut⟩ | ⟨hname, -⟩)
    · exact ⟨_, hcut, rfl, rfl⟩
    · exact absurd (hkey.symm.trans hname) (by decide)
  · rintro ⟨parts, hcut, rfl, rfl⟩
    exact .source hkey hcut

theorem enters_of_name (hkey : s.key = "bc event name") {token value : Text} :
    Enters before s token value ↔
      textToken? before = some token ∧ value = Text.trim (s.value.getD []) := by
  constructor
  · rintro (⟨hsource, -⟩ | ⟨-, htext⟩)
    · exact absurd (hkey.symm.trans hsource) (by decide)
    · exact ⟨htext, rfl⟩
  · rintro ⟨htext, rfl⟩
    exact .name hkey htext

theorem not_enters (hsource : s.key ≠ "bc event source") (hname : s.key ≠ "bc event name")
    (token value : Text) : ¬ Enters before s token value := by
  rintro (⟨hkey, -⟩ | ⟨hkey, -⟩)
  · exact hsource hkey
  · exact hname hkey

/-- A statement enters a token and its value for the events that it is defined for, or leaves the
table. -/
theorem step_cases (hc : c.token = textToken? before) :
    (∃ t v, (∀ t' v', Enters before s t' v' ↔ t' = t ∧ v' = v) ∧
      (c.step s).table = setAll (definedFor s) t v c.table) ∨
    (∀ t v, ¬ Enters before s t v) ∧ (c.step s).table = c.table := by
  by_cases hsource : s.key = "bc event source"
  · simp only [enters_of_source hsource]
    cases hcut : Text.cut? "|" (Text.trim (s.value.getD [])) with
    | some parts =>
      refine .inl ⟨Text.trim parts.1, Text.trim parts.2, by simp, ?_⟩
      rw [Collecting.step, if_neg (by rw [hsource]; decide), if_pos hsource, hcut]
    | none =>
      refine .inr ⟨by simp, ?_⟩
      rw [Collecting.step, if_neg (by rw [hsource]; decide), if_pos hsource, hcut]
  by_cases hname : s.key = "bc event name"
  · simp only [enters_of_name hname]
    cases htext : textToken? before with
    | some token =>
      refine .inl ⟨token, Text.trim (s.value.getD []), by simp [eq_comm], ?_⟩
      simp [Collecting.step, hname, hc, htext]
    | none => exact .inr ⟨by simp, by simp [Collecting.step, hname, hc, htext]⟩
  · refine .inr ⟨not_enters hsource hname, ?_⟩
    rw [Collecting.step]
    split_ifs <;> rfl

theorem token_step (hc : c.token = textToken? before) (s : Statement) :
    (c.step s).token = textToken? (before ++ [s]) := by
  rw [textToken?, List.filter_append, Collecting.step]
  by_cases htext : s.key = "bc event text"
  · rw [if_pos htext, List.filter_cons_of_pos (by exact decide_eq_true htext), List.filter_nil,
      List.getLast?_concat]
    rfl
  · rw [if_neg htext, List.filter_cons_of_neg (by exact fun h => htext (of_decide_eq_true h)),
      List.filter_nil, List.append_nil]
    refine Eq.trans ?_ hc
    split_ifs
    · split <;> rfl
    · split <;> rfl
    · rfl

theorem Distinct.step (h : c.table.Distinct) (hc : c.token = textToken? before) (s : Statement) :
    (c.step s).table.Distinct := by
  obtain ⟨t, v, -, heq⟩ | ⟨-, heq⟩ := step_cases (s := s) hc
  · rw [heq]
    exact h.setAll _ t v
  · rw [heq]
    exact h

theorem value?_step (hc : c.token = textToken? before) :
    (c.step s).table.value? event token = some value ↔ Gives event token before s value ∨
      (∀ value', ¬ Gives event token before s value') ∧
        c.table.value? event token = some value := by
  obtain ⟨t, v, henters, heq⟩ | ⟨hnone, heq⟩ := step_cases (s := s) hc
  · have hgives (value' : Text) : Gives event token before s value' ↔
        (!t.isEmpty && Text.listed (definedFor s) event && Text.alike t token) = true ∧
          value' = v := by
      simp only [Gives, henters, Bool.and_eq_true, listed_definedFor, Bool.not_eq_true',
        List.isEmpty_eq_false_iff]
      constructor
      · rintro ⟨hfor, t', hne, halike, rfl, rfl⟩
        exact ⟨⟨⟨hne, hfor⟩, halike⟩, rfl⟩
      · rintro ⟨⟨⟨hne, hfor⟩, halike⟩, rfl⟩
        exact ⟨hfor, t, hne, halike, rfl, rfl⟩
    rw [heq, value?_setAll]
    simp only [hgives]
    split
    · rename_i hgiven
      refine ⟨fun h => .inl ⟨hgiven, (Option.some.inj h).symm⟩, ?_⟩
      rintro (⟨-, rfl⟩ | ⟨hnone, -⟩)
      · rfl
      · exact absurd ⟨hgiven, rfl⟩ (hnone v)
    · rename_i hgiven
      simp [hgiven]
  · have hgives : ∀ value', ¬ Gives event token before s value' := by
      rintro value' ⟨-, t, -, -, henters⟩
      exact hnone t value' henters
    simp [heq, hgives]

/-- The collection after the statements of a list. -/
theorem collected (ss : List Statement) :
    (ss.foldl Collecting.step ⟨[], none⟩).token = textToken? ss ∧
      (ss.foldl Collecting.step ⟨[], none⟩).table.Distinct := by
  induction ss using List.reverseRecOn with
  | nil => exact ⟨rfl, List.nodup_nil, nofun, nofun⟩
  | append_singleton ss s ih =>
    rw [List.foldl_append, List.foldl_cons, List.foldl_nil]
    exact ⟨token_step ih.1 s, ih.2.step ih.1 s⟩

theorem value?_collected (ss : List Statement) (event token value : Text) :
    (ss.foldl Collecting.step ⟨[], none⟩).table.value? event token = some value ↔
      IsLast (Gives event token) ss value := by
  refine eq_some_iff_isLast
    (fun ss => (ss.foldl Collecting.step ⟨[], none⟩).table.value? event token) rfl
    (fun ss s value => ?_) ss value
  rw [List.foldl_append, List.foldl_cons, List.foldl_nil]
  exact value?_step (collected ss).1

/-- The table has the events that have a value for some token. -/
theorem Distinct.isSome_find? (h : t.Distinct) (event : Text) :
    (t.find? event).isSome = true ↔ ∃ token value, t.value? event token = some value := by
  rw [Option.isSome_iff_exists]
  constructor
  · rintro ⟨e, he⟩
    obtain ⟨token, value, hvalue⟩ :=
      Substitutions.exists_value? (h.ne_nil e (List.mem_of_find?_eq_some he))
    exact ⟨token, value, by rw [value?, he, Option.bind_some, hvalue]⟩
  · rintro ⟨token, value, hvalue⟩
    obtain ⟨e, he, -⟩ := Option.bind_eq_some_iff.mp hvalue
    exact ⟨e, he⟩

end EventTable

/-! ## The values of a run -/

namespace Context

variable {t : EventTable}

theorem eventValuesOf_append_singleton (t : EventTable) (events : List Text) (event : Text) :
    eventValuesOf t (events ++ [event]) =
      ((t.find? event).elim [] Event.substitutions).foldl
        (fun acc (token, value) => Substitutions.set token value acc) (eventValuesOf t events) := by
  rw [eventValuesOf, eventValuesOf, List.filterMap_append, List.foldl_append]
  cases h : t.find? event <;> simp [h]

theorem distinct_eventValuesOf (t : EventTable) (events : List Text) :
    (eventValuesOf t events).Distinct := by
  induction events using List.reverseRecOn with
  | nil => exact List.nodup_nil
  | append_singleton events event ih =>
    rw [eventValuesOf_append_singleton]
    exact ih.foldl_set _

theorem value?_eventValuesOf (h : t.Distinct) (events : List Text) (token value : Text) :
    (eventValuesOf t events).value? token = some value ↔
      IsLast (fun _ event value => t.value? event token = some value) events value := by
  refine eq_some_iff_isLast (fun events => (eventValuesOf t events).value? token) rfl
    (fun events event value => ?_) events value
  have hstep : (eventValuesOf t (events ++ [event])).value? token =
      (t.value? event token).or ((eventValuesOf t events).value? token) := by
    rw [eventValuesOf_append_singleton, EventTable.value?]
    cases he : t.find? event with
    | none => rfl
    | some e =>
      have hdistinct := h.tokens e (List.mem_of_find?_eq_some he)
      exact Substitutions.value?_foldl_set hdistinct _ token
  rw [hstep]
  cases t.value? event token <;> simp

end Context

/-- The table of a tree has the events that a statement gives a value for, each once, and each token
of an event once, with the last value that it is given. The values of a run are, each once, those of
the last chosen event that has one. -/
theorem ControlFile.events_spec (f : ControlFile) :
    f.events.Distinct ∧
    (∀ event, (f.events.find? event).isSome = true ↔
      ∃ token value i, GivenAt (EventTable.Gives event token) f.walk i value) ∧
    (∀ event token value, f.events.value? event token = some value ↔
      IsLast (EventTable.Gives event token) f.walk value) ∧
    ∀ c : Context, (c.withEvents f.events).eventValues.Distinct ∧
      ∀ token value, (c.withEvents f.events).eventValues.value? token = some value ↔
        IsLast (fun _ event value => f.events.value? event token = some value) c.chosen.events
          value := by
  have hdistinct : f.events.Distinct := (EventTable.collected f.walk).2
  have hvalue : ∀ event token value, f.events.value? event token = some value ↔
      IsLast (EventTable.Gives event token) f.walk value := EventTable.value?_collected f.walk
  refine ⟨hdistinct, fun event => ?_, hvalue, fun c => ⟨Context.distinct_eventValuesOf _ _,
    Context.value?_eventValuesOf hdistinct c.chosen.events⟩⟩
  rw [hdistinct.isSome_find?]
  exact exists_congr fun token => by simp only [hvalue, exists_isLast_iff]

-- the value of the later event stands where the token was first
example :
    Context.eventValuesOf [⟨"Q", [("~A~", "1"), ("~B~", "2")]⟩, ⟨"R", [("~a~", "3")]⟩] ["q", "R"] =
      ([("~A~", "3"), ("~B~", "2")] : List (Text × Text)) := by decide

end ControlFiles
