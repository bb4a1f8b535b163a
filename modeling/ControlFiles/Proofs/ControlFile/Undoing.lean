import ControlFiles.ControlFile.Edit
import ControlFiles.ControlFile.Read
import ControlFiles.Proofs.Except
import Mathlib.Data.List.Perm.Subperm
import Mathlib.Data.List.Nodup
import Mathlib.Data.Set.Function
import Mathlib.Order.Interval.Set.Defs

/-!
# Taking edits back

As long as no two statements share an identity, an edit leaves a place in the list of statements
that its record finds again: `Edit.Effect` says what the six edits do to the list and what they
record, `Edit.Effect.nodup` that the identities stay distinct, and `Edit.Effect.undo` that the
record gives back the list before the edit. A run of edits is then taken back one at a time, the
latest first (`Session.undoTimes_applyAll`).

An insertion needs an identity that is free. The search for it gives up after some ordinals, so the
identities of that many ordinals of the inserted text must be distinct
(`Edit.freshId_not_mem`).
-/

namespace ControlFiles

namespace Edit

variable {statements : List Statement}

/-! ## The statement with an identity -/

theorem position_append {before after : List Statement} {s : Statement}
    (h : ∀ t ∈ before, t.id ≠ s.id) :
    position (before ++ s :: after) s.id = .ok before.length := by
  have hfind : (before ++ s :: after).findIdx? (·.id = s.id) = some before.length := by
    rw [List.findIdx?_append, List.findIdx?_eq_none_iff.mpr fun t ht => decide_eq_false (h t ht),
      List.findIdx?_cons]
    simp
  rw [position, hfind]

theorem exists_append_of_position {id : StatementId} {i : Nat}
    (h : position statements id = .ok i) : ∃ before s after,
      statements = before ++ s :: after ∧ before.length = i ∧ s.id = id ∧
        ∀ t ∈ before, t.id ≠ id := by
  rw [position] at h
  split at h
  · rename_i j hfind
    obtain rfl := Except.ok.inj h
    obtain ⟨hlt, hid, hbefore⟩ := List.findIdx?_eq_some_iff_getElem.mp hfind
    refine ⟨statements.take j, statements[j], statements.drop (j + 1), ?_, ?_, by simpa using hid,
      fun t ht => ?_⟩
    · rw [← List.drop_eq_getElem_cons, List.take_append_drop]
    · rw [List.length_take, Nat.min_eq_left hlt.le]
    · obtain ⟨k, hk, rfl⟩ := List.mem_take_iff_getElem.mp ht
      simpa using hbefore k (by omega)
  · cases h

theorem lookup_append {before after : List Statement} {s : Statement}
    (h : ∀ t ∈ before, t.id ≠ s.id) : lookup (before ++ s :: after) s.id = .ok s := by
  have hfind : (before ++ s :: after).find? (·.id = s.id) = some s :=
    List.find?_eq_some_iff_append.mpr
      ⟨decide_eq_true rfl, before, after, rfl, fun t ht => by simpa using h t ht⟩
  rw [lookup, hfind]

theorem exists_append_of_lookup {id : StatementId} {s : Statement}
    (h : lookup statements id = .ok s) : ∃ before after,
      statements = before ++ s :: after ∧ s.id = id ∧ ∀ t ∈ before, t.id ≠ id := by
  rw [lookup] at h
  split at h
  · rename_i t hfind
    obtain rfl := Except.ok.inj h
    obtain ⟨hid, before, after, heq, hbefore⟩ := List.find?_eq_some_iff_append.mp hfind
    exact ⟨before, after, heq, of_decide_eq_true hid, fun t ht => by simpa using hbefore t ht⟩
  · cases h

theorem insertIdx_append (before after : List Statement) (s : Statement) :
    (before ++ after).insertIdx before.length s = before ++ s :: after := by
  induction before with
  | nil => rfl
  | cons t before ih =>
    rw [List.cons_append, List.length_cons, List.insertIdx_succ_cons, ih, List.cons_append]

theorem eraseIdx_append (before after : List Statement) (s : Statement) :
    (before ++ s :: after).eraseIdx before.length = before ++ after := by
  rw [List.eraseIdx_append_of_length_le le_rfl, Nat.sub_self, List.eraseIdx_cons_zero]

theorem replace_append {before after : List Statement} {s s' : Statement}
    (h : ∀ t ∈ before, t.id ≠ s.id) :
    replace (before ++ s :: after) s.id s' = before ++ s' :: after := by
  induction before with
  | nil => rw [List.nil_append, List.nil_append, replace, if_pos rfl]
  | cons t before ih =>
    rw [List.cons_append, replace, if_neg (h t List.mem_cons_self),
      ih fun u hu => h u (List.mem_cons_of_mem _ hu), List.cons_append]

/-! ## Free identities -/

/-- If the search ends with an identity that is in use, then so are all that it has tried. -/
theorem mem_of_freeId_mem {file text : Text} {tries ordinal : Nat}
    (h : freeId statements file text tries ordinal ∈ statements.map (·.id)) {k : Nat}
    (hk : k < tries) : StatementId.compute file text (ordinal + k) ∈ statements.map (·.id) := by
  induction tries generalizing ordinal k with
  | zero => omega
  | succ tries ih =>
    rw [freeId] at h
    have hused : ¬ statements.all (·.id ≠ StatementId.compute file text ordinal) = true := by
      intro hfree
      rw [if_pos hfree] at h
      obtain ⟨s, hs, hid⟩ := List.mem_map.mp h
      exact of_decide_eq_true (List.all_eq_true.mp hfree s hs) hid
    cases k with
    | zero =>
      rw [List.all_eq_true] at hused
      push Not at hused
      obtain ⟨s, hs, hid⟩ := hused
      exact List.mem_map.mpr ⟨s, hs, by simpa using hid⟩
    | succ k =>
      rw [if_neg hused] at h
      rw [show ordinal + (k + 1) = ordinal + 1 + k by omega]
      exact ih h (by omega)

/-- There are more ordinals to try than statements, so a new line gets an identity that no
statement has. -/
theorem freshId_not_mem {file text : Text} {bound : Nat} (hbound : 2 * statements.length < bound)
    (hids : Set.InjOn (StatementId.compute file text) (Set.Iio bound)) :
    freshId statements file text ∉ statements.map (·.id) := by
  intro h
  have hcount := List.countP_le_length (l := statements) (p := fun s => s.raw = Text.trim text)
  generalize hfirst : statements.countP (fun s => s.raw = Text.trim text) = first at hcount
  rw [freshId, hfirst] at h
  have hnodup : ((List.range (statements.length + 1)).map fun k =>
      StatementId.compute file text (first + k)).Nodup := by
    refine List.Nodup.map_on (fun i hi j hj hij => ?_) List.nodup_range
    rw [List.mem_range] at hi hj
    exact Nat.add_left_cancel (hids (show _ < bound by omega) (show _ < bound by omega) hij)
  have hsub : (List.range (statements.length + 1)).map (fun k =>
      StatementId.compute file text (first + k)) ⊆ statements.map (·.id) := by
    intro id hid
    obtain ⟨k, hk, rfl⟩ := List.mem_map.mp hid
    exact mem_of_freeId_mem h (List.mem_range.mp hk)
  have hlength := (List.subperm_of_subset hnodup hsub).length_le
  rw [List.length_map, List.length_map, List.length_range] at hlength
  omega

/-! ## What an edit does -/

/-- What an edit does to the statements, and what it records: a statement is changed in its place, a
new one is put in, or one is taken out. -/
inductive Effect : List Statement → List Statement → Undo → Prop
  | changed {before after : List Statement} {s s' : Statement} (same : s'.id = s.id) :
    Effect (before ++ s :: after) (before ++ s' :: after) (.restore s)
  | inserted {before after : List Statement} {s : Statement}
    (free : s.id ∉ (before ++ after).map (·.id)) :
    Effect (before ++ after) (before ++ s :: after) (.delete s.id)
  | removed {before after : List Statement} {s : Statement} :
    Effect (before ++ s :: after) (before ++ after) (.reinsert (before.getLast?.map (·.id)) s)

theorem commented_id {s s' : Statement} (h : commented s = .ok s') : s'.id = s.id := by
  rw [commented] at h
  split at h
  · cases h
  · split at h
    · cases h
    · obtain rfl := Except.ok.inj h
      rfl

theorem uncommented_id {s s' : Statement} (h : uncommented s = .ok s') : s'.id = s.id := by
  rw [uncommented] at h
  split at h
  · cases h
  · revert h
    dsimp only
    cases rejectHeader (Text.trim (s.raw.dropWhile fun c => c = '!' || c = '#')) with
    | error cause => intro h; cases h
    | ok _ =>
      intro h
      obtain rfl := Except.ok.inj h
      rfl

theorem updated_id {s s' : Statement} {value : Text} (h : updated s value = .ok s') :
    s'.id = s.id := by
  rw [updated] at h
  split at h
  · obtain rfl := Except.ok.inj h
    rfl
  · cases h

theorem change_eq_ok_iff {id : StatementId} {f : Statement → Except Cause Statement}
    {out : List Statement × Undo} :
    change statements id f = .ok out ↔ ∃ s t, lookup statements id = .ok s ∧ f s = .ok t ∧
      (replace statements id t, .restore s) = out := by
  show ((lookup statements id).bind fun s => (f s).bind fun t =>
    .ok (replace statements id t, .restore s)) = .ok out ↔ _
  simp only [Except.bind_eq_ok, Except.ok.injEq]
  exact ⟨fun ⟨s, hs, t, ht, h⟩ => ⟨s, t, hs, ht, h⟩, fun ⟨s, t, hs, ht, h⟩ => ⟨s, hs, t, ht, h⟩⟩

theorem effect_change {id : StatementId} {f : Statement → Except Cause Statement}
    (hf : ∀ s s', f s = .ok s' → s'.id = s.id) {out : List Statement} {undo : Undo}
    (h : change statements id f = .ok (out, undo)) : Effect statements out undo := by
  obtain ⟨s, s', hlookup, hs', heq⟩ := change_eq_ok_iff.mp h
  obtain ⟨rfl, rfl⟩ := Prod.mk.inj heq
  obtain ⟨before, after, rfl, rfl, hbefore⟩ := exists_append_of_lookup hlookup
  rw [replace_append hbefore]
  exact .changed (hf s s' hs')

theorem exists_append_of_placeAfter {after : Option StatementId} {i : Nat}
    (h : placeAfter statements after = .ok i) : ∃ before behind,
      statements = before ++ behind ∧ before.length = i := by
  cases after with
  | none =>
    obtain rfl := Except.ok.inj h
    exact ⟨[], statements, rfl, rfl⟩
  | some id =>
    obtain ⟨j, hposition, rfl⟩ := Except.map_eq_ok.mp h
    obtain ⟨before, s, behind, rfl, rfl, -, -⟩ := exists_append_of_position hposition
    exact ⟨before ++ [s], behind, by simp, by simp⟩

theorem effect_insert {file : Text} {after : Option StatementId} {text : Text}
    {scope : Option ScopeList} (hfree : freshId statements file text ∉ statements.map (·.id))
    {out : List Statement} {undo : Undo}
    (h : apply statements file (.insert after text scope) = .ok (out, undo)) :
    Effect statements out undo := by
  obtain ⟨-, -, h⟩ := Except.bind_eq_ok.mp h
  obtain ⟨i, hplace, h⟩ := Except.bind_eq_ok.mp h
  obtain ⟨rfl, rfl⟩ := Prod.mk.inj (Except.ok.inj h)
  obtain ⟨before, behind, rfl, rfl⟩ := exists_append_of_placeAfter hplace
  rw [insertIdx_append]
  exact .inserted hfree

theorem effect_remove {file : Text} {id : StatementId} {out : List Statement} {undo : Undo}
    (h : apply statements file (.remove id) = .ok (out, undo)) : Effect statements out undo := by
  obtain ⟨i, hposition, h⟩ := Except.bind_eq_ok.mp h
  obtain ⟨previous, hlookup, h⟩ := Except.bind_eq_ok.mp h
  obtain ⟨rfl, rfl⟩ := Prod.mk.inj (Except.ok.inj h)
  obtain ⟨before, s, behind, rfl, rfl, rfl, hbefore⟩ := exists_append_of_position hposition
  rw [lookup_append hbefore] at hlookup
  obtain rfl := Except.ok.inj hlookup
  have hlast : (if before.length = 0 then none
      else (before ++ s :: behind)[before.length - 1]?) = before.getLast? := by
    split
    · rename_i hzero
      rw [List.eq_nil_of_length_eq_zero hzero, List.getLast?_nil]
    · rw [List.getElem?_append_left (by omega), List.getLast?_eq_getElem?]
  rw [hlast, eraseIdx_append]
  exact .removed

/-- What a successful edit does, if the identity of a new line is free. -/
theorem effect_of_apply {file : Text} {edit : Edit}
    (hfree : ∀ after text scope, edit = .insert after text scope →
      freshId statements file text ∉ statements.map (·.id))
    {out : List Statement} {undo : Undo} (h : apply statements file edit = .ok (out, undo)) :
    Effect statements out undo := by
  cases edit with
  | commentOut id => exact effect_change (fun _ _ => commented_id) h
  | uncomment id => exact effect_change (fun _ _ => uncommented_id) h
  | insert after text scope => exact effect_insert (hfree after text scope rfl) h
  | remove id => exact effect_remove h
  | changeScope id scope =>
    refine effect_change (fun s s' hs' => ?_) h
    obtain rfl := Except.ok.inj hs'
    rfl
  | updateValue id value => exact effect_change (fun _ _ => updated_id) h

namespace Effect

variable {out : List Statement} {record : Undo}

theorem length_le (h : Effect statements out record) : out.length ≤ statements.length + 1 := by
  cases h <;> simp only [List.length_append, List.length_cons] <;> omega

/-- No two statements share an identity after an edit, if none did before. -/
theorem nodup (h : Effect statements out record) (hnodup : (statements.map (·.id)).Nodup) :
    (out.map (·.id)).Nodup := by
  cases h with
  | changed same => simpa [same] using hnodup
  | inserted free =>
    rw [List.map_append, List.map_cons]
    rw [List.map_append] at hnodup free
    exact List.nodup_middle.mpr (List.nodup_cons.mpr ⟨free, hnodup⟩)
  | removed =>
    rw [List.map_append, List.map_cons, List.nodup_middle] at hnodup
    rw [List.map_append]
    exact (List.nodup_cons.mp hnodup).2

/-- The statements before one have other identities. -/
theorem ne_of_nodup {before after : List Statement} {s : Statement}
    (h : ((before ++ s :: after).map (·.id)).Nodup) : ∀ t ∈ before, t.id ≠ s.id := by
  intro t ht heq
  rw [List.map_append, List.map_cons, List.nodup_middle, List.nodup_cons, heq.symm] at h
  exact h.1 (List.mem_append_left _ (List.mem_map_of_mem ht))

/-- What an edit records gives back the statements before it. -/
theorem undo (h : Effect statements out record) (hnodup : (statements.map (·.id)).Nodup) :
    record.apply out = .ok statements := by
  have hafter := h.nodup hnodup
  cases h with
  | @changed before after s s' same =>
    have hbefore := ne_of_nodup hafter
    rw [Undo.apply, ← same, lookup_append hbefore]
    exact congrArg Except.ok (replace_append hbefore)
  | @inserted before after s free =>
    rw [Undo.apply, position_append (ne_of_nodup hafter)]
    exact congrArg Except.ok (eraseIdx_append before after s)
  | @removed before after s =>
    have hplace :
        placeAfter (before ++ after) (before.getLast?.map (·.id)) = .ok before.length := by
      rcases List.eq_nil_or_concat' before with rfl | ⟨init, last, rfl⟩
      · rfl
      · rw [List.getLast?_concat, Option.map_some, placeAfter, List.append_assoc]
        rw [List.append_assoc] at hafter
        rw [List.singleton_append] at hafter ⊢
        rw [position_append (ne_of_nodup hafter), List.length_append]
        rfl
    rw [Undo.apply, hplace]
    exact congrArg Except.ok (insertIdx_append before after s)

end Effect

end Edit

/-! ## Sessions -/

/-- No two statements of the file share an identity. -/
def ControlFile.DistinctIds (f : ControlFile) : Prop := (f.statements.map (·.id)).Nodup

/-- There are identities enough for the lines that the edits insert: those of one text differ for as
many ordinals as can be tried, which is twice the number of statements that there can be. -/
def ControlFile.RoomFor (f : ControlFile) (edits : List Edit) : Prop :=
  ∀ after text scope, .insert after text scope ∈ edits →
    Set.InjOn (StatementId.compute f.path.fileName text)
      (Set.Iio (2 * (f.statements.length + edits.length)))

namespace Session

/-- The session after some edits, one after the other. -/
def applyAll (s : Session) : List Edit → Except Fault Session
  | [] => .ok s
  | edit :: edits =>
    match s.apply edit with
    | .ok (s, _) => s.applyAll edits
    | .error fault => .error fault

/-- The session with the latest edits taken back, as many as given. -/
def undoTimes (s : Session) : Nat → Except Fault Session
  | 0 => .ok s
  | n + 1 =>
    match s.undo with
    | .ok s => s.undoTimes n
    | .error fault => .error fault

variable {s s' g : Session}

theorem apply_ok {edit : Edit} {undo : Undo} (h : s.apply edit = .ok (s', undo)) :
    ∃ out, edit.apply s.file.statements s.file.path.fileName = .ok (out, undo) ∧
      s' = ⟨{ s.file with statements := out }, (edit, undo) :: s.history⟩ := by
  rw [apply] at h
  split at h
  · rename_i out undo' hedit
    obtain ⟨rfl, rfl⟩ := Prod.mk.inj (Except.ok.inj h)
    exact ⟨out, hedit, rfl⟩
  · cases h

/-- What a successful edit keeps, and what it allows for: no two statements share an identity after
it, there is room for the edits that follow, it is the last one of the session, and taking it back
gives exactly the session before it. -/
theorem step_of_apply {edit : Edit} {edits : List Edit} {record : Undo}
    (hdistinct : s.file.DistinctIds) (hroom : s.file.RoomFor (edit :: edits))
    (h : s.apply edit = .ok (s', record)) :
    s'.file.DistinctIds ∧ s'.file.RoomFor edits ∧ s'.edits = s.edits ++ [edit] ∧
      s'.undo = .ok s := by
  obtain ⟨out, hedit, rfl⟩ := apply_ok h
  have heffect : Edit.Effect s.file.statements out record := by
    refine Edit.effect_of_apply (fun after text scope he => ?_) hedit
    refine Edit.freshId_not_mem ?_ (hroom after text scope (he ▸ List.mem_cons_self))
    rw [List.length_cons]
    omega
  have hlength := heffect.length_le
  have hundo : record.apply out = .ok s.file.statements := heffect.undo hdistinct
  refine ⟨heffect.nodup hdistinct, fun after text scope hmem => ?_, ?_, ?_⟩
  · refine (hroom after text scope (List.mem_cons_of_mem _ hmem)).mono fun i hi => ?_
    have hi : i < 2 * (out.length + edits.length) := hi
    show i < 2 * (s.file.statements.length + (edit :: edits).length)
    rw [List.length_cons]
    omega
  · rw [Session.edits, List.reverse_cons, List.map_append]
    rfl
  · obtain ⟨⟨path, kind, statements, findings⟩, history⟩ := s
    rw [Session.undo]
    simp only [hundo]

theorem applyAll_cons {edit : Edit} {edits : List Edit} (h : s.applyAll (edit :: edits) = .ok g) :
    ∃ s' record, s.apply edit = .ok (s', record) ∧ s'.applyAll edits = .ok g := by
  rw [applyAll] at h
  split at h
  · rename_i s' record hstep
    exact ⟨s', record, hstep, h⟩
  · cases h

theorem undoTimes_succ {n : Nat} (h : g.undoTimes n = .ok s') (hundo : s'.undo = .ok s) :
    g.undoTimes (n + 1) = .ok s := by
  induction n generalizing g with
  | zero =>
    obtain rfl := Except.ok.inj h
    rw [undoTimes, hundo]
    rfl
  | succ n ih =>
    rw [undoTimes] at h ⊢
    split at h
    · exact ih h
    · cases h

theorem undoTimes_length {edits : List Edit} (hdistinct : s.file.DistinctIds)
    (hroom : s.file.RoomFor edits) (h : s.applyAll edits = .ok g) :
    g.undoTimes edits.length = .ok s := by
  induction edits generalizing s with
  | nil =>
    obtain rfl := Except.ok.inj h
    rfl
  | cons edit edits ih =>
    obtain ⟨s', record, hstep, h⟩ := applyAll_cons h
    obtain ⟨hdistinct', hroom', -, hundo⟩ := step_of_apply hdistinct hroom hstep
    exact undoTimes_succ (ih hdistinct' hroom' h) hundo

/-- Each session on the way of a run of edits has distinct identities and the edits so far, and
comes back when the edits after it are taken back. -/
theorem exists_of_applyAll {done rest : List Edit} (hdistinct : s.file.DistinctIds)
    (hroom : s.file.RoomFor (done ++ rest)) (h : s.applyAll (done ++ rest) = .ok g) :
    ∃ s', s.applyAll done = .ok s' ∧ s'.file.DistinctIds ∧ s'.edits = s.edits ++ done ∧
      g.undoTimes rest.length = .ok s' := by
  induction done generalizing s with
  | nil => exact ⟨s, rfl, hdistinct, (List.append_nil _).symm, undoTimes_length hdistinct hroom h⟩
  | cons edit done ih =>
    obtain ⟨s₁, record, hstep, h⟩ := applyAll_cons h
    obtain ⟨hdistinct₁, hroom₁, hedits₁, -⟩ := step_of_apply hdistinct hroom hstep
    obtain ⟨s', hdone, hdistinct', hedits', hundo⟩ := ih hdistinct₁ hroom₁ h
    refine ⟨s', ?_, hdistinct', ?_, hundo⟩
    · rw [applyAll, hstep]
      exact hdone
    · rw [hedits', hedits₁, List.append_assoc, List.singleton_append]

/-- From a file in which no two statements share an identity, any run of edits is taken back one at
a time: at each point of the run no two statements share an identity, and taking back the edits
behind that point gives exactly the session that was there, its file and the edits made so far. In
the end this is the session before any edit. -/
theorem undoTimes_applyAll {f : ControlFile} {edits : List Edit} (hdistinct : f.DistinctIds)
    (hroom : f.RoomFor edits) (h : (start f).applyAll edits = .ok g) :
    (∀ done rest, edits = done ++ rest → ∃ s, (start f).applyAll done = .ok s ∧
      s.file.DistinctIds ∧ s.edits = done ∧ g.undoTimes rest.length = .ok s) ∧
    g.undoTimes edits.length = .ok (start f) := by
  refine ⟨fun done rest hsplit => ?_, undoTimes_length hdistinct hroom h⟩
  subst hsplit
  exact exists_of_applyAll hdistinct hroom h

/-- Edits of all six kinds, one of which takes up the identity of a statement that another one has
removed, are made and taken back. -/
theorem undoTimes_applyAll_mixed : ∃ (f : ControlFile) (g : Session),
    ControlFile.ofText ⟨"/m/m.tcf"⟩ "A == 1\n! B == 2\n" = .ok f ∧ f.DistinctIds ∧
    (let a := StatementId.compute "m.tcf" "A == 1" 0
     let b := StatementId.compute "m.tcf" "! B == 2" 0
     let edits := [.remove a, .insert (some b) "A == 1" none, .uncomment b, .updateValue b "3",
       .changeScope b [.ofText .scenario "S"], .commentOut a]
     f.RoomFor edits ∧ (start f).applyAll edits = .ok g ∧
       g.undoTimes edits.length = .ok (start f)) := by
  let a := StatementId.compute "m.tcf" "A == 1" 0
  let b := StatementId.compute "m.tcf" "! B == 2" 0
  let edits : List Edit := [.remove a, .insert (some b) "A == 1" none, .uncomment b,
    .updateValue b "3", .changeScope b [.ofText .scenario "S"], .commentOut a]
  have hrun : ((ControlFile.ofText ⟨"/m/m.tcf"⟩ "A == 1\n! B == 2\n").toOption.any fun f =>
      decide (f.statements.map (·.id)).Nodup && f.path.fileName == ("m.tcf" : Text) &&
        f.statements.length == 2 && ((start f).applyAll edits).toOption.isSome) = true := by
    decide +kernel
  have hids : ((List.range 16).map (StatementId.compute "m.tcf" "A == 1")).Nodup := by
    decide +kernel
  obtain ⟨f, hf, hrun⟩ := Except.toOption_any_iff.mp hrun
  simp only [Bool.and_eq_true, decide_eq_true_eq, beq_iff_eq, Except.toOption_isSome_iff] at hrun
  obtain ⟨⟨⟨hdistinct, hname⟩, hlength⟩, g, hg⟩ := hrun
  have hroom : f.RoomFor edits := by
    intro after text scope hmem
    obtain ⟨-, rfl, -⟩ : after = some b ∧ text = "A == 1" ∧ scope = none := by
      simpa [edits] using hmem
    rw [hname, hlength]
    intro i hi j hj hij
    exact List.inj_on_of_nodup_map hids (List.mem_range.mpr hi) (List.mem_range.mpr hj) hij
  exact ⟨f, g, hf, hdistinct, hroom, hg, (undoTimes_applyAll hdistinct hroom hg).2⟩

end Session

end ControlFiles
