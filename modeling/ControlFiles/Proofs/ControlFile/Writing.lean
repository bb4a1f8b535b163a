import ControlFiles.Proofs.Block.Levels
import ControlFiles.Proofs.Block.Pruning
import ControlFiles.Proofs.ControlFile.Statements

/-!
# What is written for an outline

The writer knows the blocks that it has opened and closes them only when the next statement needs
it. So what it writes for some entries is compared with the text of an outline up to the blocks that
are left to be closed (`Layout.Writes`). With this, the entries that are left of an outline are
written as the pruned outline is laid out (`Outline.writes`).
-/

namespace ControlFiles

namespace Layout

/-! ## Writing entries -/

/-- The lines of an entry at its depth. -/
def entryLines (depth : Nat) (e : Entry) : List Text := (e.line?.map (Line.written depth)).toList

/-- The lines of some entries, with the given blocks open before them. -/
def place : List OpenLevel → List Entry → List Text
  | blocks, [] => closeAll 0 blocks
  | blocks, e :: rest =>
    let (blocks, moved) := move blocks e.path
    moved ++ entryLines blocks.length e ++ place blocks rest

theorem place_cons (blocks : List OpenLevel) (e : Entry) (rest : List Entry) :
    place blocks (e :: rest) = (move blocks e.path).2 ++
      (entryLines (move blocks e.path).1.length e ++ place (move blocks e.path).1 rest) := by
  rw [place]
  exact List.append_assoc _ _ _

theorem statementLines_of_gives {o : ReadOptions} {e : Entry} {s : Statement}
    (h : e.Gives o s) (hplain : ∀ l ∈ e.line?, l.directive = .none) (depth : Nat) :
    statementLines depth s = entryLines depth e := by
  obtain ⟨id, rfl⟩ := h
  cases hl : e.line? with
  | none => simp [statementLines, entryLines, Entry.statement, hl, Statement.placeholder]
  | some l =>
    have hkind : ∀ key value, Line.kindOfCommand key value ≠ .blank ∧
        Line.kindOfCommand key value ≠ .placeholder := by
      intro key value
      unfold Line.kindOfCommand
      repeat' split
      all_goals simp
    simp only [statementLines, entryLines, Entry.statement, hl, Statement.ofLine, Option.map_some,
      Option.toList_some, Line.written, Line.isBlankLine, hplain l (by simp [hl]), decide_true,
      Bool.true_and]
    cases hcommand : l.command with
    | none => cases hcomment : l.comment <;> simp [Line.statementKind, hcommand, hcomment]
    | some command =>
      obtain ⟨hblank, hplaceholder⟩ :=
        hkind (commandKey command) (Text.lower (l.value.getD []))
      have hkind' : l.statementKind =
          Line.kindOfCommand (commandKey command) (Text.lower (l.value.getD [])) := by
        rw [Line.statementKind, hcommand]
      rw [hkind']
      split
      · exact absurd ‹_› hplaceholder
      · exact absurd ‹_› hblank
      · simp

/-- The statements of entries are written as the entries are. -/
theorem lines_eq_place (file : Text) {o : ReadOptions} {es : List Entry} {ss : List Statement}
    (h : List.Forall₂ (Entry.Gives o) es ss)
    (hformed : ∀ e ∈ es, (∀ l ∈ e.path, l.Formed) ∧ ∀ l ∈ e.line?, l.directive = .none)
    (blocks : List OpenLevel) : lines file blocks ss = .ok (place blocks es) := by
  induction h generalizing blocks with
  | nil => rfl
  | @cons e s es ss hgives _ ih =>
    obtain ⟨hpath, hplain⟩ := hformed e List.mem_cons_self
    rw [lines, hgives.scope_eq, Entry.scope, Level.ofScopes_scopeList hpath]
    simp only
    rw [ih fun e' he' => hformed e' (List.mem_cons_of_mem _ he'), statementLines_of_gives hgives
      hplain]
    rfl

/-! ## Moving from level to level -/

/-- The open levels are those of branches. -/
def ProperLevels (base : List OpenLevel) : Prop := ∀ o ∈ base, o.level.Proper

/-- The levels of some open blocks. -/
def levels (base : List OpenLevel) : List Level := base.map (·.level)

theorem identical_self {l : Level} (h : l.Proper) : l.identical l = true := by
  have hguard : Level.sameGuard l.guard l.guard = true := by
    cases l.guard <;> simp [Level.sameGuard]
  obtain ⟨source, hsource⟩ := Option.isSome_iff_exists.mp h.source
  simp [Level.identical, hguard, hsource, Level.sameSource, BlockSource.sameBranch]

/-- Levels of different branches are not the same. -/
theorem not_identical {l k : Level} {s t : BlockSource} (hl : l.leaf.source = some s)
    (hk : k.leaf.source = some t) (h : s.block ≠ t.block ∨ s.branch ≠ t.branch) :
    l.identical k = false := by
  have hsource : Level.sameSource l.leaf.source k.leaf.source = false := by
    rw [hl, hk]
    simpa [Level.sameSource, BlockSource.sameBranch, ← not_and_or] using h
  rw [Level.identical, hsource, Bool.and_false]

theorem common_append {base : List OpenLevel} (h : ProperLevels base) (p : List OpenLevel)
    (target : List Level) : common (base ++ p) (levels base ++ target) =
      base.length + common p target := by
  induction base with
  | nil => simp [levels]
  | cons o base ih =>
    show (if o.level.identical o.level then common (base ++ p) (levels base ++ target) + 1 else 0) =
      _
    rw [identical_self (h o List.mem_cons_self), if_pos rfl,
      ih fun o' ho' => h o' (List.mem_cons_of_mem _ ho'), List.length_cons]
    omega

section
variable {base p : List OpenLevel}

theorem length_levels (base : List OpenLevel) : (levels base).length = base.length :=
  List.length_map _

/-- The levels of the open blocks stay open; beyond them everything is closed. -/
theorem move_levels (h : ProperLevels base) (p : List OpenLevel) :
    move (base ++ p) (levels base) = (base, closeAll base.length p) := by
  have hcommon : common (base ++ p) (levels base) = base.length := by
    have := common_append h p []
    cases p <;> simpa [common] using this
  rw [move, hcommon]
  simp only [List.take_left', List.drop_left']
  rw [List.drop_eq_nil_of_le (length_levels base).le]
  cases p <;> simp [closeAll, openAll]

/-- Levels inside the innermost open block are opened. -/
theorem move_deeper (h : ProperLevels base) (deep : List Level) :
    move base (levels base ++ deep) =
      (base ++ deep.map .ofLevel, openAll base.length deep) := by
  have hcommon : common base (levels base ++ deep) = base.length := by
    have := common_append h [] deep
    rw [List.append_nil] at this
    rw [this]
    cases deep <;> simp [common]
  rw [move, hcommon]
  simp only [List.take_length, List.drop_length]
  rw [List.drop_left' (length_levels base)]

/-- A block that a level does not agree with is not kept. -/
theorem common_beside (h : ProperLevels base) {o : OpenLevel} (inner : List OpenLevel) {lv : Level}
    (deep : List Level) (hidentical : o.level.identical lv = false) :
    common (base ++ o :: inner) (levels base ++ lv :: deep) = base.length := by
  rw [common_append h, common, hidentical]
  simp

/-- A level that neither agrees with an open block nor continues it is opened after the block is
closed. -/
theorem move_opening (h : ProperLevels base) {lv : Level} (deep : List Level)
    (hp : ∀ o ∈ p.head?, o.level.identical lv = false ∧ o.continuesWith lv = false) :
    move (base ++ p) (levels base ++ lv :: deep) =
      (base ++ .ofLevel lv :: deep.map .ofLevel,
        closeAll base.length p ++ openAll base.length (lv :: deep)) := by
  cases p with
  | nil =>
    rw [List.append_nil, move_deeper h]
    rfl
  | cons o inner =>
    obtain ⟨hidentical, hcontinues⟩ := hp o rfl
    rw [move, common_beside h inner deep hidentical]
    simp only [List.take_left', List.drop_left']
    rw [List.drop_left' (length_levels base)]
    simp [hcontinues]

/-- A level that continues an open block is written as its next branch. -/
theorem move_continuing (h : ProperLevels base) {o : OpenLevel} {inner : List OpenLevel}
    {lv : Level} (deep : List Level) (hidentical : o.level.identical lv = false)
    (hcontinues : o.continuesWith lv = true) :
    move (base ++ o :: inner) (levels base ++ lv :: deep) =
      (base ++ o.advance lv :: deep.map .ofLevel,
        closeAll (base.length + 1) inner ++
          indent base.length lv.branchText :: openAll (base.length + 1) deep) := by
  rw [move, common_beside h inner deep hidentical]
  simp only [List.take_left', List.drop_left']
  rw [List.drop_left' (length_levels base)]
  simp [hcontinues]

end

/-! ## Pieces of what is written -/

/-- Some entries, written with the blocks `base ++ p` open, leave the blocks `base ++ p'` open. What
is written for them and the lines `after` that are still to come make the lines `before` that were
to come already and the lines `texts`. -/
def Writes (base p : List OpenLevel) (before : List Text) (es : List Entry) (texts : List Text)
    (p' : List OpenLevel) (after : List Text) : Prop :=
  ∃ out, (∀ rest, place (base ++ p) (es ++ rest) = out ++ place (base ++ p') rest) ∧
    out ++ after = before ++ texts

namespace Writes
variable {base p p' : List OpenLevel} {before after texts : List Text} {es : List Entry}

theorem nil (base p : List OpenLevel) (before : List Text) : Writes base p before [] [] p before :=
  ⟨[], fun _ => rfl, (List.append_nil _).symm⟩

theorem append {p'' : List OpenLevel} {after' texts' : List Text} {es' : List Entry}
    (h : Writes base p before es texts p' after) (h' : Writes base p' after es' texts' p'' after') :
    Writes base p before (es ++ es') (texts ++ texts') p'' after' := by
  obtain ⟨out, hout, heq⟩ := h
  obtain ⟨out', hout', heq'⟩ := h'
  refine ⟨out ++ out', fun rest => ?_, ?_⟩
  · rw [List.append_assoc, hout, hout', List.append_assoc]
  · rw [List.append_assoc, heq', ← List.append_assoc, heq, List.append_assoc]

/-- The innermost open block can be counted among those that are left to be closed. -/
theorem under {x : OpenLevel} (h : Writes (base ++ [x]) p before es texts p' after) :
    Writes base (x :: p) before es texts (x :: p') after := by
  obtain ⟨out, hout, heq⟩ := h
  refine ⟨out, fun rest => ?_, heq⟩
  have := hout rest
  simpa only [List.append_assoc, List.singleton_append] using this

/-- An entry right inside the open blocks. -/
theorem entry (h : ProperLevels base) (p : List OpenLevel) {e : Entry}
    (he : e.path = levels base) :
    Writes base p (closeAll base.length p) [e] (entryLines base.length e) [] [] := by
  refine ⟨closeAll base.length p ++ entryLines base.length e, fun rest => ?_, List.append_nil _⟩
  rw [List.singleton_append, place_cons, he, move_levels h, List.append_nil, List.append_assoc]

/-- The first of some entries inside a level makes the writer enter it, and write the lines
`heads`. -/
theorem entering (h : ProperLevels base) {x : OpenLevel} (hx : x.level.Proper) {heads : List Text}
    (hmove : ∀ deep, move (base ++ p) (levels base ++ x.level :: deep) =
      (base ++ x :: deep.map .ofLevel, before ++ (heads ++ openAll (base.length + 1) deep)))
    (hne : es ≠ []) (hpath : ∀ e ∈ es, levels base ++ [x.level] <+: e.path)
    (hes : Writes base [x] [] es texts p' after) :
    Writes base p before es (heads ++ texts) p' after := by
  obtain ⟨out, hout, heq⟩ := hes
  obtain ⟨e, es, rfl⟩ := List.exists_cons_of_ne_nil hne
  obtain ⟨deep, hdeep⟩ := hpath e List.mem_cons_self
  have hinner : levels (base ++ [x]) ++ deep = e.path := by rw [← hdeep]; simp [levels]
  have houter : e.path = levels base ++ x.level :: deep := by rw [← hdeep]; simp
  have hbase : ProperLevels (base ++ [x]) := by
    intro o ho
    rcases List.mem_append.mp ho with ho | ho
    · exact h o ho
    · rw [List.mem_singleton.mp ho]
      exact hx
  refine ⟨before ++ (heads ++ out), fun rest => ?_, ?_⟩
  · have hinside := hout rest
    rw [List.cons_append, place_cons, ← hinner, move_deeper hbase] at hinside
    rw [List.cons_append, place_cons, houter, hmove]
    simp only [List.append_assoc, List.singleton_append, List.length_append, List.length_cons,
      List.length_nil] at hinside ⊢
    rw [hinside]
  · rw [List.append_assoc, List.append_assoc, heq, List.nil_append]

/-- The first of some entries inside a level opens it. -/
theorem opening (h : ProperLevels base) {lv : Level} (hlv : lv.Proper)
    (hp : ∀ o ∈ p.head?, o.level.identical lv = false ∧ o.continuesWith lv = false)
    (hne : es ≠ []) (hpath : ∀ e ∈ es, levels base ++ [lv] <+: e.path)
    (hes : Writes base [.ofLevel lv] [] es texts p' after) :
    Writes base p (closeAll base.length p) es
      (lv.openingTexts.map (indent base.length) ++ texts) p' after :=
  hes.entering h hlv (fun deep => move_opening h deep hp) hne hpath

/-- The first of some entries inside the next branch of an open block begins it. -/
theorem continuing (h : ProperLevels base) {lv : Level} (hlv : lv.Proper) {o : OpenLevel}
    (inner : List OpenLevel) (hidentical : o.level.identical lv = false)
    (hcontinues : o.continuesWith lv = true)
    (hne : es ≠ []) (hpath : ∀ e ∈ es, levels base ++ [lv] <+: e.path)
    (hes : Writes base [o.advance lv] [] es texts p' after) :
    Writes base (o :: inner) (closeAll (base.length + 1) inner) es
      ([indent base.length lv.branchText] ++ texts) p' after :=
  hes.entering h hlv (fun deep => move_continuing h deep hidentical hcontinues) hne hpath

end Writes

end Layout

end ControlFiles
