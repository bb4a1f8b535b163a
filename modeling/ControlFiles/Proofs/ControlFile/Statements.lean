import ControlFiles.Proofs.Block.Pruning
import ControlFiles.Proofs.Block.Reading
import ControlFiles.Proofs.Except
import Mathlib.Data.List.Forall2
import Mathlib.Data.List.Nodup

/-!
# The statements of a text

A text is read without a fault exactly if its lines are those of a valid outline
(`exists_valid_of_readStatements`, `readStatements_of_valid`), and its statements are then those of
the entries of the outline, in which every block knows the line that closes it
(`Entry.Gives`, `Closes.ofList_of_mem`).
-/

namespace ControlFiles

/-! ## Closing lines -/

/-- The closing lines of a list; of two for one block the later counts. -/
def Closes.ofList (closes : List (Nat × Text)) : Closes := fun block =>
  closes.foldl (fun known p => if p.1 = block then some p.2 else known) none

theorem Closes.foldl_of_not_mem {closes : List (Nat × Text)} {block : Nat} (known : Option Text)
    (h : block ∉ closes.map (·.1)) :
    closes.foldl (fun known p => if p.1 = block then some p.2 else known) known = known := by
  induction closes with
  | nil => rfl
  | cons p closes ih =>
    simp only [List.map_cons, List.mem_cons, not_or] at h
    rw [List.foldl_cons, if_neg (Ne.symm h.1), ih h.2]

/-- If no block is closed twice, each knows its closing line. -/
theorem Closes.ofList_of_mem {closes : List (Nat × Text)} (hnodup : (closes.map (·.1)).Nodup)
    {p : Nat × Text} (h : p ∈ closes) : Closes.ofList closes p.1 = some p.2 := by
  rw [ofList]
  generalize none = known
  induction closes generalizing known with
  | nil => simp at h
  | cons q closes ih =>
    rw [List.map_cons, List.nodup_cons] at hnodup
    rw [List.foldl_cons]
    rcases List.mem_cons.mp h with rfl | h
    · rw [if_pos rfl]
      exact foldl_of_not_mem _ hnodup.1
    · exact ih hnodup.2 h _

mutual

/-- A block is opened on one of the lines of the outline. -/
theorem Outline.closes_range : ∀ (t : Outline) (n : Nat), ∀ p ∈ t.closes n,
    n ≤ p.1 ∧ p.1 < n + t.size
  | .nil, _ => by simp [Outline.closes]
  | .line _ rest, n => by
    intro p hp
    rw [Outline.closes] at hp
    have := Outline.closes_range rest (n + 1) p hp
    rw [Outline.size_line]
    omega
  | .block head first more close rest, n => by
    intro p hp
    simp only [Outline.closes, List.mem_append, List.mem_cons] at hp
    rw [Outline.size_block]
    rcases hp with hp | hp | rfl | hp
    · have := Outline.closes_range first (n + 1) p hp
      omega
    · have := Branches.closes_range more (n + 1 + first.size) p hp
      omega
    · dsimp only
      omega
    · have := Outline.closes_range rest (n + 1 + first.size + more.size + 1) p hp
      omega

theorem Branches.closes_range : ∀ (t : Branches) (n : Nat), ∀ p ∈ t.closes n,
    n ≤ p.1 ∧ p.1 < n + t.size
  | .nil, _ => by simp [Branches.closes]
  | .branch head body more, n => by
    intro p hp
    simp only [Branches.closes, List.mem_append] at hp
    rw [Branches.size_branch]
    rcases hp with hp | hp
    · have := Outline.closes_range body (n + 1) p hp
      omega
    · have := Branches.closes_range more (n + 1 + body.size) p hp
      omega

end

theorem nodup_map_fst_append {a b : List (Nat × Text)} {k : Nat} (ha : (a.map (·.1)).Nodup)
    (hb : (b.map (·.1)).Nodup) (hak : ∀ p ∈ a, p.1 < k) (hbk : ∀ p ∈ b, k ≤ p.1) :
    ((a ++ b).map (·.1)).Nodup := by
  rw [List.map_append, List.nodup_append]
  refine ⟨ha, hb, fun x hx y hy => ?_⟩
  obtain ⟨p, hp, rfl⟩ := List.mem_map.mp hx
  obtain ⟨q, hq, rfl⟩ := List.mem_map.mp hy
  have := hak p hp
  have := hbk q hq
  omega

mutual

/-- No two blocks of an outline are opened on one line. -/
theorem Outline.nodup_closes : ∀ (t : Outline) (n : Nat), ((t.closes n).map (·.1)).Nodup
  | .nil, _ => by simp [Outline.closes]
  | .line _ rest, n => Outline.nodup_closes rest (n + 1)
  | .block head first more close rest, n => by
    have hfirst := Outline.closes_range first (n + 1)
    have hmore := Branches.closes_range more (n + 1 + first.size)
    have hrest := Outline.closes_range rest (n + 1 + first.size + more.size + 1)
    have hinner : (((first.closes (n + 1)) ++ more.closes (n + 1 + first.size)).map (·.1)).Nodup :=
      nodup_map_fst_append (k := n + 1 + first.size) (Outline.nodup_closes first (n + 1))
        (Branches.nodup_closes more _) (fun p hp => (hfirst p hp).2) fun p hp => (hmore p hp).1
    have hall := nodup_map_fst_append (k := n + 1 + first.size + more.size) hinner
      (Outline.nodup_closes rest (n + 1 + first.size + more.size + 1))
      (fun p hp => by
        rcases List.mem_append.mp hp with hp | hp
        · have := hfirst p hp
          omega
        · exact (hmore p hp).2)
      fun p hp => by
        have := hrest p hp
        omega
    have hout : n ∉ (first.closes (n + 1) ++ more.closes (n + 1 + first.size) ++
        rest.closes (n + 1 + first.size + more.size + 1)).map (·.1) := by
      intro hmem
      obtain ⟨p, hp, hpn⟩ := List.mem_map.mp hmem
      simp only [List.mem_append] at hp
      rcases hp with (hp | hp) | hp
      · have := hfirst p hp
        omega
      · have := hmore p hp
        omega
      · have := hrest p hp
        omega
    have hperm : ((Outline.block head first more close rest).closes n).Perm
        ((n, close.line.text) :: (first.closes (n + 1) ++ more.closes (n + 1 + first.size) ++
          rest.closes (n + 1 + first.size + more.size + 1))) := by
      rw [Outline.closes, ← List.append_assoc]
      exact List.perm_middle
    exact (hperm.map _).nodup_iff.mpr (List.nodup_cons.mpr ⟨hout, hall⟩)

theorem Branches.nodup_closes : ∀ (t : Branches) (n : Nat), ((t.closes n).map (·.1)).Nodup
  | .nil, _ => by simp [Branches.closes]
  | .branch head body more, n =>
    nodup_map_fst_append (k := n + 1 + body.size) (Outline.nodup_closes body (n + 1))
      (Branches.nodup_closes more (n + 1 + body.size))
      (fun p hp => (Outline.closes_range body (n + 1) p hp).2)
      fun p hp => (Branches.closes_range more (n + 1 + body.size) p hp).1

end

/-! ## Recording the closing lines -/

/-- The scope with the closing lines of a list recorded. -/
def Scope.withCloses (closes : List (Nat × Text)) (s : Scope) : Scope :=
  closes.foldl (fun s p => s.withClose p.1 p.2) s

theorem Scope.withCloses_withSource (closes : List (Nat × Text)) (s : Scope) (block branch : Nat)
    (header : Text) :
    (s.withSource (Closes.unknown.source block branch header)).withCloses closes =
      s.withSource ((Closes.ofList closes).source block branch header) := by
  have hfold : ∀ known, (s.withSource ⟨block, branch, header, known⟩).withCloses closes =
      s.withSource ⟨block, branch, header,
        closes.foldl (fun known p => if p.1 = block then some p.2 else known) known⟩ := by
    induction closes with
    | nil => exact fun _ => rfl
    | cons p closes ih =>
      intro known
      have hstep : (s.withSource ⟨block, branch, header, known⟩).withClose p.1 p.2 =
          s.withSource ⟨block, branch, header, if p.1 = block then some p.2 else known⟩ := by
        by_cases hp : block = p.1
        · simp [withClose, withSource, hp]
        · simp [withClose, withSource, hp, Ne.symm hp]
      rw [withCloses, List.foldl_cons, List.foldl_cons, hstep]
      exact ih _
  exact hfold none

theorem ScopeList.foldl_withClose (closes : List (Nat × Text)) (l : ScopeList) :
    closes.foldl (fun scope p => ScopeList.withClose scope p.1 p.2) l =
      l.map (Scope.withCloses closes) := by
  induction closes generalizing l with
  | nil => exact (List.map_id l).symm
  | cons p closes ih =>
    rw [List.foldl_cons, ih, withClose, List.map_map]
    rfl

/-- The level with the closing lines of a list recorded. -/
def Level.withCloses (closes : List (Nat × Text)) (l : Level) : Level :=
  ⟨l.guard.map (Scope.withCloses closes), l.leaf.withCloses closes⟩

theorem Level.withCloses_opening (closes : List (Nat × Text)) (h : Header) (block branch : Nat)
    (header : Text) :
    (Level.opening h (Closes.unknown.source block branch header)).withCloses closes =
      Level.opening h ((Closes.ofList closes).source block branch header) := by
  simp only [withCloses, opening, Scope.withCloses_withSource, Option.map_none]

theorem Level.withCloses_later (closes : List (Nat × Text)) (q : Question) (seen : List Text)
    (block branch : Nat) (header : Text) (h : Option Header) :
    (Level.later q seen (Closes.unknown.source block branch header) h).withCloses closes =
      Level.later q seen ((Closes.ofList closes).source block branch header) h := by
  cases h <;> simp only [withCloses, later, Scope.withCloses_withSource, Option.map_some,
    Option.map_none]

/-- The entry with the closing lines of a list recorded. -/
def Entry.withCloses (closes : List (Nat × Text)) (e : Entry) : Entry :=
  { e with path := e.path.map (Level.withCloses closes) }

theorem Outline.map_withCloses_placeholder (closes : List (Nat × Text)) (n : Nat)
    (path : List Level) (t : Outline) :
    (t.placeholder n path).map (Entry.withCloses closes) =
      t.placeholder n (path.map (Level.withCloses closes)) := by
  rw [placeholder, placeholder]
  split <;> rfl

mutual

/-- The closing lines can be recorded when the text is read, or be known from the start. -/
theorem Outline.map_withCloses_entries (closes : List (Nat × Text)) : ∀ (t : Outline) (n : Nat)
    (path : List Level), (t.entries .unknown n path).map (Entry.withCloses closes) =
      t.entries (.ofList closes) n (path.map (Level.withCloses closes))
  | .nil, _, _ => rfl
  | .line l rest, n, path => by
    rw [Outline.entries, List.map_cons, Outline.map_withCloses_entries closes rest, Outline.entries]
    rfl
  | .block head first more close rest, n, path => by
    simp only [Outline.entries, List.map_append, Outline.map_withCloses_entries closes first,
      Outline.map_withCloses_placeholder, Branches.map_withCloses_entries closes more,
      Outline.map_withCloses_entries closes rest, List.map_cons, List.map_nil,
      Level.withCloses_opening]

theorem Branches.map_withCloses_entries (closes : List (Nat × Text)) : ∀ (t : Branches)
    (block : Nat) (q : Question) (seen : List Text) (n : Nat) (path : List Level),
      (t.entries .unknown block q seen n path).map (Entry.withCloses closes) =
        t.entries (.ofList closes) block q seen n (path.map (Level.withCloses closes))
  | .nil, _, _, _, _, _ => rfl
  | .branch head body more, block, q, seen, n, path => by
    simp only [Branches.entries, List.map_append, Outline.map_withCloses_entries closes body,
      Outline.map_withCloses_placeholder, Branches.map_withCloses_entries closes more,
      List.map_cons, List.map_nil, Level.withCloses_later]

end

/-! ## Statements -/

/-- The statement is that of the entry; nothing is said about its identity. -/
def Entry.Gives (o : ReadOptions) (e : Entry) (s : Statement) : Prop :=
  ∃ id, s = { e.statement o 0 with id }

/-- A statement that says something is of no kind that says nothing. -/
theorem Statement.kind_ne {s : Statement} (h : s.isContent = true) {kind : StatementKind}
    (hkind : kind.isContent = false) : s.kind ≠ kind := by
  rintro rfl
  exact Bool.false_ne_true (hkind.symm.trans h)

theorem Line.statementKind_ne_placeholder (l : Line) : l.statementKind ≠ .placeholder := by
  unfold statementKind kindOfCommand
  repeat' split
  all_goals simp

theorem Entry.Gives.placeholder_iff {o : ReadOptions} {e : Entry} {s : Statement}
    (h : e.Gives o s) : s.kind = .placeholder ↔ e.line? = none := by
  obtain ⟨id, rfl⟩ := h
  cases he : e.line? with
  | none => simp [Entry.statement, he, Statement.placeholder]
  | some l => simp [Entry.statement, he, Statement.ofLine, l.statementKind_ne_placeholder]

theorem Entry.Gives.line_eq {o : ReadOptions} {e : Entry} {s : Statement} (h : e.Gives o s) :
    s.line = e.number := by
  obtain ⟨id, rfl⟩ := h
  cases he : e.line? <;> simp [Entry.statement, he, Statement.ofLine, Statement.placeholder]

theorem Entry.Gives.scope_eq {o : ReadOptions} {e : Entry} {s : Statement} (h : e.Gives o s) :
    s.scope = e.scope := by
  obtain ⟨id, rfl⟩ := h
  cases he : e.line? <;> simp [Entry.statement, he, Statement.ofLine, Statement.placeholder]

theorem Entry.Gives.raw_eq {o : ReadOptions} {e : Entry} {s : Statement} (h : e.Gives o s) :
    s.raw = e.text := by
  obtain ⟨id, rfl⟩ := h
  cases he : e.line? <;>
    simp [Entry.statement, he, Statement.ofLine, Statement.placeholder, Entry.text]

theorem exists_gives_of_mem {o : ReadOptions} {es : List Entry} {ss : List Statement}
    (h : List.Forall₂ (Entry.Gives o) es ss) {s : Statement} (hs : s ∈ ss) :
    ∃ e ∈ es, e.Gives o s := by
  induction h with
  | nil => cases hs
  | @cons e s' es ss hgives _ ih =>
    rcases List.mem_cons.mp hs with rfl | hs
    · exact ⟨e, List.mem_cons_self, hgives⟩
    · obtain ⟨e', he', hgives'⟩ := ih hs
      exact ⟨e', List.mem_cons_of_mem _ he', hgives'⟩

theorem map_line_eq {o : ReadOptions} {es : List Entry} {ss : List Statement}
    (h : List.Forall₂ (Entry.Gives o) es ss) : ss.map Statement.line = es.map Entry.number := by
  induction h with
  | nil => rfl
  | cons hgives _ ih => rw [List.map_cons, List.map_cons, hgives.line_eq, ih]

/-- The statements that are no placeholders are the lines of content, in order. -/
theorem map_line_of_gives {o : ReadOptions} {es : List Entry} {ss : List Statement}
    (h : List.Forall₂ (Entry.Gives o) es ss) :
    (ss.filter fun s => s.kind ≠ .placeholder).map (fun s => (s.raw, s.line)) =
      (es.filterMap Entry.content?).map fun p => (p.1.text, p.2) := by
  induction h with
  | nil => rfl
  | @cons e s es ss hgives _ ih =>
    cases he : e.line? with
    | none =>
      have hkind := hgives.placeholder_iff.mpr he
      rw [List.filterMap_cons_none (by simp [Entry.content?, he]),
        List.filter_cons_of_neg (by simpa using hkind), ih]
    | some l =>
      have hkind : s.kind ≠ .placeholder := by simp [hgives.placeholder_iff, he]
      rw [List.filterMap_cons_some (b := (l, e.number)) (by simp [Entry.content?, he]),
        List.filter_cons_of_pos (by simpa using hkind), List.map_cons, List.map_cons, ih,
        hgives.raw_eq, hgives.line_eq, Entry.text, he]
      rfl

theorem Entry.gives_withCloses (o : ReadOptions) (closes : List (Nat × Text)) (e : Entry)
    (ordinal : Nat) :
    (e.withCloses closes).Gives o (Reading.withCloses closes (e.statement o ordinal)) := by
  have hscope : closes.foldl (fun scope p => ScopeList.withClose scope p.1 p.2) e.scope =
      (e.withCloses closes).scope := by
    have hglobal : Scope.global.withCloses closes = Scope.global := by
      induction closes with
      | nil => rfl
      | cons p closes ih => exact ih
    have hlevel : ∀ l : Level,
        l.scopes.map (Scope.withCloses closes) = (l.withCloses closes).scopes := by
      intro l
      cases hg : l.guard <;> simp [Level.scopes, Level.withCloses, hg]
    rw [ScopeList.foldl_withClose]
    simp only [scope, Level.scopeList, withCloses, List.map_cons, hglobal, List.map_flatMap, hlevel,
      List.flatMap_map]
  refine ⟨(e.statement o ordinal).id, ?_⟩
  cases hl : e.line? with
  | none =>
    simp only [Reading.withCloses, statement, hl, Statement.placeholder, hscope]
    simp only [withCloses, hl]
  | some l =>
    simp only [Reading.withCloses, statement, hl, Statement.ofLine, hscope]
    simp only [withCloses, hl]

/-- Adding entries to a reading adds a statement for each, in their order. -/
theorem Reading.statements_addAll (o : ReadOptions) (closes : List (Nat × Text)) (r : Reading)
    (es : List Entry) : ∃ ss, (r.addAll o es).statements.reverse.map (Reading.withCloses closes) =
      r.statements.reverse.map (Reading.withCloses closes) ++ ss ∧
        List.Forall₂ (Entry.Gives o) (es.map (Entry.withCloses closes)) ss := by
  induction es generalizing r with
  | nil => exact ⟨[], by simp, .nil⟩
  | cons e es ih =>
    obtain ⟨ss, hss, hgives⟩ := ih (r.addEntry o e)
    refine ⟨Reading.withCloses closes (e.statement o (r.texts.count e.text)) :: ss, ?_,
      .cons (Entry.gives_withCloses o closes e _) hgives⟩
    rw [Reading.addAll_cons, hss]
    simp [addEntry, add]

/-- The entries of a whole text, in which every block knows its closing line. -/
def Outline.allEntries (t : Outline) : List Entry := t.entries (.ofList (t.closes 1)) 1 []

theorem Outline.nodup_number (t : Outline) : (t.allEntries.map Entry.number).Nodup := by
  rw [allEntries, map_number_entries]
  exact (t.within_numbers 1).sorted.imp fun hlt => hlt.ne

/-- The entries of a text are told by their numbers. -/
theorem Outline.eq_of_number_eq {t : Outline} {e e' : Entry} (he : e ∈ t.allEntries)
    (he' : e' ∈ t.allEntries) (h : e.number = e'.number) : e = e' :=
  List.inj_on_of_nodup_map t.nodup_number he he' h

/-- No two statements of an outline are of one line. -/
theorem Outline.nodup_line {o : ReadOptions} {t : Outline} {ss : List Statement}
    (h : List.Forall₂ (Entry.Gives o) t.allEntries ss) : (ss.map Statement.line).Nodup := by
  rw [map_line_eq h]
  exact t.nodup_number

/-- A text is read without a fault if its lines are and leave no block open. -/
theorem readStatements_eq_ok {o : ReadOptions} {text : Text} {ss : List Statement} :
    readStatements o text = .ok ss ↔
      ∃ r, Reading.steps o ⟨.empty o.file, [], []⟩ (o.linesOf text) 1 = .ok r ∧
        r.stack.blocks = [] ∧
        r.statements.reverse.map (Reading.withCloses r.stack.closes) = ss := by
  rw [readStatements]
  cases Reading.steps o ⟨.empty o.file, [], []⟩ (o.linesOf text) 1 with
  | error fault => simp
  | ok r =>
    cases hblocks : r.stack.blocks with
    | nil => simp [BlockStack.finish, hblocks]
    | cons b outer => simp [BlockStack.finish, hblocks]

/-- The lines of a valid outline are read without a fault; the statements are those of its
entries. -/
theorem readStatements_of_valid {o : ReadOptions} {text : Text} {t : Outline} (hv : t.Valid)
    (hlines : t.lines = o.linesOf text) :
    ∃ ss, readStatements o text = .ok ss ∧ List.Forall₂ (Entry.Gives o) t.allEntries ss := by
  have hsteps := Outline.steps_eq o t hv ⟨.empty o.file, [], []⟩ (.empty o.file) 1 []
    (BlockStack.inside_empty o.file)
  have hblocks : (BlockStack.through (.empty o.file) 1 t).blocks = [] := by
    rw [BlockStack.through]
    split <;> rfl
  have hcloses : (BlockStack.through (.empty o.file) 1 t).closes = t.closes 1 := List.nil_append _
  obtain ⟨ss, hss, hgives⟩ := Reading.statements_addAll o (t.closes 1) ⟨.empty o.file, [], []⟩
    (t.entries .unknown 1 [])
  rw [Outline.map_withCloses_entries] at hgives
  refine ⟨ss, ?_, hgives⟩
  change Reading.steps o ⟨.empty o.file, [], []⟩ t.lines 1 = _ at hsteps
  rw [hlines] at hsteps
  refine readStatements_eq_ok.mpr ⟨_, hsteps, hblocks, ?_⟩
  rw [Reading.stack_withStack, hcloses]
  exact hss

/-- A text that is read without a fault has the lines of a valid outline. -/
theorem exists_valid_of_readStatements {o : ReadOptions} {text : Text} {ss : List Statement}
    (h : readStatements o text = .ok ss) : ∃ t : Outline, t.Valid ∧ t.lines = o.linesOf text := by
  obtain ⟨r, hsteps, hblocks, -⟩ := readStatements_eq_ok.mp h
  exact completes_of_steps hsteps hblocks

/-- The statements of a text that is read without a fault are those of the entries of an outline
that has its lines. -/
theorem exists_outline_of_readStatements {o : ReadOptions} {text : Text} {ss : List Statement}
    (h : readStatements o text = .ok ss) : ∃ t : Outline, t.Valid ∧ t.lines = o.linesOf text ∧
      List.Forall₂ (Entry.Gives o) t.allEntries ss := by
  obtain ⟨t, hv, hlines⟩ := exists_valid_of_readStatements h
  obtain ⟨ss', hss', hgives⟩ := readStatements_of_valid hv hlines
  rw [h] at hss'
  obtain rfl := Except.ok.inj hss'
  exact ⟨t, hv, hlines, hgives⟩

/-- A control file holds the statements of its text. -/
theorem ControlFile.readStatements_of_ofText {path : Path} {text : Text} {f : ControlFile}
    (h : ControlFile.ofText path text = .ok f) :
    readStatements (.ofPath Line.commentMarks path) text = .ok f.statements := by
  obtain ⟨ss, hread, rfl⟩ := Except.map_eq_ok.mp h
  exact hread

end ControlFiles
