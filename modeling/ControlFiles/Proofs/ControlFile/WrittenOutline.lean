import ControlFiles.Proofs.ControlFile.Writing

/-!
# The text that is written for an outline

The entries that are left of an outline are written as the pruned outline is laid out
(`Outline.writes`): the headers come back as they were read, the next branch of a block continues
it, and a block whose first branches are gone is opened by a header that is made for it.
-/

namespace ControlFiles

/-! ## Entries of an outline -/

/-- The entry stands inside some levels, and its own levels are those of branches. -/
structure Entry.Inside (path : List Level) (e : Entry) : Prop where
  isInside : path <+: e.path
  proper : (∀ l ∈ path, l.Proper) → ∀ l ∈ e.path, l.Proper
  plain : ∀ l ∈ e.line?, l.directive = .none

theorem Entry.Inside.outer {path : List Level} {lv : Level} {e : Entry}
    (h : e.Inside (path ++ [lv])) (hlv : lv.Proper) : e.Inside path where
  isInside := (List.prefix_append path [lv]).trans h.isInside
  proper := fun hpath => h.proper fun l hl => by
    rcases List.mem_append.mp hl with hl | hl
    · exact hpath l hl
    · rwa [List.mem_singleton.mp hl]
  plain := h.plain

theorem Outline.inside_placeholder (n : Nat) (path : List Level) (t : Outline) :
    ∀ e ∈ t.placeholder n path, e.Inside path := by
  intro e he
  rw [placeholder] at he
  split at he
  · rw [List.mem_singleton.mp he]
    exact ⟨List.prefix_rfl, fun h => h, by simp⟩
  · cases he

theorem Header.kind_ne_global {h : Header} {closing : Closing}
    (hkind : h.kind.closing? = some closing) : h.kind ≠ .global := by
  intro hglobal
  rw [hglobal] at hkind
  cases hkind

mutual

theorem Outline.inside_entries (closes : Closes) : ∀ (t : Outline) (n : Nat) (path : List Level),
    t.Valid → ∀ e ∈ t.entries closes n path, e.Inside path
  | .nil, _, _, _, _, he => by cases he
  | .line l rest, n, path, hv, e, he => by
    rcases List.mem_cons.mp he with rfl | he
    · refine ⟨List.prefix_rfl, fun h => h, fun l' hl' => ?_⟩
      rw [← Option.mem_some.mp hl']
      exact l.plain
    · exact Outline.inside_entries closes rest (n + 1) path hv e he
  | .block head first more close rest, n, path, hv, e, he => by
    obtain ⟨hkind, hfirst, hmore, hrest⟩ := hv
    have hlv := Level.proper_opening (Header.kind_ne_global hkind)
      (closes.source n n head.line.text)
    simp only [Outline.entries, List.mem_append] at he
    rcases he with he | he | he | he
    · exact (Outline.inside_entries closes first _ _ hfirst e he).outer hlv
    · exact (Outline.inside_placeholder _ _ first e he).outer hlv
    · exact Branches.inside_entries closes more _ _ _ _ _ _ hmore e he
    · exact Outline.inside_entries closes rest _ _ hrest e he

theorem Branches.inside_entries (closes : Closes) : ∀ (t : Branches) (block : Nat) (q : Question)
    (seen : List Text) (hasElse : Bool) (n : Nat) (path : List Level), t.Valid q seen hasElse →
      ∀ e ∈ t.entries closes block q seen n path, e.Inside path
  | .nil, _, _, _, _, _, _, _, _, he => by cases he
  | .branch head body more, block, q, seen, hasElse, n, path, hv, e, he => by
    obtain ⟨-, hadmits, hbody, hmore⟩ := hv
    have hlv := Level.proper_later hadmits seen (closes.source block n head.line.text)
    simp only [Branches.entries, List.mem_append] at he
    rcases he with he | he | he
    · exact (Outline.inside_entries closes body _ _ hbody e he).outer hlv
    · exact (Outline.inside_placeholder _ _ body e he).outer hlv
    · exact Branches.inside_entries closes more _ _ _ _ _ _ hmore e he

end

/-! ## Levels of one block -/

/-- The level is a branch of the block that the line `block` opens; the branch has the given header,
and the block the given closing line. -/
structure Level.IsFrom (q : Question) (block branch : Nat) (header close : Text) (l : Level) :
    Prop where
  source : l.leaf.source = some ⟨block, branch, header, some close⟩
  kind : l.leaf.kind = q.kind
  qualifier : q.kind.canBranch = true → Text.alike? l.leaf.qualifier q.qualifier = true

namespace Level

theorem opening_isFrom {closes : Closes} {n : Nat} {close : Text} (hclose : closes n = some close)
    (h : Header) (text : Text) :
    (opening h (closes.source n n text)).IsFrom h.question n n text close where
  source := by simp [opening, Closes.source, hclose]
  kind := opening_leaf_kind h _
  qualifier := by
    intro hbranch
    have hanon : h.kind.isAnonymous = false := by
      revert hbranch
      show h.kind.canBranch = true → _
      cases h.kind <;> decide
    simp [opening, hanon, Scope.withSource, Scope.withQualifier, Header.question]

theorem later_isFrom {closes : Closes} {block : Nat} {close : Text}
    (hclose : closes block = some close) {q : Question} {seen : List Text} {b : BranchLine}
    (hadmits : q.Admits seen b) (left : List Text) (branch : Nat) (text : Text) :
    (later q left (closes.source block branch text) b.header?).IsFrom q block branch text
      close := by
  obtain ⟨-, hadmits⟩ := hadmits
  cases hb : b.header? with
  | none => exact
      { source := by simp [later, Closes.source, hclose]
        kind := by simp [later]
        qualifier := fun _ => by simp [later, Scope.withSource, Scope.negationOf] }
  | some h =>
    obtain ⟨hkind, halike, -⟩ := hadmits h (by simp [hb])
    exact
      { source := by simp [later, Closes.source, hclose]
        kind := by
          show (Scope.ofText h.kind h.names).kind = q.kind
          rw [Scope.ofText_kind, hkind]
        qualifier := fun _ => by
          rw [Text.alike?_iff] at halike ⊢
          exact halike.symm }

theorem opening_isElse (h : Header) (source : BlockSource) :
    (opening h source).isElse = false := by
  rw [isElse, opening_leaf_negated, Bool.and_false]

theorem later_isElse (q : Question) (seen : List Text) (source : BlockSource)
    (header? : Option Header) : (later q seen source header?).isElse = header?.isNone := by
  cases header? <;> simp [later, isElse, Scope.withSource, Scope.negationOf]

theorem closeTexts_of_isFrom {q : Question} {block branch : Nat} {header close : Text} {l : Level}
    (h : l.IsFrom q block branch header close) {closing : Closing}
    (hclosing : q.kind.closing? = some closing) : l.closeTexts = [close] := by
  rw [closeTexts, h.kind, hclosing, h.source]
  rfl

theorem not_identical_of_isFrom {q q' : Question} {block branch block' branch' : Nat}
    {header close header' close' : Text} {l k : Level} (hl : l.IsFrom q block branch header close)
    (hk : k.IsFrom q' block' branch' header' close') (h : block ≠ block' ∨ branch ≠ branch') :
    l.identical k = false := Layout.not_identical hl.source hk.source h

end Level

theorem OpenLevel.continuesWith_of_isFrom {q : Question} {block branch branch' : Nat}
    {header close header' close' : Text} {o : OpenLevel} {l : Level}
    (ho : o.level.IsFrom q block branch header close)
    (hl : l.IsFrom q block branch' header' close') (hbranch : q.kind.canBranch = true)
    (helse : o.level.isElse = false) : o.continuesWith l = true := by
  have hqualifier : Text.alike? o.level.leaf.qualifier l.leaf.qualifier = true := by
    have ho := Text.alike?_iff.mp (ho.qualifier hbranch)
    have hl := Text.alike?_iff.mp (hl.qualifier hbranch)
    exact Text.alike?_iff.mpr (ho.trans hl.symm)
  simp [continuesWith, Scope.sameBlock, ho.kind, hl.kind, hqualifier, hbranch, helse, ho.source,
    hl.source]

namespace Layout

/-- The outermost block that is left to be closed was opened before the line `n`. -/
def Fresh (n : Nat) (p : List OpenLevel) : Prop :=
  ∀ o ∈ p.head?, ∃ s, o.level.leaf.source = some s ∧ s.block < n

theorem fresh_nil (n : Nat) : Fresh n [] := by simp [Fresh]

theorem Fresh.mono {n m : Nat} {p : List OpenLevel} (h : Fresh n p) (hle : n ≤ m) : Fresh m p := by
  intro o ho
  obtain ⟨s, hs, hlt⟩ := h o ho
  exact ⟨s, hs, by omega⟩

/-- A new block neither agrees with one that was opened before nor continues it. -/
theorem Fresh.not_continues {n m : Nat} {p : List OpenLevel} (h : Fresh n p) (hle : n ≤ m)
    {q : Question} {branch : Nat} {header close : Text} {l : Level}
    (hl : l.IsFrom q m branch header close) :
    ∀ o ∈ p.head?, o.level.identical l = false ∧ o.continuesWith l = false := by
  intro o ho
  obtain ⟨s, hs, hlt⟩ := h o ho
  have hne : s.block ≠ m := by omega
  refine ⟨not_identical hs hl.source (.inl hne), ?_⟩
  simp [OpenLevel.continuesWith, hs, hl.source, hne]

end Layout

/-! ## Texts of headers -/

@[simp] theorem Closes.source_header (closes : Closes) (block branch : Nat) (header : Text) :
    (closes.source block branch header).header = header := rfl

theorem Layout.indent_text {l : Line} (depth : Nat) (h : l.directive ≠ .none) :
    indent depth l.text = l.written depth := (Line.written_of_header depth h).symm

namespace Level

theorem openingTexts_opening (h : Header) {source : BlockSource} :
    (opening h source).openingTexts = [source.header] := by
  have hguard : (opening h source).guard = none := rfl
  have hsource : (opening h source).leaf.source = some source := rfl
  simp [openingTexts, hguard, opening_leaf_negated, headerText, hsource]

theorem branchText_later (q : Question) (seen : List Text) (source : BlockSource)
    (header? : Option Header) : (later q seen source header?).branchText = source.header := by
  cases header? <;> rfl

/-- The header in front of a branch that opens its block is the made one. -/
theorem openText_negationOf {q : Question} (hbranch : q.kind.canBranch = true) (seen : List Text)
    (fromElse : Bool) (source : BlockSource) :
    openText ((Scope.negationOf q.kind seen fromElse q.qualifier).withSource source) =
      (OpeningLine.made q seen).line.text := by
  obtain ⟨kind, qualifier⟩ := q
  have hnames : ((Scope.negationOf kind seen fromElse qualifier).withSource source).namesText =
      Text.join " | " (Question.listing ⟨kind, qualifier⟩ seen) := rfl
  have hkind : ((Scope.negationOf kind seen fromElse qualifier).withSource source).kind = kind :=
    Scope.negationOf_kind kind seen fromElse qualifier
  have hqualifier :
      ((Scope.negationOf kind seen fromElse qualifier).withSource source).qualifier = qualifier :=
    rfl
  rw [openText, hnames, hkind, hqualifier]
  cases kind with
  | scenario | event | userVariable => rfl
  | _ => cases hbranch

theorem openingTexts_later {q : Question} {b : BranchLine} (seen : List Text)
    (hadmits : q.Admits seen b) (source : BlockSource) :
    (later q seen source b.header?).openingTexts =
      [(OpeningLine.made (b.question q) seen).line.text, source.header] := by
  obtain ⟨hbranch, hadmits⟩ := hadmits
  cases hb : b.header? with
  | none =>
    have hquestion := BranchLine.question_of_none hb q
    have htext := branchText_later q seen source none
    have hneg : (later q seen source none).leaf.negated = true := rfl
    have hguard : (later q seen source none).guard = none := rfl
    rw [openingTexts, hguard, hquestion, ← openText_negationOf hbranch seen true source, htext]
    simp only [hneg, if_true]
    rfl
  | some h =>
    obtain ⟨hkind, -, -⟩ := hadmits h (by simp [hb])
    have hquestion := BranchLine.question_of_some hb q
    have hbranch' : h.question.kind.canBranch = true := by
      show h.kind.canBranch = true
      rw [hkind, hbranch]
    rw [hquestion, ← openText_negationOf hbranch' seen false source]
    rfl

end Level

/-! ## Branches of which nothing is left -/

/-- The entries that are left. -/
def kept (keep : Nat → Bool) (es : List Entry) : List Entry := es.filter fun e => keep e.number

theorem kept_append (keep : Nat → Bool) (a b : List Entry) :
    kept keep (a ++ b) = kept keep a ++ kept keep b := List.filter_append a b

/-- The entries of a branch, with that of its placeholder. -/
def Outline.branchEntries (closes : Closes) (n : Nat) (path : List Level) (body : Outline) :
    List Entry := body.entries closes n path ++ body.placeholder (n + body.size) path

theorem Outline.map_number_branchEntries (closes : Closes) (n : Nat) (path : List Level)
    (body : Outline) :
    (body.branchEntries closes n path).map Entry.number = body.branchNumbers n := by
  rw [branchEntries, List.map_append, Outline.map_number_entries, map_number_placeholder]
  rfl

theorem Outline.kept_branchEntries_eq_nil (keep : Nat → Bool) (closes : Closes) (n : Nat)
    (path : List Level) (body : Outline) :
    kept keep (body.branchEntries closes n path) = [] ↔ body.live keep n = false := by
  rw [live, ← map_number_branchEntries closes n path, kept, List.filter_eq_nil_iff,
    List.any_eq_false]
  simp

theorem Outline.inside_branchEntries (closes : Closes) {body : Outline} (hv : body.Valid) (n : Nat)
    (path : List Level) : ∀ e ∈ body.branchEntries closes n path, e.Inside path := by
  intro e he
  rcases List.mem_append.mp he with he | he
  · exact Outline.inside_entries closes body n path hv e he
  · exact body.inside_placeholder _ path e he

theorem Outline.kept_branchEntries_ne_nil {keep : Nat → Bool} {body : Outline} {n : Nat}
    (hlive : body.live keep n = true) (closes : Closes) (path : List Level) :
    kept keep (body.branchEntries closes n path) ≠ [] := by
  rw [Ne, kept_branchEntries_eq_nil, hlive]
  simp

theorem Outline.prefix_path_of_mem_kept (closes : Closes) {body : Outline} (hv : body.Valid)
    (keep : Nat → Bool) (n : Nat) (path : List Level) :
    ∀ e ∈ kept keep (body.branchEntries closes n path), path <+: e.path := fun e he =>
  (Outline.inside_branchEntries closes hv n path e (List.mem_of_mem_filter he)).isInside

theorem Outline.entries_block (closes : Closes) (n : Nat) (path : List Level) (head : OpeningLine)
    (first : Outline) (more : Branches) (close : ClosingLine) (rest : Outline) :
    (Outline.block head first more close rest).entries closes n path =
      first.branchEntries closes (n + 1)
          (path ++ [.opening head.header (closes.source n n head.line.text)]) ++
        (more.entries closes n head.header.question head.header.nameList (n + 1 + first.size)
            path ++
          rest.entries closes (n + 1 + first.size + more.size + 1) path) := by
  rw [Outline.entries, branchEntries, List.append_assoc]

theorem Branches.entries_branch (closes : Closes) (block : Nat) (q : Question) (seen : List Text)
    (n : Nat) (path : List Level) (head : BranchLine) (body : Outline) (more : Branches) :
    (Branches.branch head body more).entries closes block q seen n path =
      body.branchEntries closes (n + 1)
          (path ++ [.later q seen (closes.source block n head.line.text) head.header?]) ++
        more.entries closes block q (seen ++ head.nameList) (n + 1 + body.size) path := by
  rw [Branches.entries, Outline.branchEntries, List.append_assoc]

/-! ## Writing an outline -/

namespace Layout

/-- The block of the line `block` is open with a branch of which the header stands before the line
`n`, and that branch is no `Else` branch unless `hasElse`. -/
structure Running (q : Question) (block n : Nat) (close : Text) (hasElse : Bool) (o : OpenLevel) :
    Prop where
  isFrom : ∃ branch header, o.level.IsFrom q block branch header close ∧ branch < n
  notElse : hasElse = false → o.level.isElse = false

theorem Running.fresh {q : Question} {block n m : Nat} {close : Text} {hasElse : Bool}
    {o : OpenLevel} (h : Running q block n close hasElse o) (inner : List OpenLevel)
    (hlt : block < m) : Fresh m (o :: inner) := by
  obtain ⟨⟨branch, header, hfrom, -⟩, -⟩ := h
  intro o' ho'
  obtain rfl := Option.mem_some.mp ho'
  exact ⟨_, hfrom.source, hlt⟩

theorem Running.step {q : Question} {block n m : Nat} {close : Text} {hasElse : Bool}
    {o : OpenLevel} (h : Running q block n close false o) (hle : n ≤ m) :
    Running q block m close hasElse o := by
  obtain ⟨⟨branch, header, hfrom, hlt⟩, hnot⟩ := h
  exact ⟨⟨branch, header, hfrom, by omega⟩, fun _ => hnot rfl⟩

theorem running_opening {closes : Closes} {n m : Nat} {close : Text}
    (hclose : closes n = some close) (h : Header) (text : Text) (hlt : n < m) :
    Running h.question n m close false (.ofLevel (.opening h (closes.source n n text))) :=
  ⟨⟨n, text, Level.opening_isFrom hclose h text, hlt⟩, fun _ => Level.opening_isElse _ _⟩

/-- A later branch runs its block, whether the block goes on with it or is opened by it. -/
theorem running_later {closes : Closes} {block m : Nat} {close : Text}
    (hclose : closes block = some close) {q : Question} {seen : List Text} {b : BranchLine}
    (hadmits : q.Admits seen b) (branch : Nat) (text : Text) {o : OpenLevel}
    (ho : o.level = .later q seen (closes.source block branch text) b.header?)
    (hlt : branch < m) : Running q block m close b.header?.isNone o := by
  refine ⟨⟨branch, text, ?_, hlt⟩, fun h => ?_⟩
  · rw [ho]
    exact Level.later_isFrom hclose hadmits seen branch text
  · rw [ho, Level.later_isElse, h]

theorem levels_append_singleton (base : List OpenLevel) (x : OpenLevel) :
    levels (base ++ [x]) = levels base ++ [x.level] := List.map_append

theorem ProperLevels.concat {base : List OpenLevel} (h : ProperLevels base) {x : OpenLevel}
    (hx : x.level.Proper) : ProperLevels (base ++ [x]) := by
  intro o ho
  rcases List.mem_append.mp ho with ho | ho
  · exact h o ho
  · rwa [List.mem_singleton.mp ho]

/-- The body of a branch, once the branch is open. -/
theorem writes_body {keep : Nat → Bool} {closes : Closes} {body : Outline} {n : Nat}
    {base : List OpenLevel} {x : OpenLevel} (hbase : ProperLevels (base ++ [x]))
    (h : ∃ p', Writes (base ++ [x]) [] (closeAll (base ++ [x]).length [])
      (kept keep (body.entries closes n (levels (base ++ [x]))))
      ((body.pruned keep n).text (base ++ [x]).length) p' (closeAll (base ++ [x]).length p')) :
    ∃ p', Writes base [x] [] (kept keep (body.branchEntries closes n (levels base ++ [x.level])))
      ((body.pruned keep n).text (base.length + 1)) (x :: p') (closeAll (base.length + 1) p') := by
  obtain ⟨p', h⟩ := h
  rw [levels_append_singleton, List.length_append, List.length_singleton] at h
  cases body with
  | nil =>
    cases hkeep : keep n with
    | false =>
      refine ⟨[], ?_⟩
      have hnone :
          kept keep (Outline.nil.branchEntries closes n (levels base ++ [x.level])) = [] := by
        simp [kept, Outline.branchEntries, Outline.entries, Outline.placeholder, hkeep]
      rw [hnone]
      exact Writes.nil base [x] []
    | true =>
      refine ⟨[], ?_⟩
      have hone : kept keep (Outline.nil.branchEntries closes n (levels base ++ [x.level])) =
          [⟨n, levels base ++ [x.level], none⟩] := by
        simp [kept, Outline.branchEntries, Outline.entries, Outline.placeholder, hkeep]
      have hentry := Writes.entry hbase []
        (e := ⟨n, levels base ++ [x.level], none⟩) (levels_append_singleton base x).symm
      rw [hone]
      exact hentry.under
  | line l rest =>
    refine ⟨p', ?_⟩
    simpa [Outline.branchEntries, Outline.placeholder, closeAll] using h.under
  | block head first more close rest =>
    refine ⟨p', ?_⟩
    simpa [Outline.branchEntries, Outline.placeholder, closeAll] using h.under

/-- A branch that is left, where it opens its block: the lines that open it and its body. -/
theorem writes_opening_branch {keep : Nat → Bool} {closes : Closes} {body : Outline} {n m : Nat}
    {base p : List OpenLevel} {lv : Level} (hbase : ProperLevels base) (hlv : lv.Proper)
    (hv : body.Valid) (hlive : body.live keep n = true)
    (hp : ∀ o ∈ p.head?, o.level.identical lv = false ∧ o.continuesWith lv = false)
    (h : ∃ p', Writes (base ++ [OpenLevel.ofLevel lv]) []
      (closeAll (base ++ [OpenLevel.ofLevel lv]).length [])
      (kept keep (body.entries closes n (levels (base ++ [OpenLevel.ofLevel lv]))))
      ((body.pruned keep n).text (base ++ [OpenLevel.ofLevel lv]).length) p'
      (closeAll (base ++ [OpenLevel.ofLevel lv]).length p') ∧ Fresh m p') :
    ∃ p', Writes base p (closeAll base.length p)
      (kept keep (body.branchEntries closes n (levels base ++ [lv])))
      (lv.openingTexts.map (indent base.length) ++ (body.pruned keep n).text (base.length + 1))
      (.ofLevel lv :: p') (closeAll (base.length + 1) p') := by
  obtain ⟨p₀, hwrites, -⟩ := h
  obtain ⟨p₁, hbody⟩ := writes_body (hbase.concat hlv) ⟨p₀, hwrites⟩
  exact ⟨p₁, hbody.opening hbase hlv hp (Outline.kept_branchEntries_ne_nil hlive closes _)
    (Outline.prefix_path_of_mem_kept closes hv keep n _)⟩

/-- A branch that is left, where its block is open: the line that begins it and its body. -/
theorem writes_next_branch {keep : Nat → Bool} {closes : Closes} {body : Outline} {n m : Nat}
    {base : List OpenLevel} {lv : Level} (hbase : ProperLevels base) (hlv : lv.Proper)
    (hv : body.Valid) (hlive : body.live keep n = true) {o : OpenLevel} (inner : List OpenLevel)
    (hidentical : o.level.identical lv = false) (hcontinues : o.continuesWith lv = true)
    (h : ∃ p', Writes (base ++ [o.advance lv]) [] (closeAll (base ++ [o.advance lv]).length [])
      (kept keep (body.entries closes n (levels (base ++ [o.advance lv]))))
      ((body.pruned keep n).text (base ++ [o.advance lv]).length) p'
      (closeAll (base ++ [o.advance lv]).length p') ∧ Fresh m p') :
    ∃ p', Writes base (o :: inner) (closeAll (base.length + 1) inner)
      (kept keep (body.branchEntries closes n (levels base ++ [lv])))
      ([indent base.length lv.branchText] ++ (body.pruned keep n).text (base.length + 1))
      (o.advance lv :: p') (closeAll (base.length + 1) p') := by
  obtain ⟨p₀, hwrites, -⟩ := h
  obtain ⟨p₁, hbody⟩ := writes_body (x := o.advance lv) (hbase.concat hlv) ⟨p₀, hwrites⟩
  exact ⟨p₁, hbody.continuing hbase hlv inner hidentical hcontinues
    (Outline.kept_branchEntries_ne_nil hlive closes _)
    (Outline.prefix_path_of_mem_kept closes hv keep n _)⟩

end Layout

/-- The closing lines of some blocks are known. -/
def Closes.Knows (closes : Closes) (l : List (Nat × Text)) : Prop :=
  ∀ b ∈ l, closes b.1 = some b.2

theorem Closes.Knows.append {closes : Closes} {a b : List (Nat × Text)}
    (h : closes.Knows (a ++ b)) : closes.Knows a ∧ closes.Knows b :=
  ⟨fun p hp => h p (List.mem_append_left b hp), fun p hp => h p (List.mem_append_right a hp)⟩

section
open Layout
variable (keep : Nat → Bool) (closes : Closes)

mutual

/-- The entries that are left of an outline are written as the pruned outline is laid out. -/
theorem Outline.writes : ∀ (t : Outline) (n : Nat) {base p : List OpenLevel}, t.Valid →
    closes.Knows (t.closes n) → ProperLevels base → Fresh n p →
    ∃ p', Writes base p (closeAll base.length p) (kept keep (t.entries closes n (levels base)))
      ((t.pruned keep n).text base.length) p' (closeAll base.length p') ∧ Fresh (n + t.size) p'
  | .nil, n, base, p, _, _, _, hfresh => ⟨p, Writes.nil base p _, hfresh.mono (by omega)⟩
  | .line l rest, n, base, p, hv, hknows, hbase, hfresh => by
    rw [Outline.size_line, Outline.entries, Outline.pruned]
    cases hkeep : keep n with
    | false =>
      obtain ⟨p', hwrites, hfresh'⟩ :=
        Outline.writes rest (n + 1) (p := p) hv hknows hbase (hfresh.mono (by omega))
      refine ⟨p', ?_, hfresh'.mono (by omega)⟩
      have hkept : ∀ es, kept keep (⟨n, levels base, some l.line⟩ :: es) = kept keep es := by
        simp [kept, hkeep]
      rw [hkept]
      exact hwrites
    | true =>
      obtain ⟨p', hwrites, hfresh'⟩ :=
        Outline.writes rest (n + 1) (p := []) hv hknows hbase (fresh_nil _)
      refine ⟨p', ?_, hfresh'.mono (by omega)⟩
      have hkept : ∀ es, kept keep (⟨n, levels base, some l.line⟩ :: es) =
          [⟨n, levels base, some l.line⟩] ++ kept keep es := by
        simp [kept, hkeep]
      rw [hkept, if_pos rfl, Outline.text, l.written_cleared]
      exact (Writes.entry hbase p rfl).append hwrites
  | .block head first more close rest, n, base, p, hv, hknows, hbase, hfresh => by
    obtain ⟨hclosing, hfirst, hmore, hrest⟩ := hv
    obtain ⟨hknowsFirst, hknows⟩ := Closes.Knows.append hknows
    obtain ⟨hknowsMore, hknows⟩ := Closes.Knows.append hknows
    have hclose : closes n = some close.line.text := hknows _ List.mem_cons_self
    have hknowsRest : closes.Knows (rest.closes (n + 1 + first.size + more.size + 1)) :=
      fun b hb => hknows b (List.mem_cons_of_mem _ hb)
    have hcloseText : indent base.length close.line.text = close.line.written base.length :=
      indent_text _ close.not_plain
    rw [Outline.entries_block, kept_append, kept_append, Outline.size_block, Outline.pruned]
    cases hlive : first.live keep (n + 1) with
    | true =>
      have hlv := Level.proper_opening (Header.kind_ne_global hclosing)
        (closes.source n n head.line.text)
      have hfrom := Level.opening_isFrom hclose head.header head.line.text
      obtain ⟨p₁, hopening⟩ := writes_opening_branch hbase hlv hfirst hlive
        (hfresh.not_continues le_rfl hfrom) (Outline.writes first (n + 1) (p := []) hfirst
          hknowsFirst (hbase.concat (x := .ofLevel _) hlv) (fresh_nil _))
      obtain ⟨p₂, hbranches, hfresh₂⟩ :=
        Branches.writes more n (n + 1 + first.size) _ _ _ p₁ hmore hknowsMore hclose
          hclosing hbase (running_opening hclose head.header head.line.text (by omega))
      obtain ⟨p₃, hafter, hfresh₃⟩ :=
        Outline.writes rest (n + 1 + first.size + more.size + 1) (p := p₂) hrest hknowsRest hbase
          (hfresh₂.mono (by omega))
      refine ⟨p₃, ?_, hfresh₃.mono (by omega)⟩
      have hall := hopening.append (hbranches.append hafter)
      rw [Level.openingTexts_opening] at hall
      simp only [List.map_cons, List.map_nil, Closes.source_header, indent_text _ head.not_plain,
        hcloseText, List.append_assoc, List.cons_append, List.nil_append] at hall
      simpa [Outline.text] using hall
    | false =>
      have hnone : kept keep (first.branchEntries closes (n + 1) (levels base ++
          [.opening head.header (closes.source n n head.line.text)])) = [] :=
        (first.kept_branchEntries_eq_nil keep closes _ _).mpr hlive
      obtain ⟨p₂, texts, hbranches, hfresh₂, htext⟩ :=
        Branches.reopens more n (n + 1 + first.size) _ _ (p := p) close hmore hknowsMore hclose
          hclosing hbase hfresh (by omega)
      obtain ⟨p₃, hafter, hfresh₃⟩ :=
        Outline.writes rest (n + 1 + first.size + more.size + 1) (p := p₂) hrest hknowsRest hbase
          (hfresh₂.mono (by omega))
      refine ⟨p₃, ?_, hfresh₃.mono (by omega)⟩
      rw [hnone, List.nil_append]
      simp only [Bool.false_eq_true, if_false]
      rw [htext]
      exact hbranches.append hafter

/-- The further branches of an open block. -/
theorem Branches.writes : ∀ (t : Branches) (block n : Nat) (q : Question) (seen : List Text)
    (hasElse : Bool) (inner : List OpenLevel) {base : List OpenLevel} {o : OpenLevel}
    {close : Text} {closing : Closing}, t.Valid q seen hasElse → closes.Knows (t.closes n) →
    closes block = some close → q.kind.closing? = some closing → ProperLevels base →
    Running q block n close hasElse o →
    ∃ p', Writes base (o :: inner) (closeAll (base.length + 1) inner)
      (kept keep (t.entries closes block q seen n (levels base)))
      ((t.pruned keep n).text base.length ++ [indent base.length close]) p'
      (closeAll base.length p') ∧ Fresh (block + 1) p'
  | .nil, block, n, q, seen, hasElse, inner, base, o, close, closing, _, _, _, hclosing, _,
      hrunning => by
    obtain ⟨⟨branch, header, hfrom, -⟩, -⟩ := id hrunning
    refine ⟨o :: inner, ⟨[], fun _ => rfl, ?_⟩, hrunning.fresh inner (by omega)⟩
    rw [closeAll, Level.closeTexts_of_isFrom hfrom hclosing]
    rfl
  | .branch head body more, block, n, q, seen, hasElse, inner, base, o, close, closing, hv, hknows,
      hclose, hclosing, hbase, hrunning => by
    obtain ⟨helse, hadmits, hbody, hmore⟩ := hv
    obtain ⟨hknowsBody, hknowsMore⟩ := Closes.Knows.append hknows
    rw [Branches.entries_branch, kept_append, Branches.pruned]
    cases hlive : body.live keep (n + 1) with
    | true =>
      have hlv := Level.proper_later hadmits seen (closes.source block n head.line.text)
      have hfrom := Level.later_isFrom hclose hadmits seen n head.line.text
      obtain ⟨⟨branch, header, hold, hlt⟩, hnot⟩ := hrunning
      have hidentical := Level.not_identical_of_isFrom hold hfrom (.inr (by omega))
      have hcontinues := OpenLevel.continuesWith_of_isFrom hold hfrom hadmits.1 (hnot helse)
      obtain ⟨p₁, hcontinuing⟩ := writes_next_branch hbase hlv hbody hlive inner hidentical
        hcontinues (Outline.writes body (n + 1) (p := []) hbody hknowsBody
          (hbase.concat (x := o.advance _) hlv) (fresh_nil _))
      obtain ⟨p₂, hbranches, hfresh₂⟩ :=
        Branches.writes more block (n + 1 + body.size) q _ _ p₁ hmore hknowsMore hclose
          hclosing hbase
          (running_later hclose hadmits n head.line.text (o := o.advance _) rfl (by omega))
      refine ⟨p₂, ?_, hfresh₂⟩
      have hall := hcontinuing.append hbranches
      rw [Level.branchText_later] at hall
      simp only [Closes.source_header, indent_text _ head.not_plain, List.cons_append,
        List.nil_append] at hall
      simpa [Branches.text] using hall
    | false =>
      have hnone : kept keep (body.branchEntries closes (n + 1) (levels base ++
          [.later q seen (closes.source block n head.line.text) head.header?])) = [] :=
        (body.kept_branchEntries_eq_nil keep closes _ _).mpr hlive
      obtain ⟨p₂, hbranches, hfresh₂⟩ :=
        Branches.writes more block (n + 1 + body.size) q _ _ inner hmore hknowsMore
          hclose hclosing hbase ((helse ▸ hrunning).step (by omega))
      rw [hnone, List.nil_append]
      exact ⟨p₂, hbranches, hfresh₂⟩

/-- The further branches of a block whose branches so far are gone. -/
theorem Branches.reopens : ∀ (t : Branches) (block n : Nat) (q : Question) (seen : List Text)
    {hasElse : Bool} {base p : List OpenLevel} (close : ClosingLine) {closing : Closing},
    t.Valid q seen hasElse → closes.Knows (t.closes n) → closes block = some close.line.text →
    q.kind.closing? = some closing → ProperLevels base → Fresh block p → block < n →
    ∃ p' texts, Writes base p (closeAll base.length p)
      (kept keep (t.entries closes block q seen n (levels base))) texts p'
      (closeAll base.length p') ∧ Fresh (block + 1) p' ∧
      ∀ after : Outline, (t.reopened keep q seen n close after).text base.length =
        texts ++ after.text base.length
  | .nil, block, n, q, seen, hasElse, base, p, close, closing, _, _, _, _, _, hfresh, _ =>
    ⟨p, [], Writes.nil base p _, hfresh.mono (by omega), fun _ => rfl⟩
  | .branch head body more, block, n, q, seen, hasElse, base, p, close, closing, hv, hknows, hclose,
      hclosing, hbase, hfresh, hlt => by
    obtain ⟨helse, hadmits, hbody, hmore⟩ := hv
    obtain ⟨hknowsBody, hknowsMore⟩ := Closes.Knows.append hknows
    have hcloseText : indent base.length close.line.text = close.line.written base.length :=
      indent_text _ close.not_plain
    rw [Branches.entries_branch, kept_append]
    cases hlive : body.live keep (n + 1) with
    | true =>
      have hlv := Level.proper_later hadmits seen (closes.source block n head.line.text)
      have hfrom := Level.later_isFrom hclose hadmits seen n head.line.text
      obtain ⟨p₁, hopening⟩ := writes_opening_branch hbase hlv hbody hlive
        (hfresh.not_continues le_rfl hfrom) (Outline.writes body (n + 1) (p := []) hbody
          hknowsBody (hbase.concat (x := .ofLevel _) hlv) (fresh_nil _))
      obtain ⟨p₂, hbranches, hfresh₂⟩ :=
        Branches.writes more block (n + 1 + body.size) q _ _ p₁ hmore hknowsMore hclose
          hclosing hbase
          (running_later hclose hadmits n head.line.text (o := .ofLevel _) rfl (by omega))
      have hall := hopening.append hbranches
      rw [Level.openingTexts_later seen hadmits] at hall
      refine ⟨p₂, _, hall, hfresh₂, fun after => ?_⟩
      rw [Branches.reopened, hlive]
      simp [Outline.text, Branches.text, Closes.source_header, indent_text _ head.not_plain,
        hcloseText, indent_text _ (OpeningLine.made (head.question q) seen).not_plain]
    | false =>
      have hnone : kept keep (body.branchEntries closes (n + 1) (levels base ++
          [.later q seen (closes.source block n head.line.text) head.header?])) = [] :=
        (body.kept_branchEntries_eq_nil keep closes _ _).mpr hlive
      obtain ⟨p₂, texts, hbranches, hfresh₂, htext⟩ :=
        Branches.reopens more block (n + 1 + body.size) q (seen ++ head.nameList) (p := p) close
          hmore hknowsMore hclose hclosing hbase hfresh (by omega)
      rw [hnone, List.nil_append]
      refine ⟨p₂, texts, hbranches, hfresh₂, fun after => ?_⟩
      rw [Branches.reopened, hlive]
      simpa using htext after

end

end

end ControlFiles
