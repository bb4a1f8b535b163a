import ControlFiles.ControlFile.Read
import ControlFiles.ControlFile.Write
import ControlFiles.Proofs.Text.Parts

/-!
# The outline of a text

The lines of a text that is read without a fault form a tree: a body is made of statement lines and
blocks, a block of its opening header, the body of its first branch, further branches, each behind
a header of its own, and the line that closes it. `Outline.lines` gives the lines back, and
`Outline.Valid` is the grammar: which headers and closing lines may stand in which block.

`Outline.entries` says what the lines of an outline add to the statements, without a stack: every
line of content and every empty branch makes one entry, and its scopes are those of the branches
around it, a `Level` for each.
-/

namespace ControlFiles

/-- A line that is no block structure. -/
structure ContentLine where
  line : Line
  plain : line.directive = .none

/-- A line that opens a block. -/
structure OpeningLine where
  line : Line
  header : Header
  opens : line.directive = .opening header

/-- A line that begins another branch: `Else If` with a header, `Else` without. -/
structure BranchLine where
  line : Line
  header? : Option Header
  branches : line.directive = (header?.map Directive.elseIf).getD .otherwise

/-- A line that closes a block. -/
structure ClosingLine where
  line : Line
  closing : Closing
  closes : line.directive = .close closing

/-- The header of a line that opens a block or begins a branch. -/
def Directive.header? : Directive → Option Header
  | .opening h | .elseIf h => some h
  | _ => Option.none

theorem OpeningLine.directive_header? (l : OpeningLine) :
    l.line.directive.header? = some l.header := by rw [l.opens]; rfl

theorem BranchLine.directive_header? (l : BranchLine) : l.line.directive.header? = l.header? := by
  rw [l.branches]
  cases l.header? <;> rfl

mutual

/-- Lines in which every block is opened and closed. -/
inductive Outline where
  | nil
  | line (l : ContentLine) (rest : Outline)
  | block (head : OpeningLine) (first : Outline) (more : Branches) (close : ClosingLine)
      (rest : Outline)

/-- The branches of a block behind the first one. -/
inductive Branches where
  | nil
  | branch (head : BranchLine) (body : Outline) (more : Branches)

end

/-! ## Lines -/

mutual

/-- The lines of an outline in order. -/
def Outline.lines : Outline → List Line
  | .nil => []
  | .line l rest => l.line :: rest.lines
  | .block head first more close rest =>
    head.line :: (first.lines ++ (more.lines ++ close.line :: rest.lines))

/-- The lines of some branches in order. -/
def Branches.lines : Branches → List Line
  | .nil => []
  | .branch head body more => head.line :: (body.lines ++ more.lines)

end

namespace Outline

/-- The number of lines. -/
def size (t : Outline) : Nat := t.lines.length

/-- There is no line. -/
def isNil : Outline → Bool
  | nil => true
  | _ => false

@[simp] theorem isNil_nil : nil.isNil = true := rfl

@[simp] theorem isNil_line (l : ContentLine) (rest : Outline) : (line l rest).isNil = false := rfl

@[simp] theorem isNil_block (head : OpeningLine) (first : Outline) (more : Branches)
    (close : ClosingLine) (rest : Outline) : (block head first more close rest).isNil = false := rfl

@[simp] theorem size_nil : nil.size = 0 := rfl

@[simp] theorem size_line (l : ContentLine) (rest : Outline) :
    (line l rest).size = rest.size + 1 := by
  simp only [size, lines, List.length_cons]

end Outline

/-- The number of lines. -/
def Branches.size (t : Branches) : Nat := t.lines.length

@[simp] theorem Branches.size_nil : Branches.nil.size = 0 := rfl

@[simp] theorem Branches.size_branch (head : BranchLine) (body : Outline) (more : Branches) :
    (Branches.branch head body more).size = body.size + more.size + 1 := by
  simp only [size, Outline.size, lines, List.length_cons, List.length_append]

@[simp] theorem Outline.size_block (head : OpeningLine) (first : Outline) (more : Branches)
    (close : ClosingLine) (rest : Outline) :
    (Outline.block head first more close rest).size =
      first.size + more.size + rest.size + 2 := by
  simp only [size, Branches.size, lines, List.length_cons, List.length_append]
  omega

/-! ## Uniqueness

An outline is told by its lines: what a block holds ends at the first line that begins a branch or
closes a block and is in no block inside. -/

/-- The lines do not go on with the body they stand behind. -/
def EndsBody (ls : List Line) : Prop :=
  ∀ l ∈ ls.head?, l.directive ≠ .none ∧ ∀ h, l.directive ≠ .opening h

/-- The lines do not go on with the branches they stand behind. -/
def EndsBranches (ls : List Line) : Prop :=
  ∀ l ∈ ls.head?, ∀ b : BranchLine, l ≠ b.line

theorem ContentLine.ext {a b : ContentLine} (h : a.line = b.line) : a = b := by
  cases a
  cases b
  cases h
  rfl

theorem OpeningLine.ext {a b : OpeningLine} (h : a.line = b.line) : a = b := by
  obtain ⟨l, header, hl⟩ := a
  obtain ⟨l', header', hl'⟩ := b
  obtain rfl : l = l' := h
  obtain rfl : header = header' := by simpa [hl] using hl'
  rfl

theorem BranchLine.ext {a b : BranchLine} (h : a.line = b.line) : a = b := by
  obtain ⟨l, header, hl⟩ := a
  obtain ⟨l', header', hl'⟩ := b
  obtain rfl : l = l' := h
  obtain rfl : header = header' := by
    cases header <;> cases header' <;> simp_all
  rfl

theorem ClosingLine.ext {a b : ClosingLine} (h : a.line = b.line) : a = b := by
  obtain ⟨l, closing, hl⟩ := a
  obtain ⟨l', closing', hl'⟩ := b
  obtain rfl : l = l' := h
  obtain rfl : closing = closing' := by simpa [hl] using hl'
  rfl

theorem BranchLine.endsBody (b : BranchLine) (ls : List Line) : EndsBody (b.line :: ls) := by
  intro l hl
  obtain rfl : b.line = l := by simpa using hl
  rw [b.branches]
  cases b.header? <;> simp

theorem ClosingLine.endsBody (k : ClosingLine) (ls : List Line) : EndsBody (k.line :: ls) := by
  intro l hl
  obtain rfl : k.line = l := by simpa using hl
  simp [k.closes]

theorem ClosingLine.endsBranches (k : ClosingLine) (ls : List Line) :
    EndsBranches (k.line :: ls) := by
  intro l hl b hb
  obtain rfl : k.line = l := by simpa using hl
  have hbranch := b.branches
  rw [← hb, k.closes] at hbranch
  cases hh : b.header? <;> simp [hh] at hbranch

theorem Branches.endsBody_lines (t : Branches) {ls : List Line} (h : EndsBody ls) :
    EndsBody (t.lines ++ ls) := by
  cases t with
  | nil => exact h
  | branch head body more => exact head.endsBody _

theorem ContentLine.not_endsBody (l : ContentLine) {ls a : List Line} (h : a = l.line :: ls) :
    ¬ EndsBody a := fun ha => (ha l.line (by simp [h])).1 l.plain

theorem OpeningLine.not_endsBody (l : OpeningLine) {ls a : List Line} (h : a = l.line :: ls) :
    ¬ EndsBody a := fun ha => (ha l.line (by simp [h])).2 l.header l.opens

theorem BranchLine.not_endsBranches (l : BranchLine) {ls a : List Line} (h : a = l.line :: ls) :
    ¬ EndsBranches a := fun ha => ha l.line (by simp [h]) l rfl

theorem ContentLine.ne_opening (l : ContentLine) (l' : OpeningLine) : l.line ≠ l'.line := by
  intro h
  have hplain := l.plain
  rw [h, l'.opens] at hplain
  cases hplain

mutual

/-- Lines are the lines of an outline in one way only. -/
theorem Outline.lines_append_inj : ∀ (t t' : Outline) {a b : List Line}, EndsBody a → EndsBody b →
    t.lines ++ a = t'.lines ++ b → t = t' ∧ a = b
  | .nil, .nil, _, _, _, _, h => ⟨rfl, h⟩
  | .nil, .line l rest, _, _, ha, _, h => absurd ha (l.not_endsBody h)
  | .nil, .block head first more close rest, _, _, ha, _, h => absurd ha (head.not_endsBody h)
  | .line l rest, .nil, _, _, _, hb, h => absurd hb (l.not_endsBody h.symm)
  | .block head first more close rest, .nil, _, _, _, hb, h =>
    absurd hb (head.not_endsBody h.symm)
  | .line l rest, .block head first more close rest', _, _, _, _, h =>
    absurd (List.cons.inj h).1 (l.ne_opening head)
  | .block head first more close rest', .line l rest, _, _, _, _, h =>
    absurd (List.cons.inj h).1.symm (l.ne_opening head)
  | .line l rest, .line l' rest', _, _, ha, hb, h => by
    obtain ⟨hl, hrest⟩ := List.cons.inj h
    obtain ⟨rfl, rfl⟩ := Outline.lines_append_inj rest rest' ha hb hrest
    exact ⟨by rw [ContentLine.ext hl], rfl⟩
  | .block head first more close rest, .block head' first' more' close' rest', a, b, ha, hb, h => by
    simp only [Outline.lines, List.cons_append, List.append_assoc] at h
    obtain ⟨hhead, hfirst⟩ := List.cons.inj h
    obtain ⟨rfl, hmore⟩ := Outline.lines_append_inj first first'
      (more.endsBody_lines (close.endsBody _)) (more'.endsBody_lines (close'.endsBody _)) hfirst
    obtain ⟨rfl, hend⟩ := Branches.lines_append_inj more more' (close.endsBody _)
      (close'.endsBody _) (close.endsBranches _) (close'.endsBranches _) hmore
    obtain ⟨hclose, hrest⟩ := List.cons.inj hend
    obtain ⟨rfl, rfl⟩ := Outline.lines_append_inj rest rest' ha hb hrest
    exact ⟨by rw [OpeningLine.ext hhead, ClosingLine.ext hclose], rfl⟩

theorem Branches.lines_append_inj : ∀ (t t' : Branches) {a b : List Line}, EndsBody a → EndsBody b →
    EndsBranches a → EndsBranches b → t.lines ++ a = t'.lines ++ b → t = t' ∧ a = b
  | .nil, .nil, _, _, _, _, _, _, h => ⟨rfl, h⟩
  | .nil, .branch head body more, _, _, _, _, ha, _, h => absurd ha (head.not_endsBranches h)
  | .branch head body more, .nil, _, _, _, _, _, hb, h =>
    absurd hb (head.not_endsBranches h.symm)
  | .branch head body more, .branch head' body' more', _, _, ha, hb, ha', hb', h => by
    simp only [Branches.lines, List.cons_append, List.append_assoc] at h
    obtain ⟨hhead, hbody⟩ := List.cons.inj h
    obtain ⟨rfl, hmore⟩ := Outline.lines_append_inj body body' (more.endsBody_lines ha)
      (more'.endsBody_lines hb) hbody
    obtain ⟨rfl, rfl⟩ := Branches.lines_append_inj more more' ha hb ha' hb' hmore
    exact ⟨by rw [BranchLine.ext hhead], rfl⟩

end

theorem Outline.lines_injective {t t' : Outline} (h : t.lines = t'.lines) : t = t' :=
  (lines_append_inj t t' (a := []) (b := []) nofun nofun (by rw [h])).1

/-! ## Lines of content -/

/-- The lines of content among some lines, with their numbers; the first line has the number `n`. -/
def contents (n : Nat) (ls : List Line) : List (Line × Nat) :=
  (ls.zipIdx n).filter fun p => p.1.directive = .none

theorem contents_append (n : Nat) (a b : List Line) :
    contents n (a ++ b) = contents n a ++ contents (n + a.length) b := by
  rw [contents, List.zipIdx_append, List.filter_append]
  rfl

theorem contents_cons_of_plain {l : Line} (n : Nat) (ls : List Line) (h : l.directive = .none) :
    contents n (l :: ls) = (l, n) :: contents (n + 1) ls := by
  simp [contents, h]

theorem contents_cons_of_header {l : Line} (n : Nat) (ls : List Line) (h : l.directive ≠ .none) :
    contents n (l :: ls) = contents (n + 1) ls := by
  simp [contents, h]

theorem OpeningLine.not_plain (l : OpeningLine) : l.line.directive ≠ .none := by simp [l.opens]

theorem BranchLine.not_plain (l : BranchLine) : l.line.directive ≠ .none := by
  rw [l.branches]
  cases l.header? <;> simp

theorem ClosingLine.not_plain (l : ClosingLine) : l.line.directive ≠ .none := by simp [l.closes]

/-! ## Grammar -/

/-- What the branches of a block ask about: an axis, or the variable that the qualifier names. -/
structure Question where
  kind : ScopeKind
  qualifier : Option Text
  deriving DecidableEq, Repr

namespace Header

/-- What the header asks about. -/
def question (h : Header) : Question := ⟨h.kind, h.qualifier⟩

/-- The names that the header lists. -/
def nameList (h : Header) : List Text := Text.alternatives h.names

end Header

/-- The names that a branch uses; `Else` uses none. -/
def BranchLine.nameList (b : BranchLine) : List Text := (b.header?.map Header.nameList).getD []

theorem BranchLine.mem_nameList {b : BranchLine} {name : Text} (h : name ∈ b.nameList) :
    ∃ header ∈ b.header?, name ∈ header.nameList := by
  rw [nameList] at h
  cases hb : b.header? with
  | none =>
    rw [hb] at h
    cases h
  | some header =>
    rw [hb] at h
    exact ⟨header, rfl, h⟩

theorem BranchLine.isName_of_mem (l : BranchLine) : ∀ name ∈ l.nameList, Text.IsName name := by
  intro name hname
  obtain ⟨header, -, hname⟩ := l.mem_nameList hname
  exact Text.isName_of_mem_alternatives hname

/-- The line can begin the next branch of a block of which the earlier branches have used the names
`seen`: an `Else If` asks the same question, and for new names. -/
def Question.Admits (q : Question) (seen : List Text) (line : BranchLine) : Prop :=
  q.kind.canBranch = true ∧ ∀ h ∈ line.header?,
    h.kind = q.kind ∧ Text.alike? q.qualifier h.qualifier = true ∧
      ∀ name ∈ h.nameList, Text.listed seen name = false

mutual

/-- The outline is a text of the block grammar. -/
def Outline.Valid : Outline → Prop
  | .nil => True
  | .line _ rest => rest.Valid
  | .block head first more close rest =>
    head.header.kind.closing? = some close.closing ∧ first.Valid ∧
      more.Valid head.header.question head.header.nameList false ∧ rest.Valid

/-- The branches can follow in a block, of which earlier branches have used the names `seen`; behind
`Else` there is none. -/
def Branches.Valid (q : Question) (seen : List Text) (hasElse : Bool) : Branches → Prop
  | .nil => True
  | .branch head body more =>
    hasElse = false ∧ q.Admits seen head ∧ body.Valid ∧
      more.Valid q (seen ++ head.nameList) head.header?.isNone

end

/-! ## Entries -/

namespace Level

/-- The scopes of a level: those of a branch that is being read. -/
def scopes (l : Level) : List Scope := l.guard.toList ++ [l.leaf]

/-- The scope list inside some levels. -/
def scopeList (path : List Level) : ScopeList := Scope.global :: path.flatMap scopes

/-- The first branch of a block. -/
def opening (h : Header) (source : BlockSource) : Level :=
  let scope :=
    if h.kind.isAnonymous then Scope.ofNames h.kind []
    else (Scope.ofText h.kind h.names).withQualifier h.qualifier
  ⟨none, scope.withSource source⟩

/-- A later branch of a block, of which earlier branches have used the names `seen`. -/
def later (q : Question) (seen : List Text) (source : BlockSource) : Option Header → Level
  | some h =>
    ⟨some ((Scope.negationOf h.kind seen false h.qualifier).withSource source),
      ((Scope.ofText h.kind h.names).withQualifier h.qualifier).withSource source⟩
  | none => ⟨none, (Scope.negationOf q.kind seen true q.qualifier).withSource source⟩

end Level

/-- The closing lines, as far as they are known, by the number of the line that opens the block. -/
abbrev Closes := Nat → Option Text

/-- What a line adds to the statements: a statement of content, or without a line the placeholder of
an empty branch. -/
structure Entry where
  number : Nat
  path : List Level
  line? : Option Line
  deriving DecidableEq, Repr

namespace Entry

/-- The text by which equal statements are counted. -/
def text (e : Entry) : Text := (e.line?.map Line.text).getD []

/-- The scopes of the statement. -/
def scope (e : Entry) : ScopeList := Level.scopeList e.path

/-- The statement, of which there are `ordinal` equal ones before. -/
def statement (o : ReadOptions) (e : Entry) (ordinal : Nat) : Statement :=
  match e.line? with
  | some l => Statement.ofLine (.compute o.idFile l.text ordinal) l e.scope o.file e.number
  | none => Statement.placeholder o.idFile e.scope o.file e.number ordinal

end Entry

/-- The placeholder of a branch that holds no line; the line `n` ends the branch. -/
def Outline.placeholder (n : Nat) (path : List Level) (t : Outline) : List Entry :=
  if t.isNil then [⟨n, path, none⟩] else []

/-- Where a branch is read from. -/
def Closes.source (closes : Closes) (block branch : Nat) (header : Text) : BlockSource :=
  ⟨block, branch, header, closes block⟩

mutual

/-- The entries of an outline inside some levels; its first line has the number `n`. -/
def Outline.entries (closes : Closes) (n : Nat) (path : List Level) : Outline → List Entry
  | .nil => []
  | .line l rest => ⟨n, path, some l.line⟩ :: rest.entries closes (n + 1) path
  | .block head first more _ rest =>
    let inner := path ++ [.opening head.header (closes.source n n head.line.text)]
    let next := n + 1 + first.size
    first.entries closes (n + 1) inner ++ (first.placeholder next inner ++
      (more.entries closes n head.header.question head.header.nameList next path ++
        rest.entries closes (next + more.size + 1) path))

/-- The entries of the further branches of the block that the line `block` opens. -/
def Branches.entries (closes : Closes) (block : Nat) (q : Question) (seen : List Text) (n : Nat)
    (path : List Level) : Branches → List Entry
  | .nil => []
  | .branch head body more =>
    let inner := path ++ [.later q seen (closes.source block n head.line.text) head.header?]
    let next := n + 1 + body.size
    body.entries closes (n + 1) inner ++ (body.placeholder next inner ++
      more.entries closes block q (seen ++ head.nameList) next path)

end

/-- The line of an entry of content, with its number. -/
def Entry.content? (e : Entry) : Option (Line × Nat) := e.line?.map fun l => (l, e.number)

theorem Outline.filterMap_content_placeholder (n : Nat) (path : List Level) (t : Outline) :
    (t.placeholder n path).filterMap Entry.content? = [] := by
  rw [placeholder]
  split <;> rfl

mutual

/-- The entries of content are those of the lines of content. -/
theorem Outline.filterMap_content_entries (closes : Closes) : ∀ (t : Outline) (n : Nat)
    (path : List Level),
      (t.entries closes n path).filterMap Entry.content? = contents n t.lines
  | .nil, _, _ => rfl
  | .line l rest, n, path => by
    rw [Outline.lines, contents_cons_of_plain n _ l.plain,
      ← Outline.filterMap_content_entries closes rest (n + 1) path]
    rfl
  | .block head first more close rest, n, path => by
    simp only [Outline.entries, List.filterMap_append,
      Outline.filterMap_content_entries closes first, Outline.filterMap_content_placeholder,
      Branches.filterMap_content_entries closes more,
      Outline.filterMap_content_entries closes rest, Outline.lines,
      contents_cons_of_header _ _ head.not_plain, contents_append,
      contents_cons_of_header _ _ close.not_plain, List.nil_append]
    rfl

theorem Branches.filterMap_content_entries (closes : Closes) : ∀ (t : Branches) (block : Nat)
    (q : Question) (seen : List Text) (n : Nat) (path : List Level),
      (t.entries closes block q seen n path).filterMap Entry.content? = contents n t.lines
  | .nil, _, _, _, _, _ => rfl
  | .branch head body more, block, q, seen, n, path => by
    simp only [Branches.entries, List.filterMap_append,
      Outline.filterMap_content_entries closes body, Outline.filterMap_content_placeholder,
      Branches.filterMap_content_entries closes more, Branches.lines,
      contents_cons_of_header _ _ head.not_plain, contents_append, List.nil_append]
    rfl

end

mutual

/-- The blocks of an outline by their opening lines, with the lines that close them. -/
def Outline.closes (n : Nat) : Outline → List (Nat × Text)
  | .nil => []
  | .line _ rest => rest.closes (n + 1)
  | .block _ first more close rest =>
    let next := n + 1 + first.size
    first.closes (n + 1) ++ (more.closes next ++
      (n, close.line.text) :: rest.closes (next + more.size + 1))

/-- The blocks inside some branches, with the lines that close them. -/
def Branches.closes (n : Nat) : Branches → List (Nat × Text)
  | .nil => []
  | .branch _ body more => body.closes (n + 1) ++ more.closes (n + 1 + body.size)

end

end ControlFiles
