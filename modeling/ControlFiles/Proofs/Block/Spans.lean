import ControlFiles.Proofs.ControlFile.WrittenOutline
import ControlFiles.Proofs.Scope

/-!
# Blocks and their branches

The blocks of an outline, those inside others included, each with its branches in order
(`Outline.blocks`). A branch knows what its header lists, what the headers before it list, and the
numbers that its statements have. An earlier branch is one of those that a later branch counts as
earlier (`Outline.pairwise_precedes`), and the statements of a branch stand behind its level
(`Outline.exists_isBranch`).
-/

namespace ControlFiles

/-- A branch of a block. -/
structure BranchSpan where
  /-- The names that the header lists; `Else` has none. -/
  names? : Option (List Text)
  /-- The names that the headers before list; the first branch has none before it. -/
  earlier? : Option (List Text)
  /-- The numbers of its lines of content, blocks inside included; if it holds no line, that of the
  line that ends it, where this is noted. -/
  numbers : List Nat
  deriving DecidableEq

/-- A block. -/
structure Block where
  question : Question
  branches : List BranchSpan
  deriving DecidableEq

/-- The further branches of a block, of which the headers before list the names `seen`; the first of
their lines has the number `n`. -/
def Branches.spans (seen : List Text) (n : Nat) : Branches → List BranchSpan
  | .nil => []
  | .branch head body more =>
    ⟨head.header?.map Header.nameList, some seen, body.branchNumbers (n + 1)⟩ ::
      more.spans (seen ++ head.nameList) (n + 1 + body.size)

mutual

/-- The blocks of an outline whose first line has the number `n`. -/
def Outline.blocks (n : Nat) : Outline → List Block
  | .nil => []
  | .line _ rest => rest.blocks (n + 1)
  | .block head first more _ rest =>
    let next := n + 1 + first.size
    ⟨head.header.question, ⟨some head.header.nameList, none, first.branchNumbers (n + 1)⟩ ::
        more.spans head.header.nameList next⟩ ::
      (first.blocks (n + 1) ++ (more.blocks next ++ rest.blocks (next + more.size + 1)))

/-- The blocks inside some branches. -/
def Branches.blocks (n : Nat) : Branches → List Block
  | .nil => []
  | .branch _ body more => body.blocks (n + 1) ++ more.blocks (n + 1 + body.size)

end

/-! ## Order of branches -/

/-- The second branch counts the names of the first one as earlier ones, behind those that the first
one does. -/
def BranchSpan.Precedes (b b' : BranchSpan) : Prop :=
  ∃ names rest, b.names? = some names ∧ b'.earlier? = some (b.earlier?.getD [] ++ names ++ rest)

theorem Branches.earlier_of_mem_spans : ∀ (t : Branches) (seen : List Text) (n : Nat),
    ∀ b ∈ t.spans seen n, ∃ rest, b.earlier? = some (seen ++ rest)
  | .nil, _, _, _, hb => by cases hb
  | .branch head body more, seen, n, b, hb => by
    rcases List.mem_cons.mp hb with rfl | hb
    · exact ⟨[], by rw [List.append_nil]⟩
    · obtain ⟨rest, hrest⟩ := Branches.earlier_of_mem_spans more _ _ b hb
      exact ⟨head.nameList ++ rest, by rw [hrest, List.append_assoc]⟩

theorem Branches.canBranch_of_mem_spans {t : Branches} {q : Question} {seen : List Text}
    {hasElse : Bool} {n : Nat} {b : BranchSpan} (hv : t.Valid q seen hasElse)
    (hb : b ∈ t.spans seen n) : hasElse = false ∧ q.kind.canBranch = true := by
  cases t with
  | nil => cases hb
  | branch head body more => exact ⟨hv.1, hv.2.1.1⟩

theorem Branches.pairwise_precedes : ∀ (t : Branches) (q : Question) (seen : List Text)
    (hasElse : Bool) (n : Nat), t.Valid q seen hasElse →
      (t.spans seen n).Pairwise BranchSpan.Precedes
  | .nil, _, _, _, _, _ => .nil
  | .branch head body more, q, seen, hasElse, n, hv => by
    obtain ⟨-, -, -, hmore⟩ := hv
    refine List.pairwise_cons.mpr ⟨fun b hb => ?_, Branches.pairwise_precedes more q _ _ _ hmore⟩
    obtain ⟨header, hheader⟩ : ∃ header, head.header? = some header := by
      rw [← Option.isSome_iff_exists, ← Option.isNone_eq_false_iff]
      exact (Branches.canBranch_of_mem_spans hmore hb).1
    obtain ⟨rest, hrest⟩ := Branches.earlier_of_mem_spans more _ _ b hb
    refine ⟨header.nameList, rest, by rw [hheader]; rfl, ?_⟩
    rw [hrest, BranchLine.nameList, hheader]
    rfl

mutual

/-- Of two branches of a block, the one that comes first precedes the other. -/
theorem Outline.pairwise_precedes : ∀ (t : Outline) (n : Nat), t.Valid → ∀ k ∈ t.blocks n,
    k.branches.Pairwise BranchSpan.Precedes
  | .nil, _, _, _, hk => by cases hk
  | .line _ rest, n, hv, k, hk => Outline.pairwise_precedes rest (n + 1) hv k hk
  | .block head first more close rest, n, hv, k, hk => by
    obtain ⟨-, hfirst, hmore, hrest⟩ := hv
    simp only [Outline.blocks, List.mem_cons, List.mem_append] at hk
    rcases hk with rfl | hk | hk | hk
    · refine List.pairwise_cons.mpr ⟨fun b hb => ?_, Branches.pairwise_precedes more _ _ _ _ hmore⟩
      obtain ⟨names, hnames⟩ := Branches.earlier_of_mem_spans more _ _ b hb
      exact ⟨head.header.nameList, names, rfl, hnames⟩
    · exact Outline.pairwise_precedes first _ hfirst k hk
    · exact Branches.pairwise_precedes_blocks more _ _ _ _ hmore k hk
    · exact Outline.pairwise_precedes rest _ hrest k hk

theorem Branches.pairwise_precedes_blocks : ∀ (t : Branches) (q : Question) (seen : List Text)
    (hasElse : Bool) (n : Nat), t.Valid q seen hasElse → ∀ k ∈ t.blocks n,
      k.branches.Pairwise BranchSpan.Precedes
  | .nil, _, _, _, _, _, _, hk => by cases hk
  | .branch head body more, q, seen, hasElse, n, hv, k, hk => by
    obtain ⟨-, -, hbody, hmore⟩ := hv
    simp only [Branches.blocks, List.mem_append] at hk
    rcases hk with hk | hk
    · exact Outline.pairwise_precedes body _ hbody k hk
    · exact Branches.pairwise_precedes_blocks more _ _ _ _ hmore k hk

end

/-! ## Levels of branches -/

/-- The level is that of a branch of a block with a question. -/
structure Level.IsBranch (q : Question) (b : BranchSpan) (l : Level) : Prop where
  /-- The header asks for one of its names. -/
  condition : ∀ names ∈ b.names?, ∃ (h : Header) (source : BlockSource),
    h.kind = q.kind ∧ Text.alike? q.qualifier h.qualifier = true ∧ h.nameList = names ∧
      (q.kind.canBranch = true →
        l.leaf = ((Scope.ofText h.kind h.names).withQualifier h.qualifier).withSource source)
  /-- The names that the headers before list are excluded. -/
  exclusion : ∀ seen ∈ b.earlier?, ∃ (qualifier : Option Text) (fromElse : Bool)
    (source : BlockSource), Text.alike? q.qualifier qualifier = true ∧
      (Scope.negationOf q.kind seen fromElse qualifier).withSource source ∈ l.scopes ∧
      q.kind.canBranch = true ∧ ∀ name ∈ seen, Text.IsName name

theorem Level.isBranch_opening (h : Header) (source : BlockSource) (numbers : List Nat) :
    (opening h source).IsBranch h.question ⟨some h.nameList, none, numbers⟩ where
  condition names hnames := by
    obtain rfl := Option.some.inj hnames
    refine ⟨h, source, rfl, Text.alike?_refl _, rfl, fun hbranch => ?_⟩
    have hanon : h.kind.isAnonymous = false := ScopeKind.isAnonymous_of_canBranch hbranch
    rw [opening, hanon]
    rfl
  exclusion _ hseen := nomatch hseen

theorem Level.isBranch_later {q : Question} {seen : List Text} {b : BranchLine}
    (hadmits : q.Admits seen b) (hnames : ∀ name ∈ seen, Text.IsName name) (source : BlockSource)
    (numbers : List Nat) : (later q seen source b.header?).IsBranch q
      ⟨b.header?.map Header.nameList, some seen, numbers⟩ where
  condition names hmem := by
    obtain ⟨h, hh, rfl⟩ := Option.map_eq_some_iff.mp hmem
    obtain ⟨hkind, halike, -⟩ := hadmits.2 h hh
    exact ⟨h, source, hkind, halike, rfl, fun _ => by rw [hh]; rfl⟩
  exclusion seen' hseen := by
    obtain rfl := Option.some.inj hseen
    cases hb : b.header? with
    | none =>
      exact ⟨q.qualifier, true, source, Text.alike?_refl _, List.mem_singleton.mpr rfl, hadmits.1,
        hnames⟩
    | some h =>
      obtain ⟨hkind, halike, -⟩ := hadmits.2 h hb
      exact ⟨h.qualifier, false, source, halike, by simp [later, scopes, hkind], hadmits.1, hnames⟩

/-! ## Statements of branches -/

section
variable (closes : Closes)

/-- A number of a branch is that of an entry behind its level. -/
theorem Outline.exists_of_mem_branchNumbers {body : Outline} (hv : body.Valid) {n : Nat}
    (path : List Level) (l : Level) {i : Nat} (hi : i ∈ body.branchNumbers n) :
    ∃ e ∈ body.branchEntries closes n (path ++ [l]), e.number = i ∧ l ∈ e.path := by
  rw [← Outline.map_number_branchEntries closes n (path ++ [l])] at hi
  obtain ⟨e, he, rfl⟩ := List.mem_map.mp hi
  have hinside := (Outline.inside_branchEntries closes hv n (path ++ [l]) e he).isInside
  exact ⟨e, he, rfl, hinside.subset (by simp)⟩

theorem Branches.exists_isBranch_of_mem_spans : ∀ (t : Branches) (block : Nat) (q : Question)
    (seen : List Text) (hasElse : Bool) (n : Nat) (path : List Level), t.Valid q seen hasElse →
      (∀ name ∈ seen, Text.IsName name) → ∀ b ∈ t.spans seen n, ∀ i ∈ b.numbers,
        ∃ e ∈ t.entries closes block q seen n path, e.number = i ∧ ∃ l ∈ e.path, l.IsBranch q b
  | .nil, _, _, _, _, _, _, _, _, _, hb, _, _ => by cases hb
  | .branch head body more, block, q, seen, hasElse, n, path, hv, hnames, b, hb, i, hi => by
    obtain ⟨-, hadmits, hbody, hmore⟩ := hv
    rw [Branches.entries_branch]
    rcases List.mem_cons.mp hb with rfl | hb
    · obtain ⟨e, he, hnumber, hl⟩ := Outline.exists_of_mem_branchNumbers closes hbody path
        (.later q seen (closes.source block n head.line.text) head.header?) hi
      exact ⟨e, List.mem_append_left _ he, hnumber, _, hl,
        Level.isBranch_later hadmits hnames _ _⟩
    · obtain ⟨e, he, hlevel⟩ := Branches.exists_isBranch_of_mem_spans more block q _ _ _ path hmore
        (fun name hname => (List.mem_append.mp hname).elim (hnames name)
          (head.isName_of_mem name)) b hb i hi
      exact ⟨e, List.mem_append_right _ he, hlevel⟩

mutual

/-- A number of a branch of a block is that of an entry behind the level of the branch. -/
theorem Outline.exists_isBranch : ∀ (t : Outline) (n : Nat) (path : List Level), t.Valid →
    ∀ k ∈ t.blocks n, ∀ b ∈ k.branches, ∀ i ∈ b.numbers,
      ∃ e ∈ t.entries closes n path, e.number = i ∧ ∃ l ∈ e.path, l.IsBranch k.question b
  | .nil, _, _, _, _, hk, _, _, _, _ => by cases hk
  | .line _ rest, n, path, hv, k, hk, b, hb, i, hi => by
    obtain ⟨e, he, hlevel⟩ := Outline.exists_isBranch rest (n + 1) path hv k hk b hb i hi
    exact ⟨e, List.mem_cons_of_mem _ he, hlevel⟩
  | .block head first more close rest, n, path, hv, k, hk, b, hb, i, hi => by
    obtain ⟨-, hfirst, hmore, hrest⟩ := hv
    rw [Outline.entries_block]
    simp only [Outline.blocks, List.mem_cons, List.mem_append] at hk
    rcases hk with rfl | hk | hk | hk
    · rcases List.mem_cons.mp hb with rfl | hb
      · obtain ⟨e, he, hnumber, hl⟩ := Outline.exists_of_mem_branchNumbers closes hfirst path
          (.opening head.header (closes.source n n head.line.text)) hi
        exact ⟨e, List.mem_append_left _ he, hnumber, _, hl, Level.isBranch_opening _ _ _⟩
      · obtain ⟨e, he, hlevel⟩ := Branches.exists_isBranch_of_mem_spans closes more n _ _ _ _ path
          hmore (fun _ => Text.isName_of_mem_alternatives) b hb i hi
        exact ⟨e, List.mem_append_right _ (List.mem_append_left _ he), hlevel⟩
    · obtain ⟨e, he, hlevel⟩ := Outline.exists_isBranch first _
        (path ++ [.opening head.header (closes.source n n head.line.text)]) hfirst k hk b hb i hi
      exact ⟨e, List.mem_append_left _ (List.mem_append_left _ he), hlevel⟩
    · obtain ⟨e, he, hlevel⟩ := Branches.exists_isBranch more n head.header.question _ _ _ path
        hmore k hk b hb i hi
      exact ⟨e, List.mem_append_right _ (List.mem_append_left _ he), hlevel⟩
    · obtain ⟨e, he, hlevel⟩ := Outline.exists_isBranch rest _ path hrest k hk b hb i hi
      exact ⟨e, List.mem_append_right _ (List.mem_append_right _ he), hlevel⟩

theorem Branches.exists_isBranch : ∀ (t : Branches) (block : Nat) (q : Question)
    (seen : List Text) (hasElse : Bool) (n : Nat) (path : List Level), t.Valid q seen hasElse →
      ∀ k ∈ t.blocks n, ∀ b ∈ k.branches, ∀ i ∈ b.numbers,
        ∃ e ∈ t.entries closes block q seen n path,
          e.number = i ∧ ∃ l ∈ e.path, l.IsBranch k.question b
  | .nil, _, _, _, _, _, _, _, _, hk, _, _, _, _ => by cases hk
  | .branch head body more, block, q, seen, hasElse, n, path, hv, k, hk, b, hb, i, hi => by
    obtain ⟨-, -, hbody, hmore⟩ := hv
    rw [Branches.entries_branch]
    simp only [Branches.blocks, List.mem_append] at hk
    rcases hk with hk | hk
    · obtain ⟨e, he, hlevel⟩ := Outline.exists_isBranch body _
        (path ++ [.later q seen (closes.source block n head.line.text) head.header?]) hbody k hk b
        hb i hi
      exact ⟨e, List.mem_append_left _ (List.mem_append_left _ he), hlevel⟩
    · obtain ⟨e, he, hlevel⟩ := Branches.exists_isBranch more block q _ _ _ path hmore k hk b hb i
        hi
      exact ⟨e, List.mem_append_right _ he, hlevel⟩

end

end

end ControlFiles
