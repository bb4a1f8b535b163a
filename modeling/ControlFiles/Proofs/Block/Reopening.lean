import ControlFiles.Proofs.Block.Headers

/-!
# What is left of a text is a text

The pruned outline of a text is a text that is read again as it stands, unless a header made for
the branches that are gone is at fault: it lists no name, because its scope has none, or it lists a
name that a branch of its block uses, because a token among the names is spelled out.
`Outline.reopenable` asks for this header by header, and `Outline.reopenable_iff` says that it asks
for no more and no less.
-/

namespace ControlFiles

/-! ## Lines of a text -/

/-- The line can be written and read again. -/
structure Line.Sound (l : Line) : Prop where
  isLine : Text.IsLine l.text
  returns : l.cleared.reread = l.cleared
  header : ∀ h ∈ l.directive.header?, h.kind.canBranch = true →
    h.question.Readable ∧ ∀ name ∈ h.nameList, name.IsListed

/-- The lines of a text are sound. -/
theorem Line.sound_classify {line : Text} (hfeed : '\n' ∉ line) :
    (classify commentMarks line).Sound where
  isLine := Text.isLine_trim hfeed
  returns := reread_cleared line
  header := fun _ hh hbranch => readable_of_header hfeed hh hbranch

theorem Line.Sound.header_returns {l : Line} (h : l.Sound) (hd : l.directive ≠ .none) :
    l.reread = l := by
  have := h.returns
  rwa [cleared_of_header hd] at this

theorem Line.Sound.isLine_cleared {l : Line} (h : l.Sound) : Text.IsLine l.cleared.text := by
  rw [cleared]
  split
  · exact ⟨by simp, by simp⟩
  · exact h.isLine

/-- All lines of the outline are sound. -/
def Outline.Sound (t : Outline) : Prop := ∀ l ∈ t.lines, l.Sound

/-- All lines of the branches are sound. -/
def Branches.Sound (t : Branches) : Prop := ∀ l ∈ t.lines, l.Sound

/-- Every line is read again as it is. -/
def Outline.Returns (t : Outline) : Prop := ∀ l ∈ t.lines, l.reread = l

/-- Every line is read again as it is. -/
def Branches.Returns (t : Branches) : Prop := ∀ l ∈ t.lines, l.reread = l

theorem Outline.sound_line {l : ContentLine} {rest : Outline} :
    (line l rest).Sound ↔ l.line.Sound ∧ rest.Sound := List.forall_mem_cons

theorem Outline.sound_block {head : OpeningLine} {first : Outline} {more : Branches}
    {close : ClosingLine} {rest : Outline} : (block head first more close rest).Sound ↔
      head.line.Sound ∧ first.Sound ∧ more.Sound ∧ close.line.Sound ∧ rest.Sound := by
  simp only [Sound, Branches.Sound, lines, List.forall_mem_cons, List.forall_mem_append]

theorem Branches.sound_branch {head : BranchLine} {body : Outline} {more : Branches} :
    (branch head body more).Sound ↔ head.line.Sound ∧ body.Sound ∧ more.Sound := by
  simp only [Sound, Outline.Sound, lines, List.forall_mem_cons, List.forall_mem_append]

theorem Outline.returns_line {l : ContentLine} {rest : Outline} :
    (line l rest).Returns ↔ l.line.reread = l.line ∧ rest.Returns := List.forall_mem_cons

theorem Outline.returns_block {head : OpeningLine} {first : Outline} {more : Branches}
    {close : ClosingLine} {rest : Outline} : (block head first more close rest).Returns ↔
      head.line.reread = head.line ∧ first.Returns ∧ more.Returns ∧
        close.line.reread = close.line ∧ rest.Returns := by
  simp only [Returns, Branches.Returns, lines, List.forall_mem_cons, List.forall_mem_append]

theorem Branches.returns_branch {head : BranchLine} {body : Outline} {more : Branches} :
    (branch head body more).Returns ↔
      head.line.reread = head.line ∧ body.Returns ∧ more.Returns := by
  simp only [Returns, Outline.Returns, lines, List.forall_mem_cons, List.forall_mem_append]

/-! ## Names of branches -/

/-- The names that some branches use. -/
def Branches.nameList : Branches → List Text
  | .nil => []
  | .branch head _ more => head.nameList ++ more.nameList

/-- Later branches use other names than the earlier ones. -/
theorem Branches.not_listed : ∀ (t : Branches) {q : Question} {seen : List Text} {hasElse : Bool},
    t.Valid q seen hasElse → ∀ name ∈ t.nameList, Text.listed seen name = false
  | .nil, _, _, _, _, _, hname => by cases hname
  | .branch head body more, q, seen, _, hv, name, hname => by
    obtain ⟨-, hadmits, -, hmore⟩ := hv
    rcases List.mem_append.mp hname with hname | hname
    · obtain ⟨h, hh, hname⟩ := head.mem_nameList hname
      exact (hadmits.2 h hh).2.2 name hname
    · exact (Text.listed_append_eq_false.mp (Branches.not_listed more hmore name hname)).1

theorem Branches.nameList_pruned (keep : Nat → Bool) (t : Branches) (n : Nat) :
    (t.pruned keep n).nameList ⊆ t.nameList := by
  cases t with
  | nil => exact fun _ h => h
  | branch head body more =>
    rw [Branches.pruned]
    have hmore := Branches.nameList_pruned keep more (n + 1 + body.size)
    split
    · exact List.append_subset.mpr ⟨List.subset_append_left _ _,
        List.Subset.trans hmore (List.subset_append_right _ _)⟩
    · exact List.Subset.trans hmore (List.subset_append_right _ _)

/-- The questions are the same, in whatever case the variable is written. -/
def Question.Same (q q' : Question) : Prop :=
  q.kind = q'.kind ∧ Text.alike? q.qualifier q'.qualifier = true

/-- Which names were used before decides whether a branch can follow. -/
theorem Question.admits_iff {q q' : Question} {seen seen' : List Text} {b : BranchLine}
    (h : q.Admits seen b) (hsame : q'.Same q) :
    q'.Admits seen' b ↔ ∀ name ∈ b.nameList, Text.listed seen' name = false := by
  obtain ⟨hbranch, hadmits⟩ := h
  obtain ⟨hkind, halike⟩ := hsame
  have hbranch' : q'.kind.canBranch = true := by rw [hkind, hbranch]
  cases hh : b.header? with
  | none => simp [Admits, hbranch', hh, BranchLine.nameList]
  | some header =>
    obtain ⟨hkind', halike', -⟩ := hadmits header (by simp [hh])
    have halike'' : Text.alike? q'.qualifier header.qualifier = true := by
      rw [Text.alike?_iff] at halike halike' ⊢
      exact halike.trans halike'
    simp [Admits, hbranch, hh, BranchLine.nameList, hkind', hkind, halike'']

theorem BranchLine.question_same {q : Question} {seen : List Text} {b : BranchLine}
    (h : q.Admits seen b) : (b.question q).Same q := by
  cases hh : b.header? with
  | none =>
    rw [question_of_none hh]
    exact ⟨rfl, Text.alike?_iff.mpr rfl⟩
  | some header =>
    obtain ⟨hkind, halike, -⟩ := h.2 header hh
    rw [question_of_some hh]
    refine ⟨hkind, ?_⟩
    rw [Text.alike?_iff] at halike ⊢
    exact halike.symm

/-! ## Headers that can be read -/

mutual

/-- Every header that is made for a branch that is gone can be read. -/
def Outline.reopenable (keep : Nat → Bool) (n : Nat) : Outline → Bool
  | .nil => true
  | .line _ rest => rest.reopenable keep (n + 1)
  | .block head first more _ rest =>
    let next := n + 1 + first.size
    (if first.live keep (n + 1) then first.reopenable keep (n + 1) && more.reopenable keep next
      else more.openable keep head.header.question head.header.nameList next) &&
        rest.reopenable keep (next + more.size + 1)

/-- The headers that are made inside the branches can be read. -/
def Branches.reopenable (keep : Nat → Bool) (n : Nat) : Branches → Bool
  | .nil => true
  | .branch _ body more =>
    let next := n + 1 + body.size
    (!body.live keep (n + 1) || body.reopenable keep (n + 1)) && more.reopenable keep next

/-- The header that is made for a block whose branches so far are gone, and used the names `seen`,
can be read: it lists names, and none that a branch uses which is left. -/
def Branches.openable (keep : Nat → Bool) (q : Question) (seen : List Text) (n : Nat) :
    Branches → Bool
  | .nil => true
  | .branch head body more =>
    let next := n + 1 + body.size
    if body.live keep (n + 1) then
      let listing := (head.question q).listing seen
      !listing.isEmpty && (head.nameList ++ (more.pruned keep next).nameList).all
          (fun name => !Text.listed listing name) &&
        body.reopenable keep (n + 1) && more.reopenable keep next
    else more.openable keep q (seen ++ head.nameList) next

end

/-- The question and the names of a block can be written again, if it can branch. -/
def Question.Rewritable (q : Question) (seen : List Text) : Prop :=
  q.kind.canBranch = true → q.Readable ∧ ∀ name ∈ seen, name.IsListed

theorem OpeningLine.rewritable (l : OpeningLine) (h : l.line.Sound) :
    l.header.question.Rewritable l.header.nameList :=
  h.header l.header l.directive_header?

theorem Question.Rewritable.append {q : Question} {seen : List Text} (hq : q.Rewritable seen)
    {b : BranchLine} (hb : b.line.Sound) (hadmits : q.Admits seen b) :
    q.Rewritable (seen ++ b.nameList) := by
  intro hbranch
  obtain ⟨hreadable, hseen⟩ := hq hbranch
  refine ⟨hreadable, fun name hname => ?_⟩
  rcases List.mem_append.mp hname with hname | hname
  · exact hseen name hname
  · obtain ⟨h, hh, hname⟩ := b.mem_nameList hname
    obtain ⟨hkind, -⟩ := hadmits.2 h hh
    refine (hb.header h (b.directive_header?.trans hh) ?_).2 name hname
    rw [hkind, hbranch]

/-- A branch that reopens its block asks a question that can be written. -/
theorem Question.Rewritable.question {q : Question} {seen : List Text} (hq : q.Rewritable seen)
    {b : BranchLine} (hb : b.line.Sound) (hadmits : q.Admits seen b) :
    (b.question q).Readable ∧ ∀ name ∈ seen, name.IsListed := by
  obtain ⟨hreadable, hseen⟩ := hq hadmits.1
  refine ⟨?_, hseen⟩
  cases hh : b.header? with
  | none => rwa [BranchLine.question_of_none hh]
  | some h =>
    obtain ⟨hkind, -⟩ := hadmits.2 h hh
    rw [BranchLine.question_of_some hh]
    refine (hb.header h (b.directive_header?.trans hh) ?_).1
    rw [hkind, hadmits.1]

/-! ## The pruned outline is a text -/

/-- The outline is a text that is read again as it stands. -/
def Outline.Reads (t : Outline) : Prop := t.Valid ∧ t.Returns

/-- The branches are read again as they stand. -/
def Branches.Reads (q : Question) (seen : List Text) (hasElse : Bool) (t : Branches) : Prop :=
  t.Valid q seen hasElse ∧ t.Returns

theorem Outline.reads_block {head : OpeningLine} {first : Outline} {more : Branches}
    {close : ClosingLine} {rest : Outline} (hhead : head.line.reread = head.line)
    (hclose : close.line.reread = close.line)
    (hkind : head.header.kind.closing? = some close.closing) :
    (block head first more close rest).Reads ↔ first.Reads ∧
      more.Reads head.header.question head.header.nameList false ∧ rest.Reads := by
  simp only [Reads, Branches.Reads, Valid, returns_block, hhead, hclose, hkind, true_and]
  tauto

theorem Branches.reads_branch {q q' : Question} {seen seen' : List Text} {hasElse : Bool}
    {head : BranchLine} {body : Outline} {more : Branches} (hhead : head.line.reread = head.line)
    (helse : hasElse = false) (hadmits : q.Admits seen head) (hsame : q'.Same q) :
    (branch head body more).Reads q' seen' hasElse ↔
      (∀ name ∈ head.nameList, Text.listed seen' name = false) ∧ body.Reads ∧
        more.Reads q' (seen' ++ head.nameList) head.header?.isNone := by
  simp only [Reads, Outline.Reads, Valid, returns_branch, hhead, helse,
    Question.admits_iff hadmits hsame, true_and]
  tauto

/-- The names of the branches that are left stay new behind those of the branch before, whichever
new ones come first. -/
theorem Branches.not_listed_pruned (keep : Nat → Bool) {t : Branches} (n : Nat) {q : Question}
    {seen names listing : List Text} {hasElse : Bool} (hv : t.Valid q (seen ++ names) hasElse)
    (h : ∀ name ∈ (t.pruned keep n).nameList, Text.listed listing name = false) :
    ∀ name ∈ (t.pruned keep n).nameList, Text.listed (listing ++ names) name = false := by
  intro name hname
  have hused := t.not_listed hv name (t.nameList_pruned keep n hname)
  exact Text.listed_append_eq_false.mpr ⟨h name hname, (Text.listed_append_eq_false.mp hused).2⟩

mutual

/-- What is left of an outline is a text exactly if the headers that are made can be read. -/
theorem Outline.reopenable_iff (keep : Nat → Bool) : ∀ (t : Outline) (n : Nat), t.Valid → t.Sound →
    ((t.pruned keep n).Reads ↔ t.reopenable keep n = true)
  | .nil, _, _, _ => by simp [Outline.pruned, Outline.reopenable, Outline.Reads, Outline.Valid,
      Outline.Returns, Outline.lines]
  | .line l rest, n, hv, hs => by
    obtain ⟨hl, hrest⟩ := Outline.sound_line.mp hs
    have ih := Outline.reopenable_iff keep rest (n + 1) hv hrest
    rw [Outline.pruned, Outline.reopenable, ← ih]
    split
    · have hback : l.cleared.line.reread = l.cleared.line := hl.returns
      simp only [Outline.Reads, Outline.Valid, Outline.returns_line, hback, true_and]
    · exact Iff.rfl
  | .block head first more close rest, n, hv, hs => by
    obtain ⟨hkind, hfirst, hmore, hrest⟩ := hv
    obtain ⟨hshead, hsfirst, hsmore, hsclose, hsrest⟩ := Outline.sound_block.mp hs
    have ihrest :=
      Outline.reopenable_iff keep rest (n + 1 + first.size + more.size + 1) hrest hsrest
    rw [Outline.pruned, Outline.reopenable, Bool.and_eq_true, ← ihrest]
    cases hlive : first.live keep (n + 1) with
    | true =>
      have hnames : ∀ name ∈ (more.pruned keep (n + 1 + first.size)).nameList,
          Text.listed head.header.nameList name = false := fun name hname =>
        more.not_listed hmore name (more.nameList_pruned keep _ hname)
      have hsame : head.header.question.Same head.header.question :=
        ⟨rfl, Text.alike?_iff.mpr rfl⟩
      have ihmore :=
        Branches.reopenable_iff keep more (n + 1 + first.size) hmore hsmore hsame id hnames
      rw [if_pos rfl, if_pos rfl, Bool.and_eq_true,
        ← Outline.reopenable_iff keep first (n + 1) hfirst hsfirst, ← ihmore,
        Outline.reads_block (hshead.header_returns head.not_plain)
          (hsclose.header_returns close.not_plain) hkind, and_assoc]
    | false =>
      rw [if_neg (by decide), if_neg (by decide)]
      exact Branches.openable_iff keep more (n + 1 + first.size) hmore hsmore
        (head.rewritable hshead) hkind (hsclose.header_returns close.not_plain) _

/-- What is left of the further branches of a block can follow in it, exactly if the headers that
are made can be read. -/
theorem Branches.reopenable_iff (keep : Nat → Bool) : ∀ (t : Branches) (n : Nat) {q q' : Question}
    {seen seen' : List Text} {hasElse hasElse' : Bool}, t.Valid q seen hasElse → t.Sound →
      q'.Same q → (hasElse' = true → hasElse = true) →
        (∀ name ∈ (t.pruned keep n).nameList, Text.listed seen' name = false) →
          ((t.pruned keep n).Reads q' seen' hasElse' ↔ t.reopenable keep n = true)
  | .nil, _, _, _, _, _, _, _, _, _, _, _, _ => by simp [Branches.pruned, Branches.reopenable,
      Branches.Reads, Branches.Valid, Branches.Returns, Branches.lines]
  | .branch head body more, n, q, q', seen, seen', hasElse, hasElse', hv, hs, hsame, helse',
      hnames => by
    obtain ⟨helse, hadmits, hbody, hmore⟩ := hv
    obtain ⟨hshead, hsbody, hsmore⟩ := Branches.sound_branch.mp hs
    rw [Branches.pruned] at hnames ⊢
    rw [Branches.reopenable, Bool.and_eq_true]
    cases hlive : body.live keep (n + 1) with
    | true =>
      rw [hlive, if_pos rfl] at hnames
      have hhead : ∀ name ∈ head.nameList, Text.listed seen' name = false := fun name hname =>
        hnames name (List.mem_append_left _ hname)
      have hlater := Branches.not_listed_pruned keep (n + 1 + body.size) hmore fun name hname =>
        hnames name (List.mem_append_right _ hname)
      have helse'' : hasElse' = false := by
        cases hasElse' with
        | false => rfl
        | true => rw [helse' rfl] at helse; cases helse
      rw [if_pos rfl, Branches.reads_branch (hshead.header_returns head.not_plain) helse'' hadmits
        hsame, Outline.reopenable_iff keep body (n + 1) hbody hsbody,
        Branches.reopenable_iff keep more (n + 1 + body.size) hmore hsmore hsame id hlater]
      simpa using fun _ _ => hhead
    | false =>
      rw [hlive, if_neg (by decide)] at hnames
      rw [if_neg (by decide)]
      have hlast : hasElse' = true → head.header?.isNone = true := fun h => by
        rw [helse' h] at helse
        cases helse
      rw [Branches.reopenable_iff keep more (n + 1 + body.size) hmore hsmore hsame hlast hnames]
      simp

/-- What is left of a block that is opened by a made header is a text exactly if this header can be
read. -/
theorem Branches.openable_iff (keep : Nat → Bool) : ∀ (t : Branches) (n : Nat) {q : Question}
    {seen : List Text} {hasElse : Bool} {close : ClosingLine}, t.Valid q seen hasElse → t.Sound →
      q.Rewritable seen → q.kind.closing? = some close.closing →
        close.line.reread = close.line → ∀ after : Outline,
          ((t.reopened keep q seen n close after).Reads ↔
            t.openable keep q seen n = true ∧ after.Reads)
  | .nil, _, _, _, _, _, _, _, _, _, _, after => by simp [Branches.reopened, Branches.openable]
  | .branch head body more, n, q, seen, hasElse, close, hv, hs, hq, hkind, hclose, after => by
    obtain ⟨helse, hadmits, hbody, hmore⟩ := hv
    obtain ⟨hshead, hsbody, hsmore⟩ := Branches.sound_branch.mp hs
    rw [Branches.reopened, Branches.openable]
    cases hlive : body.live keep (n + 1) with
    | true =>
      obtain ⟨hreadable, hseen⟩ := hq.question hshead hadmits
      have hsame := BranchLine.question_same hadmits
      have hmade := OpeningLine.reread_made_iff hreadable hseen
      rw [if_pos rfl, if_pos rfl]
      by_cases hnil : (head.question q).listing seen = []
      · have hnot : (OpeningLine.made (head.question q) seen).line.reread ≠
            (OpeningLine.made (head.question q) seen).line := fun h => hmade.mp h hnil
        simp [Outline.Reads, Outline.returns_block, hnot, hnil]
      · have hkind' : (OpeningLine.made (head.question q) seen).header.kind.closing? =
            some close.closing := by
          rw [← hkind, ← hsame.1]
          rfl
        rw [Outline.reads_block (hmade.mpr hnil) hclose hkind', OpeningLine.made_question,
          OpeningLine.made_nameList hseen,
          Branches.reads_branch (hshead.header_returns head.not_plain) rfl hadmits hsame,
          Outline.reopenable_iff keep body (n + 1) hbody hsbody]
        have hlisted : (head.question q).listing seen ≠ [] := hnil
        generalize (head.question q).listing seen = listing at hlisted
        have hrest : (∀ name ∈ (more.pruned keep (n + 1 + body.size)).nameList,
            Text.listed listing name = false) →
              ((more.pruned keep (n + 1 + body.size)).Reads (head.question q)
                (listing ++ head.nameList) head.header?.isNone ↔
                  more.reopenable keep (n + 1 + body.size) = true) := fun hnames =>
          Branches.reopenable_iff keep more (n + 1 + body.size) hmore hsmore hsame id
            (Branches.not_listed_pruned keep _ hmore hnames)
        have hempty : Outline.nil.Reads := ⟨trivial, by simp [Outline.Returns, Outline.lines]⟩
        simp only [Bool.and_eq_true, Bool.not_eq_true', List.isEmpty_eq_false_iff,
          List.all_eq_true, List.forall_mem_append]
        constructor
        · rintro ⟨-, ⟨hnames, hbody, hreads⟩, hafter⟩
          have hnames' : ∀ name ∈ (more.pruned keep (n + 1 + body.size)).nameList,
              Text.listed listing name = false := by
            intro name hname
            exact (Text.listed_append_eq_false.mp (Branches.not_listed _ hreads.1 name hname)).1
          exact ⟨⟨⟨⟨hlisted, hnames, hnames'⟩, hbody⟩, (hrest hnames').mp hreads⟩, hafter⟩
        · rintro ⟨⟨⟨⟨-, hnames, hnames'⟩, hbody⟩, hreopens⟩, hafter⟩
          exact ⟨hempty, ⟨hnames, hbody, (hrest hnames').mpr hreopens⟩, hafter⟩
    | false =>
      rw [if_neg (by decide), if_neg (by decide)]
      exact Branches.openable_iff keep more (n + 1 + body.size) hmore hsmore
        (hq.append hshead hadmits) hkind hclose after

end

/-! ## Lines that are left -/

section
variable {P : Line → Prop}

mutual

/-- A line of what is left is a line of the outline, or a header that is made. -/
theorem Outline.forall_pruned (hold : ∀ l : Line, l.Sound → P l.cleared)
    (hmade : ∀ q seen, q.Readable → (∀ name ∈ seen, Text.IsListed name) →
      P (OpeningLine.made q seen).line) (keep : Nat → Bool) : ∀ (t : Outline) (n : Nat),
        t.Valid → t.Sound → ∀ l ∈ (t.pruned keep n).lines, P l
  | .nil, _, _, _, _, hl => by cases hl
  | .line l' rest, n, hv, hs, l, hl => by
    obtain ⟨hl', hrest⟩ := Outline.sound_line.mp hs
    have ih := Outline.forall_pruned hold hmade keep rest (n + 1) hv hrest
    rw [Outline.pruned] at hl
    split at hl
    · rcases List.mem_cons.mp hl with rfl | hl
      · exact hold l'.line hl'
      · exact ih l hl
    · exact ih l hl
  | .block head first more close rest, n, hv, hs, l, hl => by
    obtain ⟨-, hfirst, hmore, hrest⟩ := hv
    obtain ⟨hshead, hsfirst, hsmore, hsclose, hsrest⟩ := Outline.sound_block.mp hs
    have hclose : P close.line := by
      have := hold close.line hsclose
      rwa [Line.cleared_of_header close.not_plain] at this
    have hafter := Outline.forall_pruned hold hmade keep rest (n + 1 + first.size + more.size + 1)
      hrest hsrest
    rw [Outline.pruned] at hl
    split at hl
    · simp only [Outline.lines, List.mem_cons, List.mem_append] at hl
      rcases hl with rfl | hl | hl | rfl | hl
      · have := hold head.line hshead
        rwa [Line.cleared_of_header head.not_plain] at this
      · exact Outline.forall_pruned hold hmade keep first (n + 1) hfirst hsfirst l hl
      · exact Branches.forall_pruned hold hmade keep more _ hmore hsmore l hl
      · exact hclose
      · exact hafter l hl
    · exact Branches.forall_reopened hold hmade keep more _ hmore hsmore (head.rewritable hshead)
        hclose hafter l hl

theorem Branches.forall_pruned (hold : ∀ l : Line, l.Sound → P l.cleared)
    (hmade : ∀ q seen, q.Readable → (∀ name ∈ seen, Text.IsListed name) →
      P (OpeningLine.made q seen).line) (keep : Nat → Bool) : ∀ (t : Branches) (n : Nat)
        {q : Question} {seen : List Text} {hasElse : Bool}, t.Valid q seen hasElse → t.Sound →
          ∀ l ∈ (t.pruned keep n).lines, P l
  | .nil, _, _, _, _, _, _, _, hl => by cases hl
  | .branch head body more, n, _, _, _, hv, hs, l, hl => by
    obtain ⟨-, -, hbody, hmore⟩ := hv
    obtain ⟨hshead, hsbody, hsmore⟩ := Branches.sound_branch.mp hs
    have ih := Branches.forall_pruned hold hmade keep more (n + 1 + body.size) hmore hsmore
    rw [Branches.pruned] at hl
    split at hl
    · simp only [Branches.lines, List.mem_cons, List.mem_append] at hl
      rcases hl with rfl | hl | hl
      · have := hold head.line hshead
        rwa [Line.cleared_of_header head.not_plain] at this
      · exact Outline.forall_pruned hold hmade keep body (n + 1) hbody hsbody l hl
      · exact ih l hl
    · exact ih l hl

theorem Branches.forall_reopened (hold : ∀ l : Line, l.Sound → P l.cleared)
    (hmade : ∀ q seen, q.Readable → (∀ name ∈ seen, Text.IsListed name) →
      P (OpeningLine.made q seen).line) (keep : Nat → Bool) : ∀ (t : Branches) (n : Nat)
        {q : Question} {seen : List Text} {hasElse : Bool} {close : ClosingLine}
          {after : Outline}, t.Valid q seen hasElse → t.Sound → q.Rewritable seen →
            P close.line → (∀ l ∈ after.lines, P l) →
              ∀ l ∈ (t.reopened keep q seen n close after).lines, P l
  | .nil, _, _, _, _, _, _, _, _, _, _, hafter, l, hl => hafter l hl
  | .branch head body more, n, q, seen, _, close, after, hv, hs, hq, hclose, hafter, l, hl => by
    obtain ⟨-, hadmits, hbody, hmore⟩ := hv
    obtain ⟨hshead, hsbody, hsmore⟩ := Branches.sound_branch.mp hs
    rw [Branches.reopened] at hl
    split at hl
    · obtain ⟨hreadable, hseen⟩ := hq.question hshead hadmits
      simp only [Outline.lines, Branches.lines, List.mem_cons, List.mem_append, List.not_mem_nil,
        false_or] at hl
      rcases hl with rfl | (rfl | hl | hl) | rfl | hl
      · exact hmade _ _ hreadable hseen
      · have := hold head.line hshead
        rwa [Line.cleared_of_header head.not_plain] at this
      · exact Outline.forall_pruned hold hmade keep body (n + 1) hbody hsbody l hl
      · exact Branches.forall_pruned hold hmade keep more _ hmore hsmore l hl
      · exact hclose
      · exact hafter l hl
    · exact Branches.forall_reopened hold hmade keep more _ hmore hsmore (hq.append hshead hadmits)
        hclose hafter l hl

end

end

/-- What is left of a text can be written as lines. -/
theorem Outline.isLine_of_mem_pruned {t : Outline} (hv : t.Valid) (hs : t.Sound)
    (keep : Nat → Bool) (n : Nat) : ∀ l ∈ (t.pruned keep n).lines, Text.IsLine l.text :=
  t.forall_pruned (fun _ hl => hl.isLine_cleared)
    (fun _ _ hq hseen => OpeningLine.isLine_made hq hseen) keep n hv hs

/-- A line of what is left that is not read as it is cannot be read at all. -/
theorem Outline.returns_or_malformed {t : Outline} (hv : t.Valid) (hs : t.Sound)
    (keep : Nat → Bool) (n : Nat) : ∀ l ∈ (t.pruned keep n).lines,
      l.reread = l ∨ ∃ flaw, l.reread.directive = .malformed flaw := by
  refine t.forall_pruned (fun _ hl => .inl hl.returns) (fun q seen hq hseen => ?_) keep n hv hs
  by_cases hnil : q.listing seen = []
  · exact .inr ⟨_, OpeningLine.malformed_made hq hseen hnil⟩
  · exact .inl ((OpeningLine.reread_made_iff hq hseen).mpr hnil)

mutual

theorem Outline.not_malformed : ∀ (t : Outline), ∀ l ∈ t.lines, ∀ flaw,
    l.directive ≠ .malformed flaw
  | .nil, _, hl, _ => by cases hl
  | .line l' rest, l, hl, flaw => by
    rcases List.mem_cons.mp hl with rfl | hl
    · simp [l'.plain]
    · exact Outline.not_malformed rest l hl flaw
  | .block head first more close rest, l, hl, flaw => by
    simp only [Outline.lines, List.mem_cons, List.mem_append] at hl
    rcases hl with rfl | hl | hl | rfl | hl
    · simp [head.opens]
    · exact Outline.not_malformed first l hl flaw
    · exact Branches.not_malformed more l hl flaw
    · simp [close.closes]
    · exact Outline.not_malformed rest l hl flaw

theorem Branches.not_malformed : ∀ (t : Branches), ∀ l ∈ t.lines, ∀ flaw,
    l.directive ≠ .malformed flaw
  | .nil, _, hl, _ => by cases hl
  | .branch head body more, l, hl, flaw => by
    simp only [Branches.lines, List.mem_cons, List.mem_append] at hl
    rcases hl with rfl | hl | hl
    · rw [head.branches]
      cases head.header? <;> simp
    · exact Outline.not_malformed body l hl flaw
    · exact Branches.not_malformed more l hl flaw

end

end ControlFiles
