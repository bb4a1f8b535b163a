import ControlFiles.Proofs.ControlFile.WrittenOutline
import ControlFiles.Proofs.Scope

/-!
# The names in the scopes of an outline

Which names of an axis stand in the scopes of the entries of an outline? Those that its headers
list, and, if there is any entry, those of the levels around it (`Outline.listed_entries`). No
header is missed, since each branch has an entry; and what excludes the names of earlier branches
repeats what their headers list.
-/

namespace ControlFiles

/-! ## Names on an axis -/

/-- The axis that a condition of this kind has names of. -/
def ScopeKind.axis? : ScopeKind → Option Axis
  | .scenario => some .scenario
  | .event | .eventVariable => some .event
  | _ => none

theorem ScopeKind.axis?_of_isAnonymous {k : ScopeKind} (h : k.isAnonymous = true) :
    k.axis? = none := by
  revert h
  cases k <;> decide

/-- The names on an axis among the alternatives of a condition; tokens are none. -/
def ScopeKind.namesOn (k : ScopeKind) (axis : Axis) (names : List Text) : List Text :=
  if k.axis? = some axis then plainNames names else []

theorem ScopeKind.namesOn_append (k : ScopeKind) (axis : Axis) (a b : List Text) :
    k.namesOn axis (a ++ b) = k.namesOn axis a ++ k.namesOn axis b := by
  rw [namesOn, namesOn, namesOn]
  split
  · exact plainNames_append a b
  · rfl

/-- The names on an axis that the header lists. -/
def Header.namesOn (h : Header) (axis : Axis) : List Text := h.kind.namesOn axis h.nameList

/-- The names on an axis that the header of the line lists. -/
def Line.headerNamesOn (l : Line) (axis : Axis) : List Text :=
  (l.directive.header?.map (·.namesOn axis)).getD []

/-- The names on an axis that the scope has. -/
def Scope.namesOn (s : Scope) (axis : Axis) : List Text :=
  if s.kind.axis? = some axis then s.names else []

/-- The names on an axis that the scopes of some levels have. -/
def Level.namesOn (path : List Level) (axis : Axis) : List Text :=
  (Level.scopeList path).flatMap (·.namesOn axis)

/-- The names on an axis that the scopes of some entries have. -/
def Entry.namesOn (es : List Entry) (axis : Axis) : List Text :=
  es.flatMap fun e => Level.namesOn e.path axis

theorem Entry.namesOn_append (a b : List Entry) (axis : Axis) :
    namesOn (a ++ b) axis = namesOn a axis ++ namesOn b axis := List.flatMap_append

theorem Level.namesOn_append (path : List Level) (l : Level) (axis : Axis) :
    namesOn (path ++ [l]) axis = namesOn path axis ++ l.scopes.flatMap (·.namesOn axis) := by
  simp [namesOn, scopeList, List.flatMap_assoc]

section
variable {axis : Axis} {name : Text}

/-! ## Levels -/

theorem Scope.listed_namesOn_ofText (h : Header) (qualifier : Option Text) (source : BlockSource) :
    Text.listed ((((ofText h.kind h.names).withQualifier qualifier).withSource source).namesOn axis)
      name = Text.listed (h.namesOn axis) name := by
  rw [ofText_of_alternatives, namesOn, Header.namesOn, ScopeKind.namesOn]
  show Text.listed (if h.kind.axis? = some axis then _ else _) name = _
  split
  · exact Text.listed_addNew _ _ _
  · rfl

theorem Scope.listed_namesOn_negationOf {kind : ScopeKind} {seen : List Text}
    (hseen : ∀ name ∈ seen, Text.IsName name) (fromElse : Bool) (qualifier : Option Text)
    (source : BlockSource) :
    Text.listed (((negationOf kind seen fromElse qualifier).withSource source).namesOn axis) name =
      Text.listed (kind.namesOn axis seen) name := by
  rw [negationOf_of_isName _ _ _ hseen, namesOn, ScopeKind.namesOn]
  show Text.listed (if kind.axis? = some axis then _ else _) name = _
  split
  · exact Text.listed_addNew _ _ _
  · rfl

/-- The first branch of a block has the names of the header. -/
theorem Level.listed_opening (h : Header) (source : BlockSource) :
    Text.listed ((opening h source).scopes.flatMap (·.namesOn axis)) name =
      Text.listed (h.namesOn axis) name := by
  rw [scopes, opening, Option.toList_none, List.nil_append, List.flatMap_singleton]
  split
  · rename_i hanonymous
    have hno : ¬ h.kind.axis? = some axis := by
      rw [h.kind.axis?_of_isAnonymous hanonymous]
      exact (Option.some_ne_none axis).symm
    rw [Header.namesOn, ScopeKind.namesOn, if_neg hno]
    exact congrArg (Text.listed · name) (if_neg hno)
  · exact Scope.listed_namesOn_ofText h h.qualifier source

/-- A later branch has the names of its header, and those of the headers before it. -/
theorem Level.listed_later {q : Question} {seen : List Text}
    (hseen : ∀ name ∈ seen, Text.IsName name) {line : BranchLine} (hadmits : q.Admits seen line)
    (source : BlockSource) :
    Text.listed ((later q seen source line.header?).scopes.flatMap (·.namesOn axis)) name =
      (Text.listed (q.kind.namesOn axis seen) name ||
        Text.listed (line.line.headerNamesOn axis) name) := by
  rw [Line.headerNamesOn, line.directive_header?, scopes]
  cases hh : line.header? with
  | none =>
    rw [later, Option.toList_none, List.nil_append, List.flatMap_singleton,
      Scope.listed_namesOn_negationOf hseen]
    exact (Bool.or_false _).symm
  | some h =>
    obtain ⟨hkind, -, -⟩ := hadmits.2 h hh
    rw [later, Option.toList_some, List.singleton_append, List.flatMap_cons,
      List.flatMap_singleton, Text.listed_append, Scope.listed_namesOn_negationOf hseen,
      Scope.listed_namesOn_ofText, hkind]
    rfl

/-! ## Entries -/

section
variable {closes : Closes}

/-- If the entries of a body have the names that they are to have, then so has a branch with that
body, empty or not. -/
theorem Outline.listed_branchEntries {body : Outline} {n : Nat} {path : List Level}
    (h : Text.listed (Entry.namesOn (body.entries closes n path) axis) name =
      (Text.listed (body.lines.flatMap (·.headerNamesOn axis)) name ||
        (!body.isNil && Text.listed (Level.namesOn path axis) name))) :
    Text.listed (Entry.namesOn (body.branchEntries closes n path) axis) name =
      (Text.listed (body.lines.flatMap (·.headerNamesOn axis)) name ||
        Text.listed (Level.namesOn path axis) name) := by
  rw [branchEntries, Entry.namesOn_append, Text.listed_append, h, placeholder]
  cases body.isNil
  · simp [Entry.namesOn, Text.listed]
  · simp [Entry.namesOn]

mutual

/-- The entries of an outline have the names that its headers list, and those of the levels around
them. -/
theorem Outline.listed_entries : ∀ (t : Outline) (n : Nat) (path : List Level), t.Valid →
    Text.listed (Entry.namesOn (t.entries closes n path) axis) name =
      (Text.listed (t.lines.flatMap (·.headerNamesOn axis)) name ||
        (!t.isNil && Text.listed (Level.namesOn path axis) name))
  | .nil, _, _, _ => rfl
  | .line l rest, n, path, hv => by
    have hline : l.line.headerNamesOn axis = [] := by
      rw [Line.headerNamesOn, l.plain]
      rfl
    have hentry : Entry.namesOn ((Outline.line l rest).entries closes n path) axis =
        Level.namesOn path axis ++ Entry.namesOn (rest.entries closes (n + 1) path) axis := rfl
    rw [hentry, Text.listed_append, Outline.listed_entries rest _ _ hv, Outline.lines,
      List.flatMap_cons, hline, List.nil_append, Outline.isNil_line]
    grind
  | .block head first more close rest, n, path, hv => by
    obtain ⟨-, hfirst, hmore, hrest⟩ := hv
    have hclose : close.line.headerNamesOn axis = [] := by
      rw [Line.headerNamesOn, close.closes]
      rfl
    have hhead : head.line.headerNamesOn axis =
        head.header.question.kind.namesOn axis head.header.nameList := by
      rw [Line.headerNamesOn, head.directive_header?]
      rfl
    have hseen : ∀ name ∈ head.header.nameList, Text.IsName name :=
      fun _ => Text.isName_of_mem_alternatives
    rw [Outline.entries_block, Entry.namesOn_append, Entry.namesOn_append, Text.listed_append,
      Text.listed_append,
      Outline.listed_branchEntries (Outline.listed_entries first _ _ hfirst),
      Branches.listed_entries more _ _ _ _ _ _ hseen hmore, Outline.listed_entries rest _ _ hrest,
      Level.namesOn_append, Text.listed_append, Level.listed_opening, Outline.lines,
      Outline.isNil_block]
    simp only [List.flatMap_cons, List.flatMap_append, Text.listed_append, hclose, hhead,
      Header.namesOn, Header.question, List.nil_append]
    grind

/-- The entries of further branches have besides the names of the headers before them. -/
theorem Branches.listed_entries : ∀ (t : Branches) (block : Nat) (q : Question) (seen : List Text)
    (hasElse : Bool) (n : Nat) (path : List Level), (∀ name ∈ seen, Text.IsName name) →
      t.Valid q seen hasElse →
      Text.listed (Entry.namesOn (t.entries closes block q seen n path) axis) name =
        (Text.listed (t.lines.flatMap (·.headerNamesOn axis)) name ||
          (!t.lines.isEmpty && (Text.listed (Level.namesOn path axis) name ||
            Text.listed (q.kind.namesOn axis seen) name)))
  | .nil, _, _, _, _, _, _, _, _ => rfl
  | .branch head body more, block, q, seen, hasElse, n, path, hseen, hv => by
    obtain ⟨-, hadmits, hbody, hmore⟩ := hv
    have hnames : q.kind.namesOn axis head.nameList = head.line.headerNamesOn axis := by
      rw [Line.headerNamesOn, head.directive_header?, BranchLine.nameList]
      cases hh : head.header? with
      | none => exact ite_self _
      | some h =>
        rw [← (hadmits.2 h hh).1]
        rfl
    have hseen' : ∀ name ∈ seen ++ head.nameList, Text.IsName name := by
      intro name hname
      obtain hname | hname := List.mem_append.mp hname
      · exact hseen name hname
      · exact head.isName_of_mem name hname
    rw [Branches.entries_branch, Entry.namesOn_append, Text.listed_append,
      Outline.listed_branchEntries (Outline.listed_entries body _ _ hbody),
      Branches.listed_entries more _ _ _ _ _ _ hseen' hmore, Level.namesOn_append,
      Text.listed_append, Level.listed_later hseen hadmits, ScopeKind.namesOn_append,
      Text.listed_append, hnames, Branches.lines]
    simp only [List.flatMap_cons, List.flatMap_append, Text.listed_append, List.isEmpty_cons]
    grind

end

end

end

end ControlFiles
