import ControlFiles.Proofs.ControlFile.Findings
import ControlFiles.Proofs.Reference.Assigning
import ControlFiles.Proofs.Text.Tokens

/-!
# What the files of a wildcard reference are given

Each file that a wildcard reference loads has a scope for every token of an axis
(`Variants.map_fileScopes`). The names on these scopes come from the first choice of candidates
under which the reference names the file (`Variants.Chooses`, `Variants.fileScopes_cases`). For a
reference with tokens of both axes the candidates are the names of both, and the choice may give a
token a name of the other axis (`Variants.Crosses`): the scopes have names of their kinds exactly if
it does not (`Variants.keepsKind_fileScopes_iff`).

The scopes of children add nothing to the names that a tree mentions
(`Variants.candidates_assignFile`). So the candidates that a tree was loaded with are its own, and
`ControlFile.load_scopes` says of a loaded tree what holds of each reference.
-/

namespace ControlFiles

/-- The names on an axis. -/
def Candidates.names (c : Candidates) : Axis → List Text
  | .scenario => c.scenarios
  | .event => c.events

/-- The names that a scope has of its kind are known as such. -/
structure Scope.KeepsKind (c : Candidates) (s : Scope) : Prop where
  scenarios : s.kind = .scenario → ∀ name ∈ s.names, name ∈ c.scenarios
  events : s.kind = .event → ∀ name ∈ s.names, name ∈ c.events

namespace Variants

open Assignment

/-! ## Tokens -/

theorem mem_axes {tokens : List Token} {t : Token} {axis : Axis} :
    (t, axis) ∈ axes tokens ↔ t ∈ tokens ∧ ∃ index, t.axis? = some (axis, index) := by
  simp only [axes, List.mem_filterMap, Option.map_eq_some_iff, Prod.mk.injEq, Prod.exists]
  constructor
  · rintro ⟨u, hu, a, index, haxis, rfl, rfl⟩
    exact ⟨hu, index, haxis⟩
  · rintro ⟨ht, index, haxis⟩
    exact ⟨t, ht, axis, index, haxis, rfl, rfl⟩

theorem length_axes {tokens : List Token} :
    (axes tokens).length = tokens.length ↔ ∀ t ∈ tokens, t.axis?.isSome = true := by
  rw [axes, List.filterMap_length_eq_length]
  simp only [Option.isSome_map]

/-- The tokens behind the last separator are tokens of the reference. -/
theorem exists_same_of_mem_filePart {reference : Text} {u : Token}
    (h : u ∈ Text.tokens (filePart reference)) :
    ∃ t ∈ Text.tokens reference, t.same u = true ∧ t.axis? = u.axis? := by
  have hpart : filePart reference <:+: reference := by
    have hprefix := List.takeWhile_prefix (l := reference.reverse) fun c => c ≠ '/' && c ≠ '\\'
    rw [← List.reverse_suffix, List.reverse_reverse] at hprefix
    exact hprefix.isInfix
  have hpiece := Template.mem_ofText_of_infix (Template.mem_of_mem_tokens h) hpart
  obtain ⟨t, ht, hsame⟩ := Template.exists_same_of_mem hpiece
  exact ⟨t, ht, hsame, Token.axis?_congr hsame⟩

theorem isName_text {t : Token} (h : t.axis?.isSome = true) : Text.IsName t.text := by
  have htext : t.text = '<' :: '<' :: (t.name ++ ['>', '>']) := by
    rw [← t.text_append, List.append_nil]
  have hlast : t.text.getLast? = some '>' := by
    rw [Token.text, List.getLast?_append_of_ne_nil _ (by decide)]
    rfl
  refine ⟨Text.trim_eq_self_iff.mpr ⟨?_, ?_⟩, ?_, ?_⟩
  · rw [htext]
    simpa using (by decide : isBlank '<' = false)
  · rw [hlast]
    simpa using (by decide : isBlank '>' = false)
  · rw [htext]
    exact List.cons_ne_nil _ _
  · rw [htext]
    simpa using Token.not_mem_bar_of_axis? h

/-- Before a name is found, a scope has the token only. -/
theorem unresolvedScope_eq {reference : Text} {t : Token} {axis : Axis}
    (h : (t, axis) ∈ axes (Text.tokens reference)) :
    unresolvedScope (t, axis) = { Scope.ofNames axis.scopeKind [] with token := some t.text } := by
  obtain ⟨ht, index, haxis⟩ := mem_axes.mp h
  have hpiece := Template.mem_of_mem_tokens ht
  have hpieces := Template.ofText_token (Template.isNamed_of_mem_ofText hpiece)
  rw [Template.normalize_of_mem_ofText hpiece] at hpieces
  have htokens : Text.hasTokens t.text = true := by
    rw [Text.hasTokens, hpieces]
    rfl
  have hnormal : Text.normalizeTokens t.text = t.text := by
    rw [Text.normalizeTokens, hpieces]
    exact List.append_nil _
  have hname : Text.IsName t.text := isName_text (by rw [haxis]; rfl)
  rw [unresolvedScope, Scope.ofText, hname.alternatives_eq]
  show Scope.addAlternative _ t.text = _
  rw [Scope.addAlternative, if_pos htokens, hnormal]
  rfl

/-! ## The scopes of one file -/

/-- The candidates for the tokens of a reference. -/
def candidatesFor (c : Candidates) (reference : Text) : List Text :=
  candidatesOf c ((axes (Text.tokens reference)).map (·.2))

/-- The assignment is the first one under which the reference is the name of the file. -/
structure Chooses (c : Candidates) (reference : Text) (path : Path) (a : Assignment) : Prop where
  axis : ∀ t ∈ Text.tokens reference, t.axis?.isSome = true
  tokens : Text.tokens (filePart reference) ≠ []
  first : ∃ first, Fits (filePart reference) path.fileName (candidatesFor c reference) first ∧
    (∀ other, Fits (filePart reference) path.fileName (candidatesFor c reference) other →
      first ≤ other) ∧
    a = ofPositions (filePart reference) (candidatesFor c reference) first

/-- The assignment gives a token a name that is not on its axis. -/
def Crosses (c : Candidates) (reference : Text) (path : Path) : Prop :=
  ∃ a, Chooses c reference path a ∧ ∃ u name axis index, (u, name) ∈ a ∧
    u.axis? = some (axis, index) ∧ name ∉ c.names axis

/-- Each token has its scope, with the names of the assignment if there is one. -/
theorem fileScopes_cases (c : Candidates) (reference : Text) (path : Path) :
    ((¬ ∃ a, Chooses c reference path a) ∧
      fileScopes c reference path = (axes (Text.tokens reference)).map unresolvedScope) ∨
    ∃ a, Chooses c reference path a ∧
      fileScopes c reference path =
        (axes (Text.tokens reference)).map fun t => a.apply (unresolvedScope t) := by
  by_cases haxes : ∀ t ∈ Text.tokens reference, t.axis?.isSome = true
  swap
  · refine .inl ⟨fun ⟨a, ha⟩ => haxes ha.axis, ?_⟩
    rw [fileScopes, if_pos]
    simpa using .inr fun h => haxes (length_axes.mp h)
  have haxis : ∀ u ∈ Text.tokens (filePart reference), u.axis?.isSome = true := by
    intro u hu
    obtain ⟨t, ht, -, hsame⟩ := exists_same_of_mem_filePart hu
    exact hsame ▸ haxes t ht
  by_cases hsome : Text.tokens (filePart reference) = []
  · refine .inl ⟨fun ⟨a, ha⟩ => ha.tokens hsome, ?_⟩
    have hnone : find? (filePart reference) path.fileName (candidatesFor c reference) = none := by
      rw [find?, hsome]
      rfl
    rw [fileScopes]
    split
    · rfl
    · rw [resolveScopes, ← candidatesFor, hnone]
  · have hany : Text.tokens reference ≠ [] := fun hnil => by
      obtain ⟨u, hu⟩ := List.exists_mem_of_ne_nil _ hsome
      obtain ⟨t, ht, -⟩ := exists_same_of_mem_filePart hu
      rw [hnil] at ht
      cases ht
    rw [fileScopes, if_neg (by simp [hany, length_axes.mpr haxes]), resolveScopes, ← candidatesFor]
    cases hfind : find? (filePart reference) path.fileName (candidatesFor c reference) with
    | none =>
      refine .inl ⟨fun ⟨a, ha⟩ => ?_, rfl⟩
      obtain ⟨first, hfits, -⟩ := ha.first
      have hfound := (isSome_find?_iff haxis hsome).mpr ⟨first, hfits⟩
      rw [hfind] at hfound
      cases hfound
    | some a =>
      refine .inr ⟨a, ⟨haxes, hsome, first_of_find?_eq_some haxis hsome hfind⟩, ?_⟩
      show ((axes (Text.tokens reference)).map unresolvedScope).map a.apply = _
      rw [List.map_map]
      rfl

/-! ## The names that are given -/

theorem Chooses.functional {c : Candidates} {reference : Text} {path : Path} {a : Assignment}
    (h : Chooses c reference path a) : Functional a := by
  obtain ⟨first, hfits, -, rfl⟩ := h.first
  exact hfits.functional

theorem Chooses.eq {c : Candidates} {reference : Text} {path : Path} {a b : Assignment}
    (ha : Chooses c reference path a) (hb : Chooses c reference path b) : a = b := by
  obtain ⟨first, hfits, hleast, rfl⟩ := ha.first
  obtain ⟨first', hfits', hleast', rfl⟩ := hb.first
  rw [le_antisymm (hleast first' hfits') (hleast' first hfits)]

/-- An assignment has tokens of the reference, and candidates for them. -/
theorem Chooses.mem {c : Candidates} {reference : Text} {path : Path} {a : Assignment}
    (h : Chooses c reference path a) {u : Token} {name : Text} (hu : (u, name) ∈ a) :
    u ∈ Text.tokens (filePart reference) ∧ name ∈ candidatesFor c reference := by
  obtain ⟨first, -, -, rfl⟩ := h.first
  obtain ⟨hu, hname⟩ := List.of_mem_zip hu
  refine ⟨hu, ?_⟩
  obtain ⟨i, -, hi⟩ := List.mem_filterMap.mp hname
  exact List.mem_of_getElem? hi

/-- An assignment gives names to scopes and changes nothing else. -/
theorem apply_eq (a : Assignment) (s : Scope) :
    a.apply s = { s with names := (a.apply s).names } := by
  obtain ⟨name, -, h⟩ | ⟨-, h⟩ := a.apply_cases s
  · rw [h, Scope.addNames]
  · rw [h]

theorem kind_apply (a : Assignment) (s : Scope) : (a.apply s).kind = s.kind := by rw [apply_eq]

/-- A scope is given the name that its token stands for, and no other. -/
theorem mem_names_apply {a : Assignment} (ha : Functional a) {reference : Text} {t : Token}
    {axis : Axis} (h : (t, axis) ∈ axes (Text.tokens reference)) {name : Text} :
    name ∈ (a.apply (unresolvedScope (t, axis))).names ↔ ∃ u, (u, name) ∈ a ∧ u.same t = true := by
  have hassigns : ∀ name, a.Assigns (unresolvedScope (t, axis)) name ↔
      ∃ u, (u, name) ∈ a ∧ u.same t = true := by
    intro name
    rw [unresolvedScope_eq h]
    constructor
    · rintro ⟨u, written, hwritten, hu, halike⟩
      obtain rfl := Option.some.inj hwritten
      exact ⟨u, hu, Token.alike_text ▸ halike⟩
    · rintro ⟨u, hu, hsame⟩
      exact ⟨u, t.text, rfl, hu, Token.alike_text.trans hsame⟩
  rw [← hassigns]
  obtain ⟨other, hother, happly⟩ | ⟨hnone, happly⟩ := a.apply_cases (unresolvedScope (t, axis))
  · have hnames : (a.apply (unresolvedScope (t, axis))).names = [other] := by
      rw [happly, unresolvedScope_eq h]
      rfl
    rw [hnames, List.mem_singleton]
    exact ⟨fun heq => heq ▸ hother, fun hname => ha.eq hname hother⟩
  · have hnames : (a.apply (unresolvedScope (t, axis))).names = [] := by
      rw [happly, unresolvedScope_eq h]
      rfl
    rw [hnames]
    exact iff_of_false List.not_mem_nil (hnone name)

theorem keepsKind_iff {c : Candidates} {s : Scope} {axis : Axis} (h : s.kind = axis.scopeKind) :
    s.KeepsKind c ↔ ∀ name ∈ s.names, name ∈ c.names axis := by
  cases axis with
  | scenario =>
    refine ⟨fun hs => hs.scenarios h, fun hnames => ⟨fun _ => hnames, fun hevent => ?_⟩⟩
    cases h.symm.trans hevent
  | event =>
    refine ⟨fun hs => hs.events h, fun hnames => ⟨fun hscenario => ?_, fun _ => hnames⟩⟩
    cases h.symm.trans hscenario

/-- A file has a scope for each token of an axis, of the kind of the axis. -/
theorem map_fileScopes (c : Candidates) (reference : Text) (path : Path) :
    (fileScopes c reference path).map (fun s => (s.kind, s.token)) =
      (axes (Text.tokens reference)).map fun t => (t.2.scopeKind, some t.1.text) := by
  have hunresolved : ∀ t ∈ axes (Text.tokens reference),
      ((unresolvedScope t).kind, (unresolvedScope t).token) = (t.2.scopeKind, some t.1.text) := by
    rintro ⟨t, axis⟩ ht
    rw [unresolvedScope_eq ht]
    rfl
  obtain ⟨-, heq⟩ | ⟨a, -, heq⟩ := fileScopes_cases c reference path
  · rw [heq, List.map_map]
    exact List.map_congr_left hunresolved
  · rw [heq, List.map_map]
    refine List.map_congr_left fun t ht => ?_
    rw [← hunresolved t ht, Function.comp_apply, apply_eq]

/-- Every name that a scope of a file is given is a candidate for the tokens of the reference. -/
theorem mem_candidatesFor {c : Candidates} {reference : Text} {path : Path} {s : Scope}
    (hs : s ∈ fileScopes c reference path) {name : Text} (hname : name ∈ s.names) :
    name ∈ candidatesFor c reference := by
  obtain ⟨-, heq⟩ | ⟨a, ha, heq⟩ := fileScopes_cases c reference path
  · rw [heq] at hs
    obtain ⟨⟨t, axis⟩, ht, rfl⟩ := List.mem_map.mp hs
    rw [unresolvedScope_eq ht] at hname
    cases hname
  · rw [heq] at hs
    obtain ⟨⟨t, axis⟩, ht, rfl⟩ := List.mem_map.mp hs
    obtain ⟨u, hu, -⟩ := (mem_names_apply ha.functional ht).mp hname
    exact (ha.mem hu).2

/-- The scopes of a file have names of their kinds only, unless the first assignment under which the
reference names the file gives a token a name that is not on its axis. -/
theorem keepsKind_fileScopes_iff (c : Candidates) (reference : Text) (path : Path) :
    (∀ s ∈ fileScopes c reference path, s.KeepsKind c) ↔ ¬ Crosses c reference path := by
  have hkind : ∀ {t axis}, (t, axis) ∈ axes (Text.tokens reference) →
      (unresolvedScope (t, axis)).kind = axis.scopeKind := fun h => by
    rw [unresolvedScope_eq h]
    rfl
  obtain ⟨hnone, heq⟩ | ⟨a, ha, heq⟩ := fileScopes_cases c reference path
  · refine iff_of_true (fun s hs => ?_) fun ⟨a, ha, _⟩ => hnone ⟨a, ha⟩
    rw [heq] at hs
    obtain ⟨⟨t, axis⟩, ht, rfl⟩ := List.mem_map.mp hs
    rw [keepsKind_iff (hkind ht), unresolvedScope_eq ht]
    exact nofun
  · rw [heq]
    constructor
    · rintro hkeeps ⟨b, hb, u, name, axis, index, hu, haxis, hname⟩
      obtain rfl := ha.eq hb
      obtain ⟨t, ht, hsame, hsameAxis⟩ := exists_same_of_mem_filePart (hb.mem hu).1
      have haxes : (t, axis) ∈ axes (Text.tokens reference) :=
        mem_axes.mpr ⟨ht, index, hsameAxis.trans haxis⟩
      have hscope := hkeeps _ (List.mem_map_of_mem haxes)
      rw [keepsKind_iff ((kind_apply a _).trans (hkind haxes))] at hscope
      exact hname (hscope name ((mem_names_apply hb.functional haxes).mpr
        ⟨u, hu, Token.same_symm hsame⟩))
    · intro hcrosses s hs
      obtain ⟨⟨t, axis⟩, ht, rfl⟩ := List.mem_map.mp hs
      rw [keepsKind_iff ((kind_apply a _).trans (hkind ht))]
      intro name hname
      obtain ⟨u, hu, hsame⟩ := (mem_names_apply ha.functional ht).mp hname
      obtain ⟨-, index, haxis⟩ := mem_axes.mp ht
      by_contra hnot
      exact hcrosses ⟨a, ha, u, name, axis, index, hu, (Token.axis?_congr hsame).trans haxis, hnot⟩

theorem candidatesOf_eq (c : Candidates) {axes : List Axis} {axis : Axis} (hsome : axes ≠ [])
    (h : ∀ b ∈ axes, b = axis) : candidatesOf c axes = c.names axis := by
  have hall : axes.all (· = axis) = true := List.all_eq_true.mpr fun b hb => decide_eq_true (h b hb)
  rw [candidatesOf]
  cases axis with
  | scenario => exact if_pos hall
  | event =>
    rw [if_neg, if_pos hall]
    · rfl
    · obtain ⟨b, hb⟩ := List.exists_mem_of_ne_nil axes hsome
      intro hscenario
      have hb' := of_decide_eq_true (List.all_eq_true.mp hscenario b hb)
      cases (h b hb).symm.trans hb'

/-- The tokens of a reference that has tokens of one axis only are not given names of the other. -/
theorem not_crosses_of_axis {c : Candidates} {reference : Text} {path : Path} {axis : Axis}
    (h : ∀ t ∈ Text.tokens reference, t.axis?.map Prod.fst = some axis) :
    ¬ Crosses c reference path := by
  rintro ⟨a, ha, u, name, other, index, hu, haxis, hname⟩
  obtain ⟨hu, hcandidate⟩ := ha.mem hu
  obtain ⟨t, ht, -, hsame⟩ := exists_same_of_mem_filePart hu
  have hone := h t ht
  rw [hsame, haxis] at hone
  obtain rfl := Option.some.inj hone
  have hall : ∀ b ∈ (axes (Text.tokens reference)).map (·.2), b = other := by
    intro b hb
    obtain ⟨⟨v, b⟩, hv, rfl⟩ := List.mem_map.mp hb
    obtain ⟨hv, i, hi⟩ := mem_axes.mp hv
    have hone := h v hv
    rw [hi] at hone
    exact Option.some.inj hone
  have hsome : (axes (Text.tokens reference)).map (·.2) ≠ [] :=
    List.ne_nil_of_mem (List.mem_map_of_mem (mem_axes.mpr ⟨ht, index, hsame.trans haxis⟩))
  rw [candidatesFor, candidatesOf_eq c hsome hall] at hcandidate
  exact hname hcandidate

/-! ## The whole tree -/

mutual

theorem all_assignFile (c : Candidates) : ∀ f : ControlFile,
    (assignFile c f).all = f.all.map (assignFile c)
  | ⟨path, kind, statements, findings⟩ => by
    rw [assignFile, ControlFile.all, ControlFile.all, List.map_cons, allOfStatements_assign c,
      assignFile]

theorem allOfStatements_assign (c : Candidates) : ∀ ss : List Statement,
    ControlFile.allOfStatements (assignStatements c ss) =
      (ControlFile.allOfStatements ss).map (assignFile c)
  | [] => rfl
  | ⟨_, _, _, value, _, _, scope, _, _, children⟩ :: rest => by
    rw [assignStatements, ControlFile.allOfStatements, ControlFile.allOfStatements,
      allOfChildren_assign c, allOfStatements_assign c rest, List.map_append]

theorem allOfChildren_assign (c : Candidates) (reference : Text) (scope : ScopeList) :
    ∀ ds : List Child, ControlFile.allOfChildren (assignChildren c reference scope ds) =
      (ControlFile.allOfChildren ds).map (assignFile c)
  | [] => rfl
  | ⟨path, _, .file f⟩ :: rest => by
    rw [assignChildren, assignContent, ControlFile.allOfChildren, ControlFile.allOfChildren,
      all_assignFile c f, allOfChildren_assign c reference scope rest, List.map_append]
  | ⟨path, _, .table t⟩ :: rest => by
    rw [assignChildren, assignContent, ControlFile.allOfChildren, ControlFile.allOfChildren,
      allOfChildren_assign c reference scope rest]
  | ⟨path, _, .failed why⟩ :: rest => by
    rw [assignChildren, assignContent, ControlFile.allOfChildren, ControlFile.allOfChildren,
      allOfChildren_assign c reference scope rest]

end

/-- The scopes of children add nothing to the names that a tree mentions. -/
theorem candidates_assignFile (c : Candidates) (f : ControlFile) :
    (assignFile c f).candidates = f.candidates := by
  have hfile : ∀ k f, Candidates.addFile k (assignFile c f) = Candidates.addFile k f := by
    intro k f
    rw [assignFile_eq, Candidates.addFile, List.foldl_map]
    rfl
  rw [ControlFile.candidates, all_assignFile, List.foldl_map]
  simp only [hfile]
  rfl

end Variants

open Variants

/-- A child of a loaded tree has the scopes of its statement, and one for each token of an axis that
the reference has, of the kind of the axis. All the names that it is given there are candidates for
the tokens; they are of the kinds of the scopes exactly if the first choice of candidates under
which the reference names the file gives no token a name of the other axis. It never does if all
tokens are of one axis. -/
theorem ControlFile.load_scopes {files : Files Id} {o : LoadOptions} {root : Path}
    {t f : ControlFile} {s : Statement} {d : Child} (h : ControlFile.load files o root = .ok t)
    (hf : f ∈ t.all) (hs : s ∈ f.statements) (hd : d ∈ s.children) :
    let reference := s.value.getD []
    ∃ given, d.scope = s.scope ++ given ∧
      given.map (fun s => (s.kind, s.token)) =
        (axes (Text.tokens reference)).map (fun t => (t.2.scopeKind, some t.1.text)) ∧
      (∀ scope ∈ given, ∀ name ∈ scope.names, name ∈ candidatesFor t.candidates reference) ∧
      ((∀ scope ∈ given, scope.KeepsKind t.candidates) ↔
        ¬ Crosses t.candidates reference d.path) ∧
      ∀ axis, (∀ u ∈ Text.tokens reference, u.axis?.map Prod.fst = some axis) →
        ¬ Crosses t.candidates reference d.path := by
  obtain ⟨f₀, -, rfl⟩ := Except.map_eq_ok.mp (ControlFile.load_eq_map.symm.trans h)
  rw [all_assignFile] at hf
  obtain ⟨f₁, -, rfl⟩ := List.mem_map.mp hf
  rw [assignFile_eq] at hs
  obtain ⟨s₁, -, rfl⟩ := List.mem_map.mp hs
  obtain ⟨d₁, -, rfl⟩ := List.mem_map.mp hd
  rw [candidates_assignFile]
  exact ⟨_, rfl, map_fileScopes _ _ _, fun scope hscope name hname =>
    mem_candidatesFor hscope hname, keepsKind_fileScopes_iff _ _ _, fun axis =>
    not_crosses_of_axis⟩

/-- A file for an event and a scenario, both of which it is named after. -/
theorem ControlFile.load_scopes_mixed :
    let store := Store.ofList [
      (⟨"/m/m.tcf"⟩, "Model Events == Q\nModel Scenarios == A\nGeometry Control File == " ++
        "<<~e1~>>\\geo_<<~s1~>>_<<~e~>>.tgc\n"),
      (⟨"/m/Q/geo_A_Q.tgc"⟩, [])]
    let event : Scope := { Scope.ofNames .event ["Q"] with token := some "<<~e1~>>" }
    let scenario : Scope := { Scope.ofNames .scenario ["A"] with token := some "<<~s1~>>" }
    ∃ t f s d, ControlFile.load store.files .standard ⟨"/m/m.tcf"⟩ = .ok t ∧ f ∈ t.all ∧
      s ∈ f.statements ∧ d ∈ s.children ∧ d.scope = s.scope ++ [event, scenario] ∧
      (event.KeepsKind t.candidates ∧ scenario.KeepsKind t.candidates) ∧
      ¬ Crosses t.candidates (s.value.getD []) d.path := by
  intro store event scenario
  have hcheck : ((ControlFile.load store.files .standard ⟨"/m/m.tcf"⟩).toOption.any fun t =>
      t.candidates.events.contains "Q" && t.candidates.scenarios.contains "A" &&
      t.statements.any fun s =>
        s.children.any fun d => d.scope == s.scope ++ [event, scenario]) = true := by
    decide +kernel
  obtain ⟨t, hload, hcheck⟩ := Except.toOption_any_iff.mp hcheck
  simp only [Bool.and_eq_true, List.any_eq_true, beq_iff_eq, List.contains_iff_mem] at hcheck
  obtain ⟨⟨hevents, hscenarios⟩, s, hs, d, hd, hscope⟩ := hcheck
  have hroot : t ∈ t.all := by
    rw [ControlFile.all_eq]
    exact List.mem_cons_self
  have hkeeps : event.KeepsKind t.candidates ∧ scenario.KeepsKind t.candidates :=
    ⟨⟨nofun, fun _ => List.forall_mem_singleton.mpr hevents⟩,
      ⟨fun _ => List.forall_mem_singleton.mpr hscenarios, nofun⟩⟩
  obtain ⟨given, hgiven, -, -, hcrosses, -⟩ := ControlFile.load_scopes hload hroot hs hd
  obtain rfl := List.append_cancel_left (hscope.symm.trans hgiven)
  refine ⟨t, t, s, d, hload, hroot, hs, hd, hscope, hkeeps, hcrosses.mp ?_⟩
  simpa using hkeeps

/-- It does not hold that the scopes of children keep to the names of their kinds: between the names
of scenarios and those of events, a file can be named the other way around. -/
theorem not_forall_keepsKind :
    ¬ ∀ (files : List (Path × Text)) (o : LoadOptions) (root : Path) (t : ControlFile),
      ControlFile.load (Store.ofList files).files o root = .ok t →
        ∀ f ∈ t.all, ∀ s ∈ f.statements, ∀ d ∈ s.children, ∃ given, d.scope = s.scope ++ given ∧
          ∀ scope ∈ given, scope.KeepsKind t.candidates := by
  intro h
  let files : List (Path × Text) := [
    (⟨"/m/m.tcf"⟩, "Model Scenarios == A\nModel Events == Q\nGeometry Control File == " ++
      "geo_<<~s1~>>_<<~e1~>>.tgc\n"),
    (⟨"/m/geo_Q_A.tgc"⟩, [])]
  have hcheck : ((ControlFile.load (Store.ofList files).files .standard
      ⟨"/m/m.tcf"⟩).toOption.any fun t =>
        t.statements.any fun s =>
          s.children.any fun d =>
            (d.scope.drop s.scope.length).any fun scope => scope.kind == .scenario &&
              scope.names.any fun name => !t.candidates.scenarios.contains name) = true := by
    decide +kernel
  obtain ⟨t, hload, hcheck⟩ := Except.toOption_any_iff.mp hcheck
  simp only [Bool.and_eq_true, List.any_eq_true, beq_iff_eq, Bool.not_eq_true',
    ← Bool.not_eq_true, List.contains_iff_mem] at hcheck
  obtain ⟨s, hs, d, hd, scope, hscope, hkind, name, hname, hnot⟩ := hcheck
  have hroot : t ∈ t.all := by
    rw [ControlFile.all_eq]
    exact List.mem_cons_self
  obtain ⟨given, hgiven, hkeeps⟩ := h files .standard _ t hload t hroot s hs d hd
  rw [hgiven, List.drop_left] at hscope
  exact hnot ((hkeeps scope hscope).scenarios hkind name hname)

end ControlFiles
