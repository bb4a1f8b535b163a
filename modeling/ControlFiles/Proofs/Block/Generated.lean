import ControlFiles.Proofs.Block.Headers
import ControlFiles.Proofs.Scope

/-!
# Headers that are generated

A scope that was not read from a file gets a header that is made from its kind, its qualifier and
its names. What a header asked that was read can be asked in a generated header
(`Line.openable_of_header`), and this is read as a header that asks the same for the same names: one
that opens a block (`Scope.readAs_openText`), one that begins a branch (`Scope.readAs_elseText`).
-/

namespace ControlFiles

/-! ## Names -/

/-- Names that a header can list, no two of them alike, and none with a wildcard token. -/
structure Listing (names : List Text) : Prop where
  isListed : ∀ name ∈ names, name.IsListed
  plain : PlainNames names
  distinct : (names.map Text.lower).Nodup

namespace Listing

theorem isName {names : List Text} (h : Listing names) : ∀ name ∈ names, Text.IsName name :=
  fun name hname => (h.isListed name hname).isName

theorem addNew_eq {names : List Text} (h : Listing names) : Text.addNew [] names = names :=
  Text.addNew_of_nodup h.distinct

/-- The names of a header without repetitions. -/
theorem addNew {names : List Text} (h : ∀ name ∈ names, name.IsListed) (hplain : PlainNames names) :
    Listing (Text.addNew [] names) := by
  have hmem : ∀ name ∈ Text.addNew [] names, name ∈ names := fun name hname =>
    (Text.mem_addNew hname).resolve_left List.not_mem_nil
  exact ⟨fun name hname => h name (hmem name hname),
    fun name hname => hplain name (hmem name hname), Text.nodup_addNew (by simp) names⟩

theorem of_append_right {names more : List Text} (h : Listing (names ++ more)) : Listing more where
  isListed := fun name hname => h.isListed name (List.mem_append_right names hname)
  plain := fun name hname => h.plain name (List.mem_append_right names hname)
  distinct := by
    have hdistinct := h.distinct
    rw [List.map_append] at hdistinct
    exact (List.nodup_append.mp hdistinct).2.1

end Listing

/-! ## Lines that are read as headers -/

/-- The text can be written as a line, and is read as a line with the directive. -/
def Text.ReadAs (t : Text) (d : Directive) : Prop :=
  t.IsLine ∧ (Line.classify Line.commentMarks t).directive = d

/-- A phrase with names behind it is read as the directive of its words. -/
theorem Text.IsPhrase.readAs {ws names : List Text} (hws : Text.IsPhrase ws)
    (hnames : ∀ name ∈ names, name.IsListed) (hne : names ≠ []) :
    (Text.join " " ws ++ " == " ++ Text.join " | " names).ReadAs
      (.ofWords (Text.join " " ws) ws (some (Text.join " | " names))) := by
  obtain ⟨hunmarked, hmark, htrim, hcommand⟩ := hws.isCommand
  have hisName : ∀ name ∈ names, Text.IsName name := fun name hname => (hnames name hname).isName
  have hvalue := Text.unmarked_join hnames
  have hjoin : Text.join " | " names ≠ [] := mt (Text.join_eq_nil_iff hisName).mp hne
  have htrimmed := Line.trim_assignment htrim hcommand (Text.trim_join hisName) hjoin
  refine ⟨?_, ?_⟩
  · rw [← htrimmed]
    refine Text.isLine_trim fun hfeed => ?_
    exact (((hunmarked.append (by decide)).append hvalue) _ hfeed).2 rfl
  · rw [Line.classify_assignment hunmarked hmark htrim hcommand hvalue (Text.trim_join hisName),
      Text.nonempty?_of_ne_nil hjoin]
    show Directive.ofCommand (Text.join " " ws) _ = _
    rw [Directive.ofCommand, Text.words_join hws.isWord]

theorem Closing.readAs (closing : Closing) : closing.text.ReadAs (.close closing) := by
  cases closing <;> exact ⟨⟨by decide +kernel, by decide +kernel⟩, by decide +kernel⟩

/-! ## Questions -/

theorem Directive.ofWords_define {ws : List Text} (hne : ws ≠ []) (command names : Text) :
    ofWords command ("Define" :: ws) (some names) =
      .opening (definition ws names) := by
  obtain ⟨w, ws, rfl⟩ := List.exists_cons_of_ne_nil hne
  rfl

namespace Question

/-- The command of a header that opens a block with names. -/
def opener (q : Question) : Text :=
  match q.kind with
  | .scenario | .event | .userVariable => q.command
  | .eventVariable => "Define Event"
  | .outputZone => "Define Output Zone"
  | .controlBlock => "Define " ++ q.qualifier.getD []
  | .oneDimDomain | .global => []

/-- A header that asks the question for some names. -/
def header (q : Question) (names : List Text) : Header :=
  ⟨q.kind, Text.join " | " names, q.qualifier⟩

/-- The words `ws` with names behind them open a block that asks the question. -/
structure AskedBy (q : Question) (ws : List Text) : Prop where
  isPhrase : Text.IsPhrase ws
  opener : q.opener = Text.join " " ws
  opens : ∀ command names,
    Directive.ofWords command ws (some names) = .opening ⟨q.kind, names, q.qualifier⟩
  readable : q.kind.canBranch = true → q.Readable

/-- The question can be asked in a header that opens a block. -/
def Openable (q : Question) : Prop := q = ⟨.oneDimDomain, none⟩ ∨ ∃ ws, q.AskedBy ws

/-- The question of a condition is asked by words that can stand behind `Else`. -/
theorem Readable.askedBy {q : Question} (h : q.Readable) : ∃ ws, q.AskedBy ws ∧
    ∀ command names, Directive.ofWords command ("Else" :: ws) (some names) =
      .elseIf ⟨q.kind, names, q.qualifier⟩ := by
  obtain ⟨ws, hws, hcommand, hopens, -, helse⟩ := h.exists_phrase
  have hopener : q.opener = q.command := by
    rcases h.cases with rfl | rfl | ⟨w, rfl, -⟩ <;> rfl
  exact ⟨ws, ⟨hws, hopener.trans hcommand, hopens, fun _ => h⟩, helse⟩

/-- The question of a definition is asked by a definition. -/
theorem askedBy_definition {ws : List Text} (hne : ws ≠ []) (hws : ∀ w ∈ ws, w.IsWord)
    (names : Text) : ∃ vs, (Directive.definition ws names).question.AskedBy vs := by
  have hdefinition : ∀ names, Directive.definition ws names =
      if Text.lower (Text.join " " ws) = "event" then ⟨.eventVariable, names, none⟩
      else if Text.lower (Text.join " " ws) = "output zone" ||
          Text.lower (Text.join " " ws) = "map output zone" then ⟨.outputZone, names, none⟩
      else ⟨.controlBlock, names, some (Text.join " " ws)⟩ := fun _ => rfl
  rw [hdefinition]
  split
  · exact ⟨["Define", "Event"], by decide +kernel, rfl, fun _ _ => rfl, nofun⟩
  · split
    · exact ⟨["Define", "Output", "Zone"], by decide +kernel, rfl, fun _ _ => rfl, nofun⟩
    · rename_i hevent hzone
      have hjoin : Text.join " " ("Define" :: ws) = "Define" ++ ' ' :: Text.join " " ws :=
        Text.join_cons hne
      refine ⟨"Define" :: ws, .cons (by decide +kernel) hws, hjoin.symm, fun command names => ?_,
        nofun⟩
      rw [Directive.ofWords_define hne, hdefinition, if_neg hevent, if_neg hzone]
      rfl

theorem AskedBy.isAnonymous {q : Question} {ws : List Text} (h : q.AskedBy ws) :
    q.kind.isAnonymous = false := by
  have hopener : q.opener ≠ [] := by
    rw [h.opener]
    exact h.isPhrase.isCommand.nonempty
  obtain ⟨kind, qualifier⟩ := q
  cases kind with
  | global => exact absurd rfl hopener
  | oneDimDomain => exact absurd rfl hopener
  | _ => rfl

theorem Openable.readable {q : Question} (h : q.Openable) (hbranch : q.kind.canBranch = true) :
    q.Readable := by
  rcases h with rfl | ⟨ws, hws⟩
  · cases hbranch
  · exact hws.readable hbranch

theorem Readable.openable {q : Question} (h : q.Readable) : q.Openable :=
  let ⟨ws, hws, _⟩ := h.askedBy
  .inr ⟨ws, hws⟩

theorem Readable.canBranch {q : Question} (h : q.Readable) : q.kind.canBranch = true := by
  rcases h.cases with rfl | rfl | ⟨w, rfl, -⟩ <;> rfl

end Question

/-- What a header asks that was read can be asked again, for the same names. -/
theorem Line.openable_of_header {line : Text} (hfeed : '\n' ∉ line) {h : Header}
    (hh : (classify commentMarks line).directive.header? = some h) :
    h.question.Openable ∧ (∀ name ∈ h.nameList, name.IsListed) ∧
      (h.kind.isAnonymous = true → h.nameList = []) := by
  rw [classify_directive] at hh
  split at hh
  · rename_i c hcommand
    obtain ⟨hunmarked, hmark, -⟩ := classify_command hfeed hcommand
    have hwords : ∀ k, ∀ w ∈ (Text.words c).drop k, w.IsWord := fun k w hw =>
      Text.isWord_of_mem_words hunmarked hmark (List.mem_of_mem_drop hw)
    have hlisted : ∀ names, (classify commentMarks line).value = some names →
        ∀ name ∈ Text.alternatives names, name.IsListed := fun names hvalue name hname =>
      Text.isListed_of_mem_alternatives (classify_value hfeed hvalue) hname
    have hasked : ∀ {ws}, h.question.AskedBy ws → h.kind.isAnonymous = true → h.nameList = [] :=
      fun hws hanonymous => by
        rw [show h.kind.isAnonymous = false from hws.isAnonymous] at hanonymous
        cases hanonymous
    rcases Directive.ofWords_header_cases hh with ⟨start, -, -, hcondition⟩ | rfl |
      ⟨names, hvalue, hne, -, rfl⟩
    · obtain ⟨hreadable, hvalue⟩ := Directive.condition_ok hcondition (hwords start.length)
      obtain ⟨ws, hws, -⟩ := hreadable.askedBy
      exact ⟨.inr ⟨ws, hws⟩, hlisted h.names hvalue, hasked hws⟩
    · exact ⟨.inl rfl, nofun, fun _ => rfl⟩
    · obtain ⟨ws, hws⟩ := Question.askedBy_definition hne (hwords 1) names
      refine ⟨.inr ⟨ws, hws⟩, ?_, hasked hws⟩
      rw [Header.nameList, Directive.definition_names]
      exact hlisted names hvalue
  · cases hh

/-! ## Scopes that were not read from a file -/

namespace Scope

/-- The scope that asks a question for some names. -/
def asking (q : Question) (names : List Text) : Scope :=
  { ofNames q.kind names with qualifier := q.qualifier }

/-- The scope of the branches behind some that used up the names. -/
def excluding (q : Question) (names : List Text) (fromElse : Bool) : Scope :=
  { asking q names with negated := true, fromElse }

section
variable (q : Question) (names : List Text) (fromElse : Bool)

@[simp] theorem asking_kind : (asking q names).kind = q.kind := rfl

@[simp] theorem asking_qualifier : (asking q names).qualifier = q.qualifier := rfl

@[simp] theorem asking_negated : (asking q names).negated = false := rfl

@[simp] theorem asking_source : (asking q names).source = none := rfl

@[simp] theorem excluding_kind : (excluding q names fromElse).kind = q.kind := rfl

@[simp] theorem excluding_qualifier : (excluding q names fromElse).qualifier = q.qualifier := rfl

@[simp] theorem excluding_negated : (excluding q names fromElse).negated = true := rfl

@[simp] theorem excluding_source : (excluding q names fromElse).source = none := rfl

@[simp] theorem alternatives_asking : (asking q names).alternatives = names := by
  cases names <;> rfl

@[simp] theorem alternatives_excluding : (excluding q names fromElse).alternatives = names := by
  cases names <;> rfl

end

theorem openText_asking {q : Question} {ws : List Text} (h : q.AskedBy ws) (names : List Text) :
    Level.openText (asking q names) = Text.join " " ws ++ " == " ++ Text.join " | " names := by
  have hanonymous := h.isAnonymous
  rw [Level.openText, namesText, alternatives_asking, ← h.opener]
  obtain ⟨kind, qualifier⟩ := q
  cases kind with
  | global => cases hanonymous
  | oneDimDomain => cases hanonymous
  | _ => rfl

/-- The header that is generated for a scope opens a block that asks the same. -/
theorem readAs_openText {q : Question} {names : List Text} (hq : q.Openable)
    (hnames : ∀ name ∈ names, name.IsListed) (hne : names = [] ↔ q.kind.isAnonymous = true) :
    (Level.openText (asking q names)).ReadAs (.opening (q.header names)) := by
  rcases hq with rfl | ⟨ws, hws⟩
  · obtain rfl := hne.mpr rfl
    exact ⟨⟨by decide +kernel, by decide +kernel⟩, by decide +kernel⟩
  · have hne' : names ≠ [] := fun hnil => by simpa [hws.isAnonymous] using hne.mp hnil
    have h := hws.isPhrase.readAs hnames hne'
    rw [hws.opens] at h
    rw [openText_asking hws]
    exact h

/-- With `Else` in front it begins a branch that asks the same. -/
theorem readAs_elseText {q : Question} {names : List Text} (hq : q.Readable)
    (hnames : ∀ name ∈ names, name.IsListed) (hne : names ≠ []) :
    Text.ReadAs ("Else " ++ Level.openText (asking q names)) (.elseIf (q.header names)) := by
  obtain ⟨ws, hws, helse⟩ := hq.askedBy
  have hphrase : Text.IsPhrase ("Else" :: ws) := .cons (by decide +kernel) hws.isPhrase.isWord
  have htext : ("Else " : Text) ++ Level.openText (asking q names) =
      Text.join " " ("Else" :: ws) ++ " == " ++ Text.join " | " names := by
    rw [openText_asking hws, Text.join_cons hws.isPhrase.nonempty]
    simp
  have h := hphrase.readAs hnames hne
  rw [helse] at h
  rw [htext]
  exact h

end Scope

theorem Text.readAs_else : Text.ReadAs "Else" .otherwise :=
  ⟨⟨by decide +kernel, by decide +kernel⟩, by decide +kernel⟩

end ControlFiles
