import ControlFiles.Proofs.Block.Levels
import ControlFiles.Proofs.Block.Pruning
import ControlFiles.Proofs.Line
import ControlFiles.Proofs.Template
import Mathlib.Data.List.Infix

/-!
# Headers that are read again

A header that was read asks a question that can be written again (`Line.readable_of_header`), and so
can the names that it lists. Hence a header that is made of names used before is read as it was made
exactly if it lists a name (`OpeningLine.reread_made_iff`); one that lists none is malformed.
-/

namespace ControlFiles

/-! ## Names and words -/

/-- A name that can stand in a header. -/
structure Text.IsListed (name : Text) : Prop where
  isName : name.IsName
  unmarked : name.Unmarked

/-- A word that can stand in the command of a header. -/
structure Text.IsWord (w : Text) : Prop where
  nonempty : w ≠ []
  noBlank : ∀ c ∈ w, isBlank c = false
  unmarked : w.Unmarked
  noMark : ¬ ("==" : Text) <:+: w

theorem Text.join_eq_nil_iff {names : List Text} (h : ∀ name ∈ names, Text.IsName name) :
    Text.join " | " names = [] ↔ names = [] := by
  refine ⟨fun hnil => ?_, fun hnil => by rw [hnil]; rfl⟩
  rw [← Text.alternatives_join h, hnil]
  rfl

theorem Text.unmarked_join {names : List Text} (h : ∀ name ∈ names, name.IsListed) :
    (Text.join " | " names).Unmarked := by
  intro c hc
  rcases Text.mem_join hc with hc | ⟨name, hname, hc⟩
  · have hsep : Text.Unmarked " | " := by decide
    exact hsep c hc
  · exact (h name hname).unmarked c hc

theorem Text.isListed_of_mem_alternatives {t name : Text} (ht : t.Unmarked)
    (h : name ∈ alternatives t) : name.IsListed :=
  ⟨isName_of_mem_alternatives h, ht.of_subset (mem_of_mem_alternatives h)⟩

theorem Text.IsListed.normalizeTokens {name : Text} (h : name.IsListed) :
    (Text.normalizeTokens name).IsListed := by
  refine ⟨h.isName.normalizeTokens, fun c hc => ?_⟩
  rcases (Text.normalizes name).mem hc with hc | rfl | hc
  · exact h.unmarked c hc
  · decide
  · have hletters : Text.Unmarked ['s', 'S', 'e', 'E', Char.ofNat 0x17F] := by decide
    exact hletters c (Token.mem_of_isAxisLetter hc)

theorem Text.isWord_of_mem_words {t w : Text} (hunmarked : t.Unmarked)
    (hmark : ¬ ("==" : Text) <:+: t) (h : w ∈ words t) : w.IsWord := by
  obtain ⟨hne, hblank, hwithin⟩ := (words_spec t).1 w h
  exact ⟨hne, hblank, hunmarked.of_subset hwithin.subset, fun hw => hmark (hw.trans hwithin)⟩

/-! ## Phrases -/

namespace Text

instance (w : Text) : Decidable w.IsWord :=
  decidable_of_iff
    (w ≠ [] ∧ (∀ c ∈ w, isBlank c = false) ∧ w.Unmarked ∧ ¬ ("==" : Text) <:+: w)
    ⟨fun ⟨hne, hblank, hunmarked, hmark⟩ => ⟨hne, hblank, hunmarked, hmark⟩,
      fun ⟨hne, hblank, hunmarked, hmark⟩ => ⟨hne, hblank, hunmarked, hmark⟩⟩

/-- The words of a command. -/
structure IsPhrase (ws : List Text) : Prop where
  nonempty : ws ≠ []
  isWord : ∀ w ∈ ws, w.IsWord

instance (ws : List Text) : Decidable (IsPhrase ws) :=
  decidable_of_iff (ws ≠ [] ∧ ∀ w ∈ ws, w.IsWord)
    ⟨fun ⟨hne, hws⟩ => ⟨hne, hws⟩, fun ⟨hne, hws⟩ => ⟨hne, hws⟩⟩

theorem IsPhrase.cons {w : Text} {ws : List Text} (hw : w.IsWord) (hws : ∀ v ∈ ws, v.IsWord) :
    IsPhrase (w :: ws) :=
  ⟨List.cons_ne_nil w ws, List.forall_mem_cons.mpr ⟨hw, hws⟩⟩

theorem join_cons {w : Text} {ws : List Text} (hne : ws ≠ []) :
    join " " (w :: ws) = w ++ ' ' :: join " " ws := by
  obtain ⟨v, ws, rfl⟩ := List.exists_cons_of_ne_nil hne
  simp [join, List.intercalate_cons_cons]

theorem IsWord.trim_eq {w : Text} (hw : w.IsWord) : trim w = w :=
  trim_eq_self_iff.mpr ⟨fun c hc => hw.noBlank c (List.mem_of_head? hc),
    fun c hc => hw.noBlank c (List.mem_of_getLast? hc)⟩

theorem words_join {ws : List Text} (h : ∀ w ∈ ws, w.IsWord) : words (join " " ws) = ws := by
  induction ws with
  | nil => rfl
  | cons w ws ih =>
    obtain ⟨hw, hws⟩ := List.forall_mem_cons.mp h
    cases hnil : ws with
    | nil =>
      rw [join_singleton]
      exact words_of_word hw.nonempty hw.noBlank
    | cons v vs =>
      have hne : ws ≠ [] := by simp [hnil]
      rw [← hnil, join_cons hne, words_append_blank hw.nonempty hw.noBlank (by decide), ih hws]

/-- A text that can stand in front of `==` in a header. -/
structure IsCommand (t : Text) : Prop where
  unmarked : t.Unmarked
  noMark : ¬ ("==" : Text) <:+: t
  trimmed : trim t = t
  nonempty : t ≠ []

theorem IsWord.isCommand {w : Text} (hw : w.IsWord) : w.IsCommand :=
  ⟨hw.unmarked, hw.noMark, hw.trim_eq, hw.nonempty⟩

theorem IsCommand.cons {w t : Text} (hw : w.IsWord) (ht : t.IsCommand) :
    (w ++ ' ' :: t).IsCommand where
  unmarked := hw.unmarked.append (Unmarked.append (s := [' ']) (by decide) ht.unmarked)
  noMark := fun hwithin => by
    rcases infix_of_infix_append_cons (by decide) hwithin with hwithin | hwithin
    · exact hw.noMark hwithin
    · exact ht.noMark hwithin
  trimmed := by
    refine trim_append hw.trim_eq hw.nonempty (fun c hc => ?_) (by simp)
    rw [← List.singleton_append, List.getLast?_append_of_ne_nil _ ht.nonempty] at hc
    exact (trim_eq_self_iff.mp ht.trimmed).2 c hc
  nonempty := by simp

/-- A phrase makes up a command. -/
theorem IsPhrase.isCommand {ws : List Text} (h : IsPhrase ws) : (join " " ws).IsCommand := by
  obtain ⟨hne, hws⟩ := h
  induction ws with
  | nil => exact absurd rfl hne
  | cons w ws ih =>
    obtain ⟨hw, hws⟩ := List.forall_mem_cons.mp hws
    by_cases hnil : ws = []
    · rw [hnil, join_singleton]
      exact hw.isCommand
    · rw [join_cons hnil]
      exact (ih hnil hws).cons hw

end Text

/-! ## Questions -/

namespace Question

/-- The question can be asked in a header: about an axis, or about a variable named by a word. -/
def Readable (q : Question) : Prop :=
  match q.kind with
  | .scenario | .event => q.qualifier = none
  | .userVariable => ∃ w : Text, q.qualifier = some w ∧ w.IsWord
  | _ => False

/-- The forms of a question that can be asked. -/
theorem Readable.cases {q : Question} (h : q.Readable) : q = ⟨.scenario, none⟩ ∨
    q = ⟨.event, none⟩ ∨ ∃ w : Text, q = ⟨.userVariable, some w⟩ ∧ w.IsWord := by
  obtain ⟨kind, qualifier⟩ := q
  cases kind with
  | scenario => exact .inl (congrArg _ h)
  | event => exact .inr (.inl (congrArg _ h))
  | userVariable =>
    obtain ⟨w, hw, hword⟩ := h
    exact .inr (.inr ⟨w, congrArg _ hw, hword⟩)
  | _ => cases h

/-- The words of a question that can be asked: with names behind them they open a block, without
names the header is malformed, and behind `Else` they begin a branch. -/
theorem Readable.exists_phrase {q : Question} (h : q.Readable) : ∃ ws, Text.IsPhrase ws ∧
    q.command = Text.join " " ws ∧
    (∀ command names, Directive.ofWords command ws (some names) =
      .opening ⟨q.kind, names, q.qualifier⟩) ∧
    (∀ command, Directive.ofWords command ws none = .malformed (.noNames q.kind)) ∧
    ∀ command names, Directive.ofWords command ("Else" :: ws) (some names) =
      .elseIf ⟨q.kind, names, q.qualifier⟩ := by
  rcases h.cases with rfl | rfl | ⟨w, rfl, hw⟩
  · exact ⟨["If", "Scenario"], by decide +kernel, rfl, fun _ _ => rfl, fun _ => rfl, fun _ _ => rfl⟩
  · exact ⟨["If", "Event"], by decide +kernel, rfl, fun _ _ => rfl, fun _ => rfl, fun _ _ => rfl⟩
  · have hws : ∀ v ∈ [("Variable" : Text), w], Text.IsWord v :=
      List.forall_mem_cons.mpr ⟨by decide +kernel, by simpa using hw⟩
    refine ⟨["If", "Variable", w], .cons (by decide +kernel) hws, ?_, fun _ _ => rfl, fun _ => rfl,
      fun _ _ => rfl⟩
    simp [command, Text.join, List.intercalate_cons_cons]

/-- A question that can be asked has a command that is read. -/
theorem Readable.isCommand {q : Question} (h : q.Readable) : q.command.IsCommand := by
  obtain ⟨ws, hws, hcommand, -⟩ := h.exists_phrase
  rw [hcommand]
  exact hws.isCommand

theorem Readable.ofCommand_some {q : Question} (h : q.Readable) (names : Text) :
    Directive.ofCommand q.command (some names) = .opening ⟨q.kind, names, q.qualifier⟩ := by
  obtain ⟨ws, hws, hcommand, hopens, -⟩ := h.exists_phrase
  rw [Directive.ofCommand, hcommand, Text.words_join hws.isWord, hopens]

/-- Without names the header is malformed. -/
theorem Readable.ofCommand_none {q : Question} (h : q.Readable) :
    Directive.ofCommand q.command none = .malformed (.noNames q.kind) := by
  obtain ⟨ws, hws, hcommand, -, hmalformed, -⟩ := h.exists_phrase
  rw [Directive.ofCommand, hcommand, Text.words_join hws.isWord, hmalformed]

end Question

/-! ## Headers that were read -/

namespace Directive

theorem conditionKind?_eq_some {ws : List Text} {kind : ScopeKind} {qualifier : Option Text}
    (h : conditionKind? ws = some (kind, qualifier)) (hws : ∀ w ∈ ws, w.IsWord) :
    Question.Readable ⟨kind, qualifier⟩ := by
  unfold conditionKind? at h
  split at h
  · split at h
    · obtain ⟨rfl, rfl⟩ := Prod.mk.inj (Option.some.inj h)
      rfl
    · split at h
      · obtain ⟨rfl, rfl⟩ := Prod.mk.inj (Option.some.inj h)
        rfl
      · cases h
  · rename_i word name
    split at h
    · obtain ⟨rfl, rfl⟩ := Prod.mk.inj (Option.some.inj h)
      exact ⟨name, rfl, hws name (by simp)⟩
    · cases h
  · cases h

theorem condition_ok {ws : List Text} {value : Option Text} {h : Header}
    (hc : condition ws value = .ok h) (hws : ∀ w ∈ ws, w.IsWord) :
    h.question.Readable ∧ value = some h.names := by
  unfold condition at hc
  split at hc
  · cases hc
  · cases hc
  · rename_i kind qualifier names hkind
    obtain rfl := Except.ok.inj hc
    exact ⟨conditionKind?_eq_some hkind hws, rfl⟩

/-- A header is that of a condition, of a domain or of a definition. -/
theorem ofWords_header_cases {command : Text} {ws : List Text} {value : Option Text} {h : Header}
    (hd : (ofWords command ws value).header? = some h) :
    (∃ start ∈ [[("if" : Text)], ["else", "if"]],
      ws.map Text.lower = start ++ (ws.drop start.length).map Text.lower ∧
        condition (ws.drop start.length) value = .ok h) ∨
    h = ⟨.oneDimDomain, [], Option.none⟩ ∨
      ∃ names, value = some names ∧ ws.drop 1 ≠ [] ∧
        ws.map Text.lower = ("define" : Text) :: (ws.drop 1).map Text.lower ∧
        h = definition (ws.drop 1) names := by
  cases ws with
  | nil => cases hd
  | cons w ws =>
    simp only [ofWords, List.map_cons, List.drop_succ_cons] at hd ⊢
    repeat' split at hd
    all_goals first
      | cases hd; done
      | skip
    · exact .inr (.inl (Option.some.inj hd).symm)
    · rename_i helse _ _ hcondition
      obtain rfl := Option.some.inj hd
      refine .inl ⟨["else", "if"], List.mem_cons_of_mem _ List.mem_cons_self, ?_, hcondition⟩
      simp only [Bool.and_eq_true, decide_eq_true_eq] at helse
      obtain ⟨⟨hw, hws⟩, -⟩ := helse
      cases ws with
      | nil => cases hws
      | cons w' ws =>
        rw [hw, List.map_cons, Option.some.inj hws]
        rfl
    · rename_i hif _ _ hcondition
      obtain rfl := Option.some.inj hd
      refine .inl ⟨["if"], List.mem_cons_self, ?_, hcondition⟩
      simp only [Bool.and_eq_true, decide_eq_true_eq] at hif
      rw [hif.1]
      rfl
    · rename_i hdefine _ names
      simp only [Bool.and_eq_true, decide_eq_true_eq] at hdefine
      refine .inr (.inr ⟨names, rfl, ?_, by rw [hdefine.1]; rfl, (Option.some.inj hd).symm⟩)
      rintro rfl
      exact hdefine.2 rfl

theorem definition_names (label : List Text) (names : Text) :
    (definition label names).names = names := by
  unfold definition
  simp only
  split
  · rfl
  · split <;> rfl

theorem definition_canBranch (label : List Text) (names : Text) :
    (definition label names).kind.canBranch = false := by
  unfold definition
  simp only
  split
  · rfl
  · split <;> rfl

/-- The header of a block with branches is that of a condition. -/
theorem ofWords_header {command : Text} {ws : List Text} {value : Option Text} {h : Header}
    (hd : (ofWords command ws value).header? = some h) (hbranch : h.kind.canBranch = true) :
    ∃ k, condition (ws.drop k) value = .ok h := by
  rcases ofWords_header_cases hd with ⟨start, -, -, hcondition⟩ | rfl | ⟨names, -, -, -, rfl⟩
  · exact ⟨_, hcondition⟩
  · cases hbranch
  · rw [definition_canBranch] at hbranch
    cases hbranch

end Directive

/-- The header of a block with branches, as it is read, can be written again. -/
theorem Line.readable_of_header {line : Text} (hfeed : '\n' ∉ line) {h : Header}
    (hh : (classify commentMarks line).directive.header? = some h)
    (hbranch : h.kind.canBranch = true) :
    h.question.Readable ∧ ∀ name ∈ h.nameList, name.IsListed := by
  rw [classify_directive] at hh
  split at hh
  · rename_i c hcommand
    obtain ⟨hunmarked, hmark, -⟩ := classify_command hfeed hcommand
    obtain ⟨k, hcondition⟩ := Directive.ofWords_header hh hbranch
    have hwords : ∀ w ∈ (Text.words c).drop k, w.IsWord := fun w hw =>
      Text.isWord_of_mem_words hunmarked hmark (List.mem_of_mem_drop hw)
    obtain ⟨hreadable, hvalue⟩ := Directive.condition_ok hcondition hwords
    exact ⟨hreadable, fun name hname =>
      Text.isListed_of_mem_alternatives (classify_value hfeed hvalue) hname⟩
  · cases hh

/-! ## Lines that are read again -/

namespace Line

/-- The line as it is read after it is written. -/
def reread (l : Line) : Line := classify commentMarks (l.written 0)

theorem trim_indent (depth : Nat) (t : Text) :
    Text.trim (Layout.indent depth t) = Text.trim t := by
  rw [Layout.indent]
  split
  · rename_i hnil
    rw [List.isEmpty_iff.mp hnil]
  · refine Text.trim_blank_append (fun c hc => ?_) t
    rw [List.eq_of_mem_replicate hc]
    decide

/-- How deep a line stands makes no difference. -/
theorem classify_written (depth : Nat) (l : Line) :
    classify commentMarks (l.written depth) = l.reread := by
  refine classify_congr _ ?_
  rw [written, written]
  split
  · rfl
  · rw [trim_indent, trim_indent]

theorem reread_of_not_blank {l : Line} (h : l.isBlankLine = false) :
    l.reread = classify commentMarks l.text := by
  refine classify_congr _ ?_
  rw [written, h, if_neg (by decide), trim_indent]

/-- A line that was read is read again, but for what stands in a blank line. -/
theorem reread_cleared (line : Text) : (classify commentMarks line).cleared.reread =
    (classify commentMarks line).cleared := by
  cases hblank : (classify commentMarks line).isBlankLine with
  | true =>
    rw [cleared, if_pos hblank]
    rfl
  | false =>
    rw [cleared, hblank, if_neg (by decide), reread_of_not_blank hblank]
    exact classify_congr _ (by rw [classify_text, Text.trim_trim])

theorem isBlankLine_of_header {l : Line} (h : l.directive ≠ .none) : l.isBlankLine = false := by
  simp [isBlankLine, h]

theorem cleared_of_header {l : Line} (h : l.directive ≠ .none) : l.cleared = l := by
  rw [cleared, isBlankLine_of_header h, if_neg (by decide)]

theorem statementKind_of_isBlankLine {l : Line} (h : l.isBlankLine = true) :
    l.statementKind = .blank := by
  simp only [isBlankLine, Bool.and_eq_true, Option.isNone_iff_eq_none] at h
  rw [statementKind, h.1.2, h.2]
  rfl

theorem cleared_of_statementKind {l : Line} (h : l.statementKind ≠ .blank) : l.cleared = l := by
  rw [cleared, if_neg (mt statementKind_of_isBlankLine h)]

theorem statementKind_cleared (l : Line) : l.cleared.statementKind = l.statementKind := by
  rw [cleared]
  split
  · rename_i hblank
    rw [statementKind_of_isBlankLine hblank]
    rfl
  · rfl

end Line

/-! ## Headers that are made -/

namespace Scope

/-- The name is a name or the token of the scope. -/
def Lists (s : Scope) (name : Text) : Prop := name ∈ s.names ∨ name ∈ s.token

theorem Lists.of_mem_alternatives {s : Scope} {name : Text} (h : name ∈ s.alternatives) :
    s.Lists name := by
  rw [alternatives] at h
  split at h
  · exact .inr (Option.mem_toList.mp h)
  · exact .inl h

theorem Lists.of_addAlternative {s : Scope} {part name : Text}
    (h : (s.addAlternative part).Lists name) :
    s.Lists name ∨ name = part ∨ name = Text.normalizeTokens part := by
  rw [addAlternative] at h
  split at h
  · split at h
    · rcases h with h | h
      · exact .inl (.inl h)
      · exact .inr (.inr (Option.mem_some.mp h).symm)
    · exact .inl h
  · rcases h with h | h
    · rcases Text.mem_addNew h with h | h
      · exact .inl (.inl h)
      · exact .inr (.inl (List.mem_singleton.mp h))
    · exact .inl (.inr h)

theorem Lists.of_foldl {parts : List Text} {s : Scope} {name : Text}
    (h : (parts.foldl addAlternative s).Lists name) :
    s.Lists name ∨ ∃ part ∈ parts, name = part ∨ name = Text.normalizeTokens part := by
  induction parts generalizing s with
  | nil => exact .inl h
  | cons first parts ih =>
    rcases ih h with h | ⟨part, hpart, h⟩
    · rcases h.of_addAlternative with h | h
      · exact .inl h
      · exact .inr ⟨first, List.mem_cons_self, h⟩
    · exact .inr ⟨part, List.mem_cons_of_mem _ hpart, h⟩

/-- The scope of a header asks for the names that the header lists, with their tokens spelled
out. -/
theorem mem_alternatives_ofText {kind : ScopeKind} {t name : Text}
    (h : name ∈ (ofText kind t).alternatives) :
    ∃ part ∈ Text.alternatives t, name = part ∨ name = Text.normalizeTokens part := by
  rcases (Lists.of_mem_alternatives h).of_foldl with (h | h) | h
  · cases h
  · cases h
  · exact h

end Scope

theorem Question.isListed_of_mem_listing {q : Question} {seen : List Text}
    (hseen : ∀ name ∈ seen, name.IsListed) : ∀ name ∈ q.listing seen, name.IsListed := by
  intro name hname
  obtain ⟨listed, hlisted, hname⟩ := Scope.mem_alternatives_ofText hname
  rw [Text.alternatives_join fun n hn => (hseen n hn).isName] at hlisted
  rcases hname with rfl | rfl
  · exact hseen _ hlisted
  · exact (hseen _ hlisted).normalizeTokens

theorem Question.isName_of_mem_listing {q : Question} {seen : List Text}
    (hseen : ∀ name ∈ seen, name.IsListed) : ∀ name ∈ q.listing seen, name.IsName :=
  fun name hname => (isListed_of_mem_listing hseen name hname).isName

namespace OpeningLine

section
variable {q : Question} {seen : List Text}

@[simp] theorem made_question : (made q seen).header.question = q := rfl

theorem made_nameList (hseen : ∀ name ∈ seen, name.IsListed) :
    (made q seen).header.nameList = q.listing seen :=
  Text.alternatives_join (Question.isName_of_mem_listing hseen)

theorem reread_made (hq : q.Readable) (hseen : ∀ name ∈ seen, name.IsListed) :
    (made q seen).line.reread = ⟨Text.trim (made q seen).line.text, some q.command,
      Text.nonempty? (Text.join " | " (q.listing seen)), none,
      Directive.ofCommand q.command (Text.nonempty? (Text.join " | " (q.listing seen)))⟩ := by
  obtain ⟨hunmarked, hmark, htrim, hne⟩ := hq.isCommand
  rw [Line.reread_of_not_blank (Line.isBlankLine_of_header (made q seen).not_plain)]
  exact Line.classify_assignment hunmarked hmark htrim hne
    (Text.unmarked_join (Question.isListed_of_mem_listing hseen))
    (Text.trim_join (Question.isName_of_mem_listing hseen))

/-- A made header that lists no name is malformed. -/
theorem malformed_made (hq : q.Readable) (hseen : ∀ name ∈ seen, name.IsListed)
    (hnil : q.listing seen = []) :
    (made q seen).line.reread.directive = .malformed (.noNames q.kind) := by
  rw [reread_made hq hseen, hnil]
  exact hq.ofCommand_none

/-- A made header is read as it was made exactly if it lists a name. -/
theorem reread_made_iff (hq : q.Readable) (hseen : ∀ name ∈ seen, name.IsListed) :
    (made q seen).line.reread = (made q seen).line ↔ q.listing seen ≠ [] := by
  refine ⟨fun h hnil => ?_, fun hne => ?_⟩
  · have hmalformed := malformed_made hq hseen hnil
    rw [h] at hmalformed
    cases hmalformed
  · have hne' : Text.join " | " (q.listing seen) ≠ [] :=
      mt (Text.join_eq_nil_iff (Question.isName_of_mem_listing hseen)).mp hne
    obtain ⟨-, -, htrim, hcommand⟩ := hq.isCommand
    have hvalue : Text.trim (Text.join " | " (q.listing seen)) = Text.join " | " (q.listing seen) :=
      Text.trim_join (Question.isName_of_mem_listing hseen)
    have htext : Text.trim (made q seen).line.text = (made q seen).line.text :=
      Line.trim_assignment htrim hcommand hvalue hne'
    rw [reread_made hq hseen, htext, Text.nonempty?_of_ne_nil hne', hq.ofCommand_some]
    rfl

theorem isLine_made (hq : q.Readable) (hseen : ∀ name ∈ seen, name.IsListed) :
    Text.IsLine (made q seen).line.text := by
  have hunmarked : (made q seen).line.text.Unmarked :=
    (hq.isCommand.unmarked.append (by decide)).append
      (Text.unmarked_join (Question.isListed_of_mem_listing hseen))
  refine ⟨fun hfeed => (hunmarked _ hfeed).2 rfl, fun hlast => ?_⟩
  have hvalue : Text.trim (Text.join " | " (q.listing seen)) = Text.join " | " (q.listing seen) :=
    Text.trim_join (Question.isName_of_mem_listing hseen)
  by_cases hnil : Text.join " | " (q.listing seen) = []
  · have htext : (made q seen).line.text = q.command ++ " == " := by
      show q.command ++ " == " ++ Text.join " | " (q.listing seen) = _
      rw [hnil, List.append_nil]
    rw [htext, List.getLast?_append_of_ne_nil _ (by decide)] at hlast
    revert hlast
    decide
  · have htext : (made q seen).line.text.getLast? = (Text.join " | " (q.listing seen)).getLast? :=
      List.getLast?_append_of_ne_nil (q.command ++ (" == " : Text)) hnil
    rw [htext] at hlast
    have hblank := (Text.trim_eq_self_iff.mp hvalue).2 '\r' hlast
    revert hblank
    decide

end

end OpeningLine

end ControlFiles
