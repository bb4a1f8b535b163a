import ControlFiles.Proofs.ControlFile.LostLines

/-!
# Lines put together from their parts

A line is put together by `Statement.compose` and taken apart by `Line.classify`. Taking apart
looks at the line without the blanks around it; these do not count for the parts
(`Line.parts_blank_append`, `Line.parts_append_blank`), so the parts of a composed line can be read
from left to right:

* `Line.IsCommand` is what holds of every command that is read: it stays the command in front of
  whatever value and comment (`IsCommand.parts_value`, `IsCommand.parts_comment`);
* `Line.classify_compose`: composing the parts of a line gives a line with these parts.
-/

namespace ControlFiles

namespace Text

/-- What follows the text does not change where it is cut. -/
theorem cut?_append_of_some {mark t before after : Text} (hm : mark ≠ [])
    (h : cut? mark t = some (before, after)) (b : Text) :
    cut? mark (t ++ b) = some (before, after ++ b) := by
  have hfirst : ¬ mark <:+: before ++ mark.dropLast := by
    refine not_infix_of_cut? h hm _ (List.dropLast_prefix mark) fun hlast => ?_
    have hlen := congrArg List.length hlast
    have hpos := List.length_pos_iff.mpr hm
    rw [List.length_dropLast] at hlen
    omega
  rw [cut?_eq_some h, List.append_assoc, List.append_assoc, cut?_append hm hfirst]

/-- Characters that are not in the mark do not complete it. -/
theorem not_infix_append {mark t b : Text} (hm : mark ≠ []) (hb : ∀ c ∈ b, c ∉ mark)
    (h : ¬ mark <:+: t) : ¬ mark <:+: t ++ b := by
  cases b with
  | nil => rwa [List.append_nil]
  | cons c b =>
    intro hwithin
    rcases infix_of_infix_append_cons (hb c List.mem_cons_self) hwithin with hwithin | hwithin
    · exact h hwithin
    · obtain ⟨d, hd⟩ := List.exists_mem_of_ne_nil mark hm
      exact hb d (List.mem_cons_of_mem c (hwithin.subset hd)) hd

/-- A blank is no part of the mark of a value. -/
theorem not_mem_mark_of_isBlank {c : Char} (h : isBlank c = true) : c ∉ ("==" : Text) := by
  intro hc
  obtain rfl : c = '=' := by simpa using hc
  exact absurd h (by decide)

/-- A blank does not start a comment. -/
theorem commentMarks_of_isBlank {c : Char} (h : isBlank c = true) :
    Line.commentMarks.contains c = false := by
  rw [← Bool.not_eq_true]
  intro hc
  obtain rfl | rfl : c = '!' ∨ c = '#' := by simpa [Line.commentMarks] using hc
  · exact absurd h (by decide)
  · exact absurd h (by decide)

theorem nonempty?_inj {s t : Text} : nonempty? s = nonempty? t ↔ s = t := by
  refine ⟨fun h => ?_, congrArg nonempty?⟩
  rw [nonempty?, nonempty?] at h
  split at h <;> split at h <;> simp_all

end Text

namespace Line

/-! ## Blanks around a line -/

/-- Text without a comment mark stands in front of the comment. -/
theorem splitComment_append {marks a : Text} (ha : ∀ c ∈ a, marks.contains c = false) (t : Text) :
    splitComment marks (a ++ t) =
      (a ++ (splitComment marks t).1, (splitComment marks t).2) := by
  have hbody : (a ++ t).takeWhile (fun c => !marks.contains c) =
      a ++ t.takeWhile fun c => !marks.contains c :=
    List.takeWhile_append_of_pos fun c hc => by rw [ha c hc]; rfl
  unfold splitComment
  simp only [hbody, List.length_append, List.drop_length_add_append]
  cases t.drop (t.takeWhile fun c => !marks.contains c).length <;> rfl

/-- Behind a comment mark nothing belongs to the front. -/
theorem splitComment_cons {marks : Text} {m : Char} (hm : marks.contains m = true) (t : Text) :
    splitComment marks (m :: t) = ([], some (Text.trim t)) := by
  unfold splitComment
  rw [List.takeWhile_cons_of_neg (by rw [hm]; decide)]
  rfl

/-- What stands in front of the comment holds no comment mark. -/
theorem splitComment_body {marks t : Text} {c : Char} (hc : c ∈ (splitComment marks t).1) :
    marks.contains c = false := by
  have hbody : (splitComment marks t).1 = t.takeWhile fun c => !marks.contains c := by
    unfold splitComment
    simp only
    split <;> rfl
  rw [hbody] at hc
  simpa using List.mem_takeWhile_imp hc

/-- A text either has no comment, or it has one behind its first mark. -/
theorem splitComment_cases (marks t : Text) : (∀ c ∈ t, marks.contains c = false) ∨
    ∃ front m comment, t = front ++ m :: comment ∧ (∀ c ∈ front, marks.contains c = false) ∧
      marks.contains m = true := by
  induction t with
  | nil => exact .inl fun c hc => absurd hc List.not_mem_nil
  | cons d t ih =>
    cases hd : marks.contains d with
    | true => exact .inr ⟨[], d, t, rfl, fun c hc => absurd hc List.not_mem_nil, hd⟩
    | false =>
      rcases ih with hnone | ⟨front, m, comment, rfl, hfront, hm⟩
      · exact .inl (List.forall_mem_cons.mpr ⟨hd, hnone⟩)
      · exact .inr ⟨d :: front, m, comment, rfl, List.forall_mem_cons.mpr ⟨hd, hfront⟩, hm⟩

theorem splitValue_blank_append {b : Text} (hb : ∀ c ∈ b, isBlank c = true) (t : Text) :
    splitValue (b ++ t) = splitValue t := by
  induction b with
  | nil => rfl
  | cons c b ih =>
    obtain ⟨hc, hb⟩ := List.forall_mem_cons.mp hb
    rw [← ih hb, List.cons_append]
    have hstart : ¬ ("==" : Text).isPrefixOf (c :: (b ++ t)) = true := fun h =>
      Text.not_mem_mark_of_isBlank hc
        (by rw [← (List.cons_prefix_cons.mp (List.isPrefixOf_iff_prefix.mp h)).1]; decide)
    unfold splitValue
    rw [Text.cut?, if_neg hstart, Text.trim_cons_blank hc]
    cases Text.cut? "==" (b ++ t) with
    | none => rfl
    | some parts =>
      simp only [Option.map_some, Text.trim_cons_blank hc]

theorem splitValue_append_blank {b : Text} (hb : ∀ c ∈ b, isBlank c = true) (t : Text) :
    splitValue (t ++ b) = splitValue t := by
  unfold splitValue
  cases hcut : Text.cut? "==" t with
  | none =>
    have hnone : Text.cut? "==" (t ++ b) = none := Text.cut?_eq_none_iff.mpr
      (Text.not_infix_append (by decide) (fun c hc => Text.not_mem_mark_of_isBlank (hb c hc))
        (Text.cut?_eq_none_iff.mp hcut))
    rw [hnone, Text.trim_append_blank hb]
  | some parts =>
    obtain ⟨before, after⟩ := parts
    rw [Text.cut?_append_of_some (by decide) hcut]
    simp only [Text.trim_append_blank hb]

/-- What a line says: its command, its value and its comment. -/
def parts (t : Text) : Option Text × Option Text × Option Text :=
  let (body, comment) := splitComment commentMarks t
  let (command, value) := splitValue body
  (command, value, comment)

theorem parts_blank_append {b : Text} (hb : ∀ c ∈ b, isBlank c = true) (t : Text) :
    parts (b ++ t) = parts t := by
  have hsplit := splitComment_append (fun c hc => Text.commentMarks_of_isBlank (hb c hc)) t
  simp only [parts, hsplit, splitValue_blank_append hb]

theorem parts_append_blank {b : Text} (hb : ∀ c ∈ b, isBlank c = true) (t : Text) :
    parts (t ++ b) = parts t := by
  rcases splitComment_cases commentMarks t with hnone | ⟨front, m, comment, rfl, hfront, hm⟩
  · have hblank : ∀ c ∈ b, commentMarks.contains c = false := fun c hc =>
      Text.commentMarks_of_isBlank (hb c hc)
    simp only [parts, splitComment_append hnone, splitComment_of_no_mark hnone,
      splitComment_of_no_mark hblank, splitValue_append_blank hb]
  · rw [List.append_assoc, List.cons_append]
    simp only [parts, splitComment_append hfront, splitComment_cons hm, Text.trim_append_blank hb]

/-- Blanks around a line do not count for its parts. -/
theorem parts_trim (t : Text) : parts (Text.trim t) = parts t := by
  obtain ⟨a, b, ha, hb, ht⟩ := Text.exists_eq_trim t
  conv_rhs => rw [ht, parts_blank_append ha, parts_append_blank hb]

/-- A line is its trimmed text with its parts, and the directive that these give. -/
theorem classify_eq (line : Text) : classify commentMarks line =
    { text := Text.trim line
      command := (parts line).1
      value := (parts line).2.1
      comment := (parts line).2.2
      directive := match (parts line).1 with
        | some c => Directive.ofCommand c (parts line).2.1
        | none => .none } := by
  rw [← parts_trim]
  rfl

/-! ## Commands -/

/-- The text is a command as it is read: trimmed and not empty, without a comment mark and without
`==`. -/
structure IsCommand (command : Text) : Prop where
  no_mark : ∀ c ∈ command, commentMarks.contains c = false
  no_value : ¬ ("==" : Text) <:+: command
  trim_eq : Text.trim command = command
  ne_nil : command ≠ []

theorem isCommand_of_parts {line command : Text} (h : (parts line).1 = some command) :
    IsCommand command := by
  have hsplit : (splitValue (splitComment commentMarks line).1).1 = some command := h
  obtain ⟨hsub, hmark, htrim⟩ := splitValue_command hsplit
  refine ⟨fun c hc => splitComment_body (hsub hc), hmark, htrim, ?_⟩
  unfold splitValue at hsplit
  split at hsplit <;> exact (Text.nonempty?_eq_some hsplit).2

theorem isCommand_of_classify {line command : Text}
    (h : (classify commentMarks line).command = some command) : IsCommand command := by
  rw [classify_eq] at h
  exact isCommand_of_parts h

theorem value_of_parts {line value : Text} (h : (parts line).2.1 = some value) :
    (∀ c ∈ value, commentMarks.contains c = false) ∧ Text.nonempty? (Text.trim value) = value := by
  have hsplit : (splitValue (splitComment commentMarks line).1).2 = some value := h
  refine ⟨fun c hc => splitComment_body (splitValue_value hsplit hc), ?_⟩
  unfold splitValue at hsplit
  split at hsplit
  · obtain ⟨rfl, hne⟩ := Text.nonempty?_eq_some hsplit
    rw [Text.trim_trim, Text.nonempty?_of_ne_nil hne]
  · cases hsplit

theorem comment_of_parts (line : Text) : (parts line).2.2.map Text.trim = (parts line).2.2 := by
  have hcomment : (parts line).2.2 = (splitComment commentMarks line).2 := rfl
  rw [hcomment]
  unfold splitComment
  simp only
  split
  · rfl
  · simp only [Option.map_some, Text.trim_trim]

/-! ## Composed lines -/

/-- A comment as it stands behind the rest of a line. -/
def commentText : Option Text → Text
  | some comment => " ! " ++ Text.trim comment
  | none => []

theorem compose_some (command value : Text) (comment : Option Text) :
    Statement.compose command (some value) comment =
      Text.trim command ++ (" == " ++ (Text.trim value ++ commentText comment)) := by
  cases comment <;> simp [Statement.compose, commentText]

theorem compose_none (command : Text) (comment : Option Text) :
    Statement.compose command none comment = Text.trim command ++ commentText comment := by
  cases comment <;> simp [Statement.compose, commentText]

/-- In front of a comment stands a blank. -/
theorem splitComment_commentText (comment : Option Text) :
    ∃ b : Text, (∀ c ∈ b, isBlank c = true) ∧
      splitComment commentMarks (commentText comment) = (b, comment.map Text.trim) := by
  cases comment with
  | none => exact ⟨[], by simp, rfl⟩
  | some comment =>
    refine ⟨" ", by decide, ?_⟩
    have hmark : ∀ c ∈ (" " : Text), commentMarks.contains c = false := by decide
    have hsplit := splitComment_append hmark ('!' :: ' ' :: Text.trim comment)
    rw [splitComment_cons (by decide), Text.trim_cons_blank (by decide), Text.trim_trim] at hsplit
    exact hsplit

theorem IsCommand.splitValue_eq {command : Text} (h : IsCommand command) :
    splitValue command = (some command, none) := by
  rw [splitValue, Text.cut?_eq_none_iff.mpr h.no_value]
  simp only [h.trim_eq, Text.nonempty?_of_ne_nil h.ne_nil]

theorem IsCommand.splitValue_append {command : Text} (h : IsCommand command) (value : Text) :
    splitValue (command ++ (" == " ++ value)) =
      (some command, Text.nonempty? (Text.trim value)) := by
  have hfirst : ¬ ("==" : Text) <:+: (command ++ [' ']) ++ ['='] := fun hwithin => by
    rw [List.append_assoc] at hwithin
    rcases Text.infix_of_infix_append_cons (by decide) hwithin with hwithin | hwithin
    · exact h.no_value hwithin
    · exact absurd hwithin (by decide)
  have hcut := Text.cut?_append (by decide) hfirst (' ' :: value)
  have hassoc : command ++ ((" == " : Text) ++ value) =
      (command ++ [' ']) ++ ("==" ++ ' ' :: value) := by simp
  rw [splitValue, hassoc, hcut]
  simp only [Text.trim_append_blank (show ∀ c ∈ [' '], isBlank c = true by decide), h.trim_eq,
    Text.nonempty?_of_ne_nil h.ne_nil, Text.trim_cons_blank (show isBlank ' ' = true by decide)]

/-- A command in front of a comment is read again. -/
theorem IsCommand.parts_comment {command : Text} (h : IsCommand command) (comment : Option Text) :
    parts (command ++ commentText comment) = (some command, none, comment.map Text.trim) := by
  obtain ⟨b, hb, hsplit⟩ := splitComment_commentText comment
  simp only [parts, splitComment_append h.no_mark, hsplit, splitValue_append_blank hb,
    h.splitValue_eq]

/-- A command in front of `==` is read again. The value is what follows up to the first comment
mark, and the comment is the rest. -/
theorem IsCommand.parts_value {command : Text} (h : IsCommand command) (behind : Text) :
    parts (command ++ (" == " ++ behind)) =
      (some command, Text.nonempty? (Text.trim (splitComment commentMarks behind).1),
        (splitComment commentMarks behind).2) := by
  have hfront : ∀ c ∈ command ++ (" == " : Text), commentMarks.contains c = false :=
    List.forall_mem_append.mpr ⟨h.no_mark, by decide⟩
  have hsplit := splitComment_append hfront behind
  rw [List.append_assoc, List.append_assoc] at hsplit
  simp only [parts, hsplit, h.splitValue_append]

/-- Whatever the value and the comment, the command is read again. -/
theorem IsCommand.parts_compose_some {command : Text} (h : IsCommand command) (value : Text)
    (comment : Option Text) : parts (Statement.compose command (some value) comment) =
      (some command,
        Text.nonempty? (Text.trim
          (splitComment commentMarks (Text.trim value ++ commentText comment)).1),
        (splitComment commentMarks (Text.trim value ++ commentText comment)).2) := by
  rw [compose_some, h.trim_eq, h.parts_value]

/-- A value is read again in front of a comment exactly if it has no comment mark, and then the
comment is, too. -/
theorem splitComment_value_iff (value : Text) (comment : Option Text) :
    (Text.nonempty? (Text.trim
        (splitComment commentMarks (Text.trim value ++ commentText comment)).1) =
        Text.nonempty? (Text.trim value) ∧
      (splitComment commentMarks (Text.trim value ++ commentText comment)).2 =
        comment.map Text.trim) ↔ ∀ c ∈ Text.trim value, commentMarks.contains c = false := by
  constructor
  · rintro ⟨hvalue, -⟩
    rcases splitComment_cases commentMarks (Text.trim value) with
      hnone | ⟨front, m, behind, hsplit, hfront, hm⟩
    · exact hnone
    · -- what is read ends in front of the mark, so it is shorter
      rw [hsplit, List.append_assoc, List.cons_append, splitComment_append hfront,
        splitComment_cons hm, List.append_nil, ← hsplit] at hvalue
      have hlength := congrArg List.length (Text.nonempty?_inj.mp hvalue)
      have hle := (Text.trim_infix front).length_le
      rw [hlength, hsplit, List.length_append, List.length_cons] at hle
      omega
  · intro hmark
    obtain ⟨b, hb, hsplit⟩ := splitComment_commentText comment
    rw [splitComment_append hmark, hsplit, Text.trim_append_blank hb, Text.trim_trim]
    exact ⟨rfl, rfl⟩

/-- The parts of a composed line are those it is composed of. -/
theorem parts_compose {line command : Text} (h : (parts line).1 = some command) :
    parts (Statement.compose command (parts line).2.1 (parts line).2.2) = parts line := by
  have hcommand := isCommand_of_parts h
  have hcomment := comment_of_parts line
  have hparts : parts line = (some command, (parts line).2.1, (parts line).2.2) :=
    Prod.ext h rfl
  cases hvalue : (parts line).2.1 with
  | none =>
    rw [compose_none, hcommand.trim_eq, hcommand.parts_comment, hcomment, ← hvalue, ← hparts]
  | some value =>
    obtain ⟨hmark, hread⟩ := value_of_parts hvalue
    obtain ⟨hback, hcomment'⟩ := (splitComment_value_iff value (parts line).2.2).mpr
      fun c hc => hmark c (Text.mem_of_mem_trim hc)
    rw [hcommand.parts_compose_some, hback, hcomment', hread, hcomment, ← hvalue, ← hparts]

/-- Composing the parts of a line that has a command, and taking the outcome apart, gives these
parts again, with the same directive and as a statement of the same kind: only the text around the
parts can be another. -/
theorem classify_compose {line command : Text}
    (h : (classify commentMarks line).command = some command) :
    let l := classify commentMarks line
    let composed := Statement.compose command l.value l.comment
    classify commentMarks composed = { l with text := Text.trim composed } ∧
      (classify commentMarks composed).statementKind = l.statementKind := by
  have hparts : parts (Statement.compose command (parts line).2.1 (parts line).2.2) = parts line :=
    parts_compose (by rw [classify_eq] at h; exact h)
  have hline : classify commentMarks (Statement.compose command (parts line).2.1 (parts line).2.2) =
      { classify commentMarks line with
        text := Text.trim (Statement.compose command (parts line).2.1 (parts line).2.2) } := by
    rw [classify_eq, classify_eq, hparts]
  intro l composed
  have hcomposed : composed =
      Statement.compose command (parts line).2.1 (parts line).2.2 := by
    simp only [composed, l, classify_eq]
  rw [hcomposed, hline]
  exact ⟨rfl, rfl⟩

/-- A run of `=`, another one behind it, a comment mark in the comment, and blanks of all sorts. -/
theorem classify_compose_runs :
    let line : Text := "  Set\tVariable  x === a == b !# c ! "
    ∃ command, (classify commentMarks line).command = some command ∧
      let l := classify commentMarks line
      let composed := Statement.compose command l.value l.comment
      composed = "Set\tVariable  x == = a == b ! # c !" ∧
        classify commentMarks composed = { l with text := Text.trim composed } ∧
        (classify commentMarks composed).statementKind = l.statementKind := by
  intro line
  have h : (classify commentMarks line).command = some ("Set\tVariable  x" : Text) := by
    decide +kernel
  exact ⟨_, h, by decide +kernel, classify_compose h⟩

end Line

end ControlFiles
