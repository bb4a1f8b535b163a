import ControlFiles.Line
import ControlFiles.Proofs.Text.Parts

/-!
# Lines taken apart

What a line without a line feed gives away about its parts: command and value hold no comment mark,
and the command no `==` (`Line.classify_command`, `Line.classify_value`). The other way round, a
command and a value of this sort, set apart by `==`, are read again (`Line.classify_assignment`).
-/

namespace ControlFiles

namespace Text

/-- The text can stand in front of a comment: it has neither a comment mark nor a line feed. -/
def Unmarked (t : Text) : Prop := ∀ c ∈ t, Line.commentMarks.contains c = false ∧ c ≠ '\n'

instance (t : Text) : Decidable t.Unmarked :=
  inferInstanceAs (Decidable (∀ c ∈ t, Line.commentMarks.contains c = false ∧ c ≠ '\n'))

theorem Unmarked.of_subset {s t : Text} (h : t.Unmarked) (hs : s ⊆ t) : s.Unmarked :=
  fun c hc => h c (hs hc)

theorem Unmarked.append {s t : Text} (hs : s.Unmarked) (ht : t.Unmarked) : (s ++ t).Unmarked := by
  intro c hc
  rcases List.mem_append.mp hc with hc | hc
  · exact hs c hc
  · exact ht c hc

theorem nonempty?_eq_some {s t : Text} (h : nonempty? s = some t) : t = s ∧ t ≠ [] := by
  unfold nonempty? at h
  split at h
  · cases h
  · rename_i hne
    obtain rfl := Option.some.inj h
    exact ⟨rfl, by simpa using hne⟩

theorem nonempty?_of_ne_nil {t : Text} (h : t ≠ []) : nonempty? t = some t := by
  rw [nonempty?, if_neg (by simpa using h)]

end Text

namespace Line

/-! ## Reading -/

theorem classify_text (marks line : Text) : (classify marks line).text = Text.trim line := rfl

theorem classify_directive (marks line : Text) : (classify marks line).directive =
    match (classify marks line).command with
    | some c => Directive.ofCommand c (classify marks line).value
    | none => .none := rfl

/-- Blanks around a line do not count. -/
theorem classify_congr (marks : Text) {a b : Text} (h : Text.trim a = Text.trim b) :
    classify marks a = classify marks b := by
  simp only [classify, h]

theorem splitComment_of_unmarked {t : Text} (h : t.Unmarked) :
    splitComment commentMarks t = (t, none) := by
  have hbody : t.takeWhile (fun c => !commentMarks.contains c) = t :=
    List.takeWhile_eq_self_iff.mpr fun c hc => by rw [(h c hc).1]; rfl
  unfold splitComment
  simp only [hbody, List.drop_length]

/-- The text in front of the comment is unmarked. -/
theorem unmarked_body {line : Text} (hfeed : '\n' ∉ line) :
    (splitComment commentMarks (Text.trim line)).1.Unmarked := by
  have hbody : (splitComment commentMarks (Text.trim line)).1 =
      (Text.trim line).takeWhile fun c => !commentMarks.contains c := by
    unfold splitComment
    simp only
    split <;> rfl
  intro c hc
  rw [hbody] at hc
  refine ⟨by simpa using List.mem_takeWhile_imp hc, ?_⟩
  rintro rfl
  exact hfeed (Text.mem_of_mem_trim ((List.takeWhile_prefix _).subset hc))

theorem splitValue_command {body c : Text} (h : (splitValue body).1 = some c) :
    c ⊆ body ∧ ¬ ("==" : Text) <:+: c ∧ Text.trim c = c := by
  unfold splitValue at h
  split at h
  · rename_i command value hcut
    obtain ⟨rfl, -⟩ := Text.nonempty?_eq_some h
    have hbody := Text.cut?_eq_some hcut
    have hmark := Text.not_infix_of_cut? hcut (by decide) [] (List.nil_prefix) (by decide)
    rw [List.append_nil] at hmark
    refine ⟨fun d hd => ?_, fun hwithin => hmark (hwithin.trans (Text.trim_infix command)),
      Text.trim_trim command⟩
    rw [hbody]
    exact List.mem_append_left _ (Text.mem_of_mem_trim hd)
  · rename_i hcut
    obtain ⟨rfl, -⟩ := Text.nonempty?_eq_some h
    exact ⟨fun d hd => Text.mem_of_mem_trim hd,
      fun hwithin => Text.cut?_eq_none_iff.mp hcut (hwithin.trans (Text.trim_infix body)),
      Text.trim_trim body⟩

theorem splitValue_value {body v : Text} (h : (splitValue body).2 = some v) : v ⊆ body := by
  unfold splitValue at h
  split at h
  · rename_i command value hcut
    obtain ⟨rfl, -⟩ := Text.nonempty?_eq_some h
    rw [Text.cut?_eq_some hcut]
    exact fun d hd => List.mem_append_right _
      (List.mem_append_right _ (Text.mem_of_mem_trim hd))
  · cases h

/-- A command is trimmed, and holds neither a comment mark nor `==`. -/
theorem classify_command {line c : Text} (hfeed : '\n' ∉ line)
    (h : (classify commentMarks line).command = some c) :
    c.Unmarked ∧ ¬ ("==" : Text) <:+: c ∧ Text.trim c = c := by
  obtain ⟨hsub, hmark, htrim⟩ := splitValue_command h
  exact ⟨(unmarked_body hfeed).of_subset hsub, hmark, htrim⟩

/-- A value holds no comment mark. -/
theorem classify_value {line v : Text} (hfeed : '\n' ∉ line)
    (h : (classify commentMarks line).value = some v) : v.Unmarked :=
  (unmarked_body hfeed).of_subset (splitValue_value h)

/-! ## Reading again -/

theorem trim_assignment {command value : Text} (htrim : Text.trim command = command)
    (hne : command ≠ []) (htrim' : Text.trim value = value) (hne' : value ≠ []) :
    Text.trim (command ++ " == " ++ value) = command ++ " == " ++ value := by
  rw [List.append_assoc]
  refine Text.trim_append htrim hne ?_ (by simp)
  intro c hc
  rw [List.getLast?_append_of_ne_nil _ hne'] at hc
  exact (Text.trim_eq_self_iff.mp htrim').2 c hc

/-- A command and a value, set apart by `==`, are read as such. -/
theorem classify_assignment {command value : Text} (hcommand : command.Unmarked)
    (hmark : ¬ ("==" : Text) <:+: command) (htrim : Text.trim command = command)
    (hne : command ≠ []) (hvalue : value.Unmarked) (htrim' : Text.trim value = value) :
    classify commentMarks (command ++ " == " ++ value) =
      ⟨Text.trim (command ++ " == " ++ value), some command, Text.nonempty? value, none,
        Directive.ofCommand command (Text.nonempty? value)⟩ := by
  have hunmarked : (Text.trim (command ++ " == " ++ value)).Unmarked :=
    ((hcommand.append (by decide)).append hvalue).of_subset fun c hc => Text.mem_of_mem_trim hc
  obtain ⟨rest, hrest, hback⟩ : ∃ rest, Text.trim (command ++ " == " ++ value) =
      (command ++ [' ']) ++ ("==" ++ rest) ∧ Text.trim rest = value := by
    by_cases hnil : value = []
    · subst hnil
      refine ⟨[], ?_, rfl⟩
      have hblank : command ++ (" == " : Text) ++ [] = (command ++ (" ==" : Text)) ++ [' '] := by
        simp
      have hlast : ∀ c ∈ (" ==" : Text).getLast?, isBlank c = false := by
        intro c hc
        obtain rfl : '=' = c := Option.mem_some.mp hc
        decide
      rw [hblank, Text.trim_append_blank (by decide),
        Text.trim_append htrim hne hlast (by decide)]
      simp
    · refine ⟨' ' :: value, ?_, ?_⟩
      · rw [trim_assignment htrim hne htrim' hnil]
        simp
      · rw [Text.trim_cons_blank (by decide), htrim']
  have hcut : Text.cut? "==" (Text.trim (command ++ " == " ++ value)) =
      some (command ++ [' '], rest) := by
    rw [hrest]
    refine Text.cut?_append (by decide) (fun hwithin => ?_) rest
    rw [List.append_assoc] at hwithin
    rcases Text.infix_of_infix_append_cons (by decide) hwithin with hwithin | hwithin
    · exact hmark hwithin
    · revert hwithin
      decide
  have hcommand' : Text.nonempty? (Text.trim (command ++ [' '])) = some command := by
    rw [Text.trim_append_blank (by decide), htrim, Text.nonempty?_of_ne_nil hne]
  simp only [classify, splitComment_of_unmarked hunmarked, splitValue, hcut, hcommand', hback]

end Line

end ControlFiles
