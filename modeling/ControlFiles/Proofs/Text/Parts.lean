import ControlFiles.Text.Basic
import Mathlib.Data.List.DropRight
import Mathlib.Data.List.TakeWhile

/-!
# Trimming, cutting and joining

What the ways to take a text apart leave of it:

* `trim_trim`, `trim_blank_append`: trimming twice is trimming once, and blanks in front of a text
  do not count;
* `alternatives_join`: joining names with `" | "` and cutting the outcome into alternatives gives
  the names back, if each of them is a name as cutting makes it (`IsName`);
* `lines_unlines`: a text made of lines, each with a line feed behind it, has these lines.
-/

namespace ControlFiles.Text

/-- What holds of all characters of a text is decided along the text, and not along the alphabet. -/
instance (t : Text) (p : Char → Prop) [DecidablePred p] : Decidable (∀ c ∈ t, p c) :=
  List.decidableBAll p t

/-! ## Trimming -/

theorem trimEnd_eq (t : Text) : trimEnd t = t.rdropWhile isBlank := rfl

theorem trimEnd_cons_of_not_blank {c : Char} (h : isBlank c = false) (t : Text) :
    trimEnd (c :: t) = c :: trimEnd t := by
  have hc : ¬ isBlank c = true := by simp [h]
  simp only [trimEnd, List.reverse_cons, List.dropWhile_append]
  split
  · rename_i hnil
    have hempty := List.isEmpty_iff.mp hnil
    rw [List.dropWhile_cons_of_neg hc, hempty]
    rfl
  · simp

/-- A blank stays if something stands behind it. -/
theorem trimEnd_cons (c : Char) (t : Text) :
    trimEnd (c :: t) = if isBlank c = true ∧ trimEnd t = [] then [] else c :: trimEnd t := by
  cases hc : isBlank c with
  | false => rw [trimEnd_cons_of_not_blank hc, if_neg (by simp)]
  | true =>
    simp only [trimEnd, List.reverse_cons, List.dropWhile_append, List.reverse_eq_nil_iff, true_and,
      List.isEmpty_iff]
    split
    · rw [List.dropWhile_cons_of_pos hc]
      rfl
    · simp

/-- What stands behind characters of which the last is no blank is trimmed alone. -/
theorem trimEnd_append {v : Text} (hne : v ≠ []) (hv : ∀ c ∈ v.getLast?, isBlank c = false)
    (t : Text) : trimEnd (v ++ t) = v ++ trimEnd t := by
  induction v with
  | nil => exact absurd rfl hne
  | cons c v ih =>
    cases v with
    | nil => exact trimEnd_cons_of_not_blank (hv c rfl) t
    | cons d v =>
      rw [List.cons_append, trimEnd_cons, ih (List.cons_ne_nil d v) (by simpa using hv),
        if_neg (by simp)]
      rfl

theorem trim_cons_blank {c : Char} (h : isBlank c = true) (t : Text) : trim (c :: t) = trim t := by
  simp only [trim, trimStart, List.dropWhile_cons_of_pos h]

theorem trim_cons_of_not_blank {c : Char} (h : isBlank c = false) (t : Text) :
    trim (c :: t) = c :: trimEnd t := by
  rw [trim, trimStart, List.dropWhile_cons_of_neg (by simp [h]), trimEnd_cons_of_not_blank h]

/-- Blanks in front of a text do not count. -/
theorem trim_blank_append {b : Text} (hb : ∀ c ∈ b, isBlank c = true) (t : Text) :
    trim (b ++ t) = trim t := by
  simp only [trim, trimStart, List.dropWhile_append_of_pos hb]

/-- Blanks behind a text do not count. -/
theorem trim_append_blank {b : Text} (hb : ∀ c ∈ b, isBlank c = true) (t : Text) :
    trim (t ++ b) = trim t := by
  induction t with
  | nil =>
    have hall : b.dropWhile isBlank = [] := List.dropWhile_eq_nil_iff.mpr hb
    simp [trim, trimStart, hall]
  | cons c t ih =>
    cases hc : isBlank c with
    | true => rw [List.cons_append, trim_cons_blank hc, trim_cons_blank hc, ih]
    | false =>
      rw [List.cons_append, trim_cons_of_not_blank hc, trim_cons_of_not_blank hc]
      simp only [trimEnd, List.reverse_append]
      rw [List.dropWhile_append_of_pos (by simpa using hb)]

/-- A text is trimmed when it neither starts nor ends with a blank. -/
theorem trim_eq_self_iff {t : Text} :
    trim t = t ↔ (∀ c ∈ t.head?, isBlank c = false) ∧ ∀ c ∈ t.getLast?, isBlank c = false := by
  have hend : ∀ s : Text, trimEnd s = s ↔ ∀ c ∈ s.getLast?, isBlank c = false := by
    intro s
    rw [trimEnd_eq, List.rdropWhile_eq_self_iff]
    refine ⟨fun h c hc => ?_, fun h hne => ?_⟩
    · obtain ⟨hne, rfl⟩ := List.mem_getLast?_eq_getLast hc
      simpa using h hne
    · simpa using h _ (List.getLast_mem_getLast? hne)
  cases t with
  | nil => simp [trim, trimStart, trimEnd]
  | cons c t =>
    cases hc : isBlank c with
    | true =>
      have hlen : (trim t).length ≤ t.length := by
        refine List.Sublist.length_le ?_
        exact (List.rdropWhile_prefix _ _).sublist.trans (List.dropWhile_sublist _)
      refine ⟨fun h => ?_, fun h => absurd (h.1 c rfl) (by simp [hc])⟩
      rw [trim_cons_blank hc] at h
      rw [h] at hlen
      simp only [List.length_cons] at hlen
      omega
    | false =>
      rw [trim, trimStart, List.dropWhile_cons_of_neg (by simp [hc]), hend]
      simp [hc]

/-- Trimming twice is trimming once. -/
@[simp] theorem trim_trim (t : Text) : trim (trim t) = trim t := by
  induction t with
  | nil => rfl
  | cons c t ih =>
    cases hc : isBlank c with
    | true => rw [trim_cons_blank hc, ih]
    | false =>
      rw [trim_cons_of_not_blank hc, trim_cons_of_not_blank hc, trimEnd_eq, trimEnd_eq,
        List.rdropWhile_idempotent]

/-- A text is its trimmed form with blanks around it. -/
theorem exists_eq_trim (t : Text) : ∃ a b : Text, (∀ c ∈ a, isBlank c = true) ∧
    (∀ c ∈ b, isBlank c = true) ∧ t = a ++ (trim t ++ b) := by
  have hend : ∀ s : Text, trimEnd s ++ (s.reverse.takeWhile isBlank).reverse = s := fun s => by
    rw [trimEnd, ← List.reverse_append, List.takeWhile_append_dropWhile, List.reverse_reverse]
  refine ⟨t.takeWhile isBlank, ((trimStart t).reverse.takeWhile isBlank).reverse,
    fun c hc => List.mem_takeWhile_imp hc, fun c hc => ?_, ?_⟩
  · exact List.mem_takeWhile_imp (List.mem_reverse.mp hc)
  · rw [trim, hend, trimStart, List.takeWhile_append_dropWhile]

/-- A text that starts with a trimmed one and does not end with a blank is trimmed. -/
theorem trim_append {s t : Text} (hs : trim s = s) (hne : s ≠ [])
    (ht : ∀ c ∈ t.getLast?, isBlank c = false) (hne' : t ≠ []) : trim (s ++ t) = s ++ t := by
  rw [trim_eq_self_iff, List.getLast?_append_of_ne_nil _ hne', List.head?_append_of_ne_nil _ hne]
  exact ⟨(trim_eq_self_iff.mp hs).1, ht⟩

theorem mem_of_mem_trim {c : Char} {t : Text} (h : c ∈ trim t) : c ∈ t :=
  (List.dropWhile_sublist _).subset ((List.rdropWhile_prefix _ _).sublist.subset h)

theorem trim_infix (t : Text) : trim t <:+: t := by
  obtain ⟨a, b, -, -, ht⟩ := exists_eq_trim t
  exact ⟨a, b, by rw [List.append_assoc]; exact ht.symm⟩

/-! ## Cutting at a character -/

theorem split_ne_nil (sep : Char) (t : Text) : split sep t ≠ [] := by
  cases t with
  | nil => simp [split]
  | cons c t =>
    rw [split]
    split
    · simp
    · split <;> simp

theorem split_cons_self (sep : Char) (t : Text) : split sep (sep :: t) = [] :: split sep t := by
  rw [split, if_pos rfl]

theorem split_cons_of_ne {sep c : Char} (h : c ≠ sep) (t : Text) :
    ∃ part parts, split sep t = part :: parts ∧ split sep (c :: t) = (c :: part) :: parts := by
  obtain ⟨part, parts, hs⟩ := List.exists_cons_of_ne_nil (split_ne_nil sep t)
  refine ⟨part, parts, hs, ?_⟩
  rw [split, if_neg h, hs]

/-- What stands before the first separator is the first part. -/
theorem split_append_cons {sep : Char} {t : Text} (h : sep ∉ t) (rest : Text) :
    split sep (t ++ sep :: rest) = t :: split sep rest := by
  induction t with
  | nil => exact split_cons_self sep rest
  | cons c t ih =>
    simp only [List.mem_cons, not_or] at h
    rw [List.cons_append, split, if_neg (Ne.symm h.1), ih h.2]

theorem split_of_not_mem {sep : Char} {t : Text} (h : sep ∉ t) : split sep t = [t] := by
  induction t with
  | nil => rfl
  | cons c t ih =>
    simp only [List.mem_cons, not_or] at h
    rw [split, if_neg (Ne.symm h.1), ih h.2]

theorem not_mem_of_mem_split {sep : Char} {t part : Text} (h : part ∈ split sep t) :
    sep ∉ part := by
  induction t generalizing part with
  | nil => simp_all [split]
  | cons c t ih =>
    by_cases hc : c = sep
    · subst hc
      rw [split_cons_self, List.mem_cons] at h
      rcases h with rfl | h
      · simp
      · exact ih h
    · obtain ⟨first, parts, hs, hcons⟩ := split_cons_of_ne hc t
      rw [hcons, List.mem_cons] at h
      rcases h with rfl | h
      · simp only [List.mem_cons, not_or]
        exact ⟨Ne.symm hc, ih (by simp [hs])⟩
      · exact ih (by simp [hs, h])

theorem mem_of_mem_split {sep c : Char} {t part : Text} (h : part ∈ split sep t) (hc : c ∈ part) :
    c ∈ t := by
  induction t generalizing part with
  | nil => simp_all [split]
  | cons d t ih =>
    by_cases hd : d = sep
    · subst hd
      rw [split_cons_self, List.mem_cons] at h
      rcases h with rfl | h
      · simp at hc
      · exact List.mem_cons_of_mem _ (ih h hc)
    · obtain ⟨first, parts, hs, hcons⟩ := split_cons_of_ne hd t
      rw [hcons, List.mem_cons] at h
      rcases h with rfl | h
      · rw [List.mem_cons] at hc
        rcases hc with rfl | hc
        · exact List.mem_cons_self
        · exact List.mem_cons_of_mem _ (ih (by simp [hs]) hc)
      · exact List.mem_cons_of_mem _ (ih (by simp [hs, h]) hc)

/-- The first part starts as the text does, unless a separator stands there. -/
theorem head?_of_split {sep : Char} {t part : Text} {parts : List Text}
    (h : split sep t = part :: parts) : part.head? = t.head?.filter (· ≠ sep) := by
  cases t with
  | nil =>
    obtain ⟨rfl, rfl⟩ := List.cons.inj h
    rfl
  | cons c t =>
    by_cases hc : c = sep
    · subst hc
      rw [split_cons_self] at h
      obtain ⟨rfl, rfl⟩ := List.cons.inj h
      rw [List.head?_cons, Option.filter_some_neg (by simp)]
      rfl
    · obtain ⟨part', parts', -, hcons⟩ := split_cons_of_ne hc t
      obtain ⟨rfl, rfl⟩ := List.cons.inj (hcons.symm.trans h)
      rw [List.head?_cons, List.head?_cons, Option.filter_some_pos (by simpa using hc)]

theorem join_singleton (sep t : Text) : join sep [t] = t := List.intercalate_singleton

/-- Joined with the separator, the parts give the text back. -/
theorem join_split (sep : Char) (t : Text) : join [sep] (split sep t) = t := by
  induction t with
  | nil => simp [split, join]
  | cons c t ih =>
    by_cases hc : c = sep
    · subst hc
      obtain ⟨part, parts, hs⟩ := List.exists_cons_of_ne_nil (split_ne_nil c t)
      rw [split_cons_self, hs, join, List.intercalate_cons_cons, ← hs]
      exact congrArg (c :: ·) ih
    · obtain ⟨part, parts, hs, hcons⟩ := split_cons_of_ne hc t
      have hpart : join [sep] ((c :: part) :: parts) = c :: join [sep] (part :: parts) := by
        cases parts <;> simp [join, List.intercalate_cons_cons]
      rw [hcons, hpart, ← hs, ih]

/-- What is joined starts with the first part. -/
theorem exists_join_cons (sep part : Text) (parts : List Text) :
    ∃ behind, join sep (part :: parts) = part ++ behind := by
  cases parts with
  | nil => exact ⟨[], by simp [join]⟩
  | cons next parts => exact ⟨_, by rw [join, List.intercalate_cons_cons, List.append_assoc]⟩

theorem infix_join_of_mem (sep : Text) {part : Text} {parts : List Text} (h : part ∈ parts) :
    part <:+: join sep parts := by
  induction parts with
  | nil => cases h
  | cons first parts ih =>
    obtain rfl | h := List.mem_cons.mp h
    · obtain ⟨behind, hbehind⟩ := exists_join_cons sep part parts
      exact ⟨[], behind, hbehind.symm⟩
    · obtain ⟨next, rest, rfl⟩ := List.exists_cons_of_ne_nil (List.ne_nil_of_mem h)
      rw [join, List.intercalate_cons_cons]
      exact (ih h).trans (List.suffix_append _ _).isInfix

/-- A part stands in the text. -/
theorem infix_of_mem_split {sep : Char} {t part : Text} (h : part ∈ split sep t) : part <:+: t := by
  have hjoin := infix_join_of_mem [sep] h
  rwa [join_split] at hjoin

/-- Parts without the separator are the parts of what they are joined to. -/
theorem split_join {sep : Char} {parts : List Text} (hne : parts ≠ [])
    (h : ∀ part ∈ parts, sep ∉ part) : split sep (join [sep] parts) = parts := by
  induction parts with
  | nil => exact absurd rfl hne
  | cons part parts ih =>
    have hpart := h part List.mem_cons_self
    cases parts with
    | nil => rw [join_singleton, split_of_not_mem hpart]
    | cons next parts =>
      have hjoin :
          join [sep] (part :: next :: parts) = part ++ sep :: join [sep] (next :: parts) := by
        simp [join, List.intercalate_cons_cons]
      rw [hjoin, split_append_cons hpart,
        ih (List.cons_ne_nil next parts) fun q hq => h q (List.mem_cons_of_mem part hq)]

/-- What stands before a separator is cut without regard to what follows it. -/
theorem split_append_sep (sep : Char) (a b : Text) :
    split sep (a ++ sep :: b) = split sep a ++ split sep b := by
  induction a with
  | nil => exact split_cons_self sep b
  | cons c a ih =>
    by_cases hc : c = sep
    · subst hc
      rw [List.cons_append, split_cons_self, split_cons_self, ih, List.cons_append]
    · obtain ⟨part, parts, hs, hcons⟩ := split_cons_of_ne hc a
      rw [List.cons_append, split, if_neg hc, ih, hs, hcons]
      rfl

/-- What stands in front of a text without a separator belongs to its first part. -/
theorem split_append {sep : Char} {a : Text} (ha : sep ∉ a) (b : Text) :
    ∃ part parts, split sep b = part :: parts ∧ split sep (a ++ b) = (a ++ part) :: parts := by
  induction a with
  | nil =>
    obtain ⟨part, parts, hs⟩ := List.exists_cons_of_ne_nil (split_ne_nil sep b)
    exact ⟨part, parts, hs, hs⟩
  | cons c a ih =>
    simp only [List.mem_cons, not_or] at ha
    obtain ⟨part, parts, hs, happend⟩ := ih ha.2
    obtain ⟨part', parts', hs', hcons⟩ := split_cons_of_ne (Ne.symm ha.1) (a ++ b)
    obtain ⟨rfl, rfl⟩ := List.cons.inj (happend.symm.trans hs')
    exact ⟨part, parts, hs, hcons⟩

/-! ## Cutting at a mark -/

theorem cut?_eq_some {mark t before after : Text} (h : cut? mark t = some (before, after)) :
    t = before ++ (mark ++ after) := by
  induction t generalizing before with
  | nil =>
    rw [cut?] at h
    split at h
    · rename_i hm
      obtain ⟨rfl, rfl⟩ := Prod.mk.inj (Option.some.inj h)
      simpa using hm
    · cases h
  | cons c t ih =>
    rw [cut?] at h
    split at h
    · rename_i hm
      obtain ⟨rfl, rfl⟩ := Prod.mk.inj (Option.some.inj h)
      obtain ⟨rest, hrest⟩ := List.isPrefixOf_iff_prefix.mp hm
      rw [← hrest, List.drop_left, List.nil_append]
    · obtain ⟨⟨a, b⟩, hcut, heq⟩ := Option.map_eq_some_iff.mp h
      obtain ⟨rfl, rfl⟩ := Prod.mk.inj heq
      rw [ih hcut, List.cons_append]

/-- A text that is not cut does not have the mark in it. -/
theorem cut?_eq_none_iff {mark t : Text} : cut? mark t = none ↔ ¬ mark <:+: t := by
  induction t with
  | nil => simp [cut?, List.infix_nil]
  | cons c t ih =>
    rw [cut?, List.infix_cons_iff, not_or, ← ih, ← List.isPrefixOf_iff_prefix]
    by_cases hm : mark.isPrefixOf (c :: t) = true <;> simp [hm]

/-- The mark is cut at its first occurrence, however far that reaches. -/
theorem not_infix_of_cut? {mark t before after : Text} (h : cut? mark t = some (before, after))
    (hm : mark ≠ []) (part : Text) (hpart : part <+: mark) (hne : part ≠ mark) :
    ¬ mark <:+: before ++ part := by
  induction t generalizing before with
  | nil =>
    rw [cut?] at h
    split at h
    · exact absurd (by simpa using ‹mark.isEmpty = true›) hm
    · cases h
  | cons c t ih =>
    have hlt : part.length < mark.length :=
      lt_of_le_of_ne hpart.length_le fun hlen => hne (hpart.eq_of_length hlen)
    rw [cut?] at h
    split at h
    · obtain ⟨rfl, rfl⟩ := Prod.mk.inj (Option.some.inj h)
      intro hwithin
      have hle := hwithin.length_le
      simp only [List.nil_append] at hle
      omega
    · rename_i hstarts
      obtain ⟨⟨a, b⟩, hcut, heq⟩ := Option.map_eq_some_iff.mp h
      obtain ⟨rfl, rfl⟩ := Prod.mk.inj heq
      rw [List.cons_append, List.infix_cons_iff, not_or]
      refine ⟨fun hstart => hstarts (List.isPrefixOf_iff_prefix.mpr ?_), ih hcut⟩
      have hfull : c :: (a ++ part) <+: c :: t := by
        rw [cut?_eq_some hcut]
        refine List.cons_prefix_cons.mpr ⟨rfl, List.prefix_append_right_inj a |>.mpr ?_⟩
        exact hpart.trans (List.prefix_append mark b)
      exact hstart.trans hfull

/-- A text is cut behind the part that neither holds the mark nor begins one. -/
theorem cut?_append {mark a : Text} (hm : mark ≠ []) (h : ¬ mark <:+: a ++ mark.dropLast)
    (b : Text) : cut? mark (a ++ (mark ++ b)) = some (a, b) := by
  induction a with
  | nil =>
    obtain ⟨c, rest, rfl⟩ := List.exists_cons_of_ne_nil hm
    have hstarts : (c :: rest).isPrefixOf (c :: (rest ++ b)) = true :=
      List.isPrefixOf_iff_prefix.mpr ⟨b, rfl⟩
    rw [List.nil_append, List.cons_append, cut?, if_pos hstarts]
    simp
  | cons c a ih =>
    rw [List.cons_append, List.infix_cons_iff, not_or] at h
    have hstarts : ¬ mark.isPrefixOf (c :: (a ++ (mark ++ b))) = true := by
      intro hstart
      refine h.1 (List.prefix_of_prefix_length_le (List.isPrefixOf_iff_prefix.mp hstart) ?_ ?_)
      · refine List.cons_prefix_cons.mpr ⟨rfl, (List.prefix_append_right_inj a).mpr ?_⟩
        exact (List.dropLast_prefix mark).trans (List.prefix_append mark b)
      · simp only [List.length_cons, List.length_append, List.length_dropLast]
        omega
    rw [List.cons_append, cut?, if_neg hstarts, ih h.2]
    rfl

/-- A mark does not reach over a character that it does not have. -/
theorem infix_of_infix_append_cons {mark a b : Text} {c : Char} (hc : c ∉ mark)
    (h : mark <:+: a ++ c :: b) : mark <:+: a ∨ mark <:+: b := by
  have hstarts : ∀ a : Text, mark <+: a ++ c :: b → mark <+: a := by
    intro a ha
    refine List.prefix_of_prefix_length_le ha (List.prefix_append a _) ?_
    by_contra hlen
    obtain ⟨rest, hrest⟩ := ha
    have hget : mark[a.length]? = some c := by
      have hleft : (mark ++ rest)[a.length]? = mark[a.length]? :=
        List.getElem?_append_left (by omega)
      rw [← hleft, hrest]
      simp
    exact hc (List.mem_of_getElem? hget)
  induction a with
  | nil =>
    rw [List.nil_append, List.infix_cons_iff] at h
    rcases h with h | h
    · exact .inl (hstarts [] h).isInfix
    · exact .inr h
  | cons d a ih =>
    rw [List.cons_append, List.infix_cons_iff] at h
    rcases h with h | h
    · exact .inl (hstarts (d :: a) h).isInfix
    · exact (ih h).imp_left fun h => h.trans (List.infix_cons List.infix_rfl)

/-- A mark without blanks does not reach into the blanks around a text. -/
theorem infix_of_infix_blank {mark a t b : Text} (hne : mark ≠ [])
    (hmark : ∀ c ∈ mark, isBlank c = false) (ha : ∀ c ∈ a, isBlank c = true)
    (hb : ∀ c ∈ b, isBlank c = true) (h : mark <:+: a ++ (t ++ b)) : mark <:+: t := by
  have hnot : ∀ c, isBlank c = true → c ∉ mark := fun c hc hmem => by
    rw [hmark c hmem] at hc
    cases hc
  have hnone : ¬ mark <:+: [] := fun hnil => hne (List.eq_nil_of_infix_nil hnil)
  have hbehind : mark <:+: t ++ b := by
    induction a with
    | nil => exact h
    | cons c a ih =>
      obtain ⟨hc, ha⟩ := List.forall_mem_cons.mp ha
      exact ih ha ((infix_of_infix_append_cons (hnot c hc) (a := []) h).resolve_left hnone)
  clear h
  induction b using List.reverseRecOn with
  | nil => rwa [List.append_nil] at hbehind
  | append_singleton b c ih =>
    have hc := hnot c (hb c (List.mem_append_right b (List.mem_singleton_self c)))
    rw [← List.append_assoc] at hbehind
    exact ih (fun d hd => hb d (List.mem_append_left _ hd))
      ((infix_of_infix_append_cons hc (b := []) hbehind).resolve_right hnone)

theorem infix_of_infix_join {mark : Text} {sep : Char} {parts : List Text} (hne : mark ≠ [])
    (hsep : sep ∉ mark) (h : mark <:+: join [sep] parts) : ∃ part ∈ parts, mark <:+: part := by
  induction parts with
  | nil => exact absurd (List.eq_nil_of_infix_nil h) hne
  | cons part parts ih =>
    cases parts with
    | nil =>
      rw [join_singleton] at h
      exact ⟨part, List.mem_cons_self, h⟩
    | cons next parts =>
      rw [join, List.intercalate_cons_cons, List.append_assoc] at h
      obtain h | h := infix_of_infix_append_cons hsep h
      · exact ⟨part, List.mem_cons_self, h⟩
      · obtain ⟨other, hother, h⟩ := ih h
        exact ⟨other, List.mem_cons_of_mem part hother, h⟩

/-- A text without backslashes stays as it is when they become slashes. -/
theorem slashed_of_not_mem {t : Text} (h : '\\' ∉ t) : slashed t = t := by
  have hkeep : ∀ c ∈ t, (if c = '\\' then '/' else c) = id c := fun c hc =>
    if_neg fun heq : c = '\\' => h (heq ▸ hc)
  exact (List.map_congr_left hkeep).trans (List.map_id _)

/-- What has no slash in it was there before backslashes became slashes. -/
theorem infix_of_infix_slashed {mark t : Text} (hslash : '/' ∉ mark)
    (h : mark <:+: slashed t) : mark <:+: t := by
  obtain ⟨u, hu, rfl⟩ := List.infix_map_iff.mp h
  have hself : ∀ c ∈ u, (if c = '\\' then '/' else c) = c := by
    intro c hc
    split_ifs with hback
    · refine absurd (List.mem_map.mpr ⟨c, hc, ?_⟩) hslash
      exact if_pos hback
    · rfl
  rw [(List.map_congr_left hself).trans (List.map_id' u)]
  exact hu

/-! ## Words -/

theorem words_cons_blank {c : Char} (hc : isBlank c = true) (t : Text) :
    words (c :: t) = words t := by
  show (if isBlank c = true then words t else _) = _
  rw [if_pos hc]

/-- A character that is no blank begins a word: one of its own in front of a blank and at the end,
and else the one that the rest starts with. -/
theorem words_cons {c : Char} (hc : isBlank c = false) (t : Text) :
    (words (c :: t) = [c] :: words t ∧ ∀ d ∈ t.head?, isBlank d = true ∨ words t = []) ∨
      ∃ w ws, words t = w :: ws ∧ words (c :: t) = (c :: w) :: ws ∧
        ∃ d ∈ t.head?, isBlank d = false := by
  have hnot : ¬ isBlank c = true := by rw [hc]; decide
  cases t with
  | nil =>
    refine .inl ⟨?_, by simp⟩
    show (if isBlank c = true then _ else _) = _
    exact if_neg hnot
  | cons d t =>
    cases hwords : words (d :: t) with
    | nil =>
      refine .inl ⟨?_, fun _ _ => .inr rfl⟩
      show (if isBlank c = true then _ else _) = _
      rw [if_neg hnot, hwords]
    | cons w ws =>
      cases hd : isBlank d with
      | true =>
        refine .inl ⟨?_, fun e he => .inl (by rw [← Option.mem_some.mp he, hd])⟩
        show (if isBlank c = true then _ else _) = _
        rw [if_neg hnot, hwords]
        show (if isBlank d = true then _ else _) = _
        rw [if_pos hd]
      | false =>
        refine .inr ⟨w, ws, rfl, ?_, d, rfl, hd⟩
        show (if isBlank c = true then _ else _) = _
        rw [if_neg hnot, hwords]
        show (if isBlank d = true then _ else _) = _
        rw [hd, if_neg (by decide)]

theorem words_of_word {t : Text} (hne : t ≠ []) (h : ∀ c ∈ t, isBlank c = false) :
    words t = [t] := by
  induction t with
  | nil => exact absurd rfl hne
  | cons c t ih =>
    have hc := h c List.mem_cons_self
    have ht : ∀ d ∈ t, isBlank d = false := fun d hd => h d (List.mem_cons_of_mem c hd)
    cases t with
    | nil =>
      rcases words_cons hc [] with ⟨hstep, -⟩ | ⟨w, ws, hwords, -⟩
      · exact hstep
      · cases hwords
    | cons d t =>
      have hrest := ih (List.cons_ne_nil d t) ht
      have hd := ht d List.mem_cons_self
      rcases words_cons hc (d :: t) with ⟨-, hhead⟩ | ⟨w, ws, hwords, hstep, -⟩
      · rcases hhead d rfl with hblank | hnil
        · rw [hd] at hblank
          cases hblank
        · rw [hnil] at hrest
          cases hrest
      · rw [hrest] at hwords
        obtain ⟨rfl, rfl⟩ := List.cons.inj hwords
        exact hstep

theorem words_append_blank {a : Text} (hne : a ≠ []) (h : ∀ c ∈ a, isBlank c = false) {b : Char}
    (hb : isBlank b = true) (t : Text) : words (a ++ b :: t) = a :: words t := by
  induction a with
  | nil => exact absurd rfl hne
  | cons c a ih =>
    have hc := h c List.mem_cons_self
    have ha : ∀ d ∈ a, isBlank d = false := fun d hd => h d (List.mem_cons_of_mem c hd)
    rw [List.cons_append]
    cases a with
    | nil =>
      rcases words_cons hc (b :: t) with ⟨hstep, -⟩ | ⟨w, ws, -, -, d, hd, hblank⟩
      · rw [List.nil_append, hstep, words_cons_blank hb]
      · rw [← Option.mem_some.mp hd, hb] at hblank
        cases hblank
    | cons d a =>
      have hrest := ih (List.cons_ne_nil d a) ha
      have hd := ha d List.mem_cons_self
      rcases words_cons hc (d :: a ++ b :: t) with ⟨-, hhead⟩ | ⟨w, ws, hwords, hstep, -⟩
      · rcases hhead d rfl with hblank | hnil
        · rw [hd] at hblank
          cases hblank
        · rw [hnil] at hrest
          cases hrest
      · rw [hrest] at hwords
        obtain ⟨rfl, rfl⟩ := List.cons.inj hwords
        exact hstep

/-- A word stands in the text, is not empty and has no blank; the first word of a text that does
not start with a blank starts it. -/
theorem words_spec (t : Text) :
    (∀ w ∈ words t, w ≠ [] ∧ (∀ c ∈ w, isBlank c = false) ∧ w <:+: t) ∧
      ∀ w ∈ (words t).head?, (∀ c ∈ t.head?, isBlank c = false) → w <+: t := by
  induction t with
  | nil => exact ⟨nofun, nofun⟩
  | cons c t ih =>
    obtain ⟨hall, hfirst⟩ := ih
    have hwithin : ∀ w : Text, w <:+: t → w <:+: c :: t := fun w hw =>
      hw.trans (List.infix_cons List.infix_rfl)
    cases hc : isBlank c with
    | true =>
      rw [words_cons_blank hc]
      refine ⟨fun w hw => ?_, fun w _ hhead => ?_⟩
      · obtain ⟨hne, hblank, hw⟩ := hall w hw
        exact ⟨hne, hblank, hwithin w hw⟩
      · have hhead := hhead c rfl
        rw [hc] at hhead
        cases hhead
    | false =>
      rcases words_cons hc t with ⟨hstep, -⟩ | ⟨w, ws, hwords, hstep, d, hd, hblank⟩
      · rw [hstep]
        refine ⟨fun w hw => ?_, fun w hw _ => ?_⟩
        · rcases List.mem_cons.mp hw with rfl | hw
          · exact ⟨List.cons_ne_nil c [], fun d hd => by rwa [List.mem_singleton.mp hd],
              ⟨[], t, rfl⟩⟩
          · obtain ⟨hne, hblank, hw⟩ := hall w hw
            exact ⟨hne, hblank, hwithin w hw⟩
        · rw [← Option.mem_some.mp hw]
          exact ⟨t, rfl⟩
      · rw [hwords] at hall hfirst
        rw [hstep]
        obtain ⟨-, hword, -⟩ := hall w List.mem_cons_self
        have hstart : w <+: t := hfirst w rfl fun e he => by
          rwa [← Option.mem_unique hd he]
        have hlong : c :: w <+: c :: t := List.cons_prefix_cons.mpr ⟨rfl, hstart⟩
        refine ⟨fun v hv => ?_, fun v hv _ => ?_⟩
        · rcases List.mem_cons.mp hv with rfl | hv
          · refine ⟨List.cons_ne_nil c w, fun e he => ?_, hlong.isInfix⟩
            rcases List.mem_cons.mp he with rfl | he
            · exact hc
            · exact hword e he
          · obtain ⟨hne, hblank, hv⟩ := hall v (List.mem_cons_of_mem w hv)
            exact ⟨hne, hblank, hwithin v hv⟩
        · rw [← Option.mem_some.mp hv]
          exact hlong

/-! ## Alternatives -/

/-- A name as cutting a list of alternatives makes it: trimmed, not empty, without the bar that
separates names. -/
structure IsName (name : Text) : Prop where
  trimmed : trim name = name
  nonempty : name ≠ []
  noBar : '|' ∉ name

theorem isName_of_mem_alternatives {t name : Text} (h : name ∈ alternatives t) : IsName name := by
  simp only [alternatives, List.mem_filter, List.mem_map, Bool.not_eq_eq_eq_not, Bool.not_true,
    List.isEmpty_eq_false_iff] at h
  obtain ⟨⟨part, hpart, rfl⟩, hne⟩ := h
  exact ⟨trim_trim part, hne, fun hbar => not_mem_of_mem_split hpart (mem_of_mem_trim hbar)⟩

theorem mem_of_mem_alternatives {t name : Text} (h : name ∈ alternatives t) : name ⊆ t := by
  intro c hc
  simp only [alternatives, List.mem_filter, List.mem_map] at h
  obtain ⟨⟨part, hpart, rfl⟩, -⟩ := h
  exact mem_of_mem_split hpart (mem_of_mem_trim hc)

theorem alternatives_of_no_bar {t : Text} (h : '|' ∉ t) :
    alternatives t = if trim t = [] then [] else [trim t] := by
  rw [alternatives, split_of_not_mem h]
  by_cases ht : trim t = [] <;> simp [ht]

theorem alternatives_append_bar {t : Text} (h : '|' ∉ t) (rest : Text) :
    alternatives (t ++ '|' :: rest) = alternatives t ++ alternatives rest := by
  rw [alternatives, split_append_cons h, alternatives_of_no_bar h]
  by_cases ht : trim t = [] <;> simp [ht, alternatives]

theorem alternatives_cons_blank {c : Char} (hb : isBlank c = true) (t : Text) :
    alternatives (c :: t) = alternatives t := by
  have hc : c ≠ '|' := by rintro rfl; exact absurd hb (by decide)
  obtain ⟨part, parts, hs, hcons⟩ := split_cons_of_ne hc t
  rw [alternatives, alternatives, hcons, hs, List.map_cons, List.map_cons, trim_cons_blank hb]

theorem IsName.alternatives_eq {name : Text} (h : IsName name) : alternatives name = [name] := by
  rw [alternatives_of_no_bar h.noBar, h.trimmed, if_neg h.nonempty]

theorem alternatives_append_blank {t b : Text} (ht : '|' ∉ t) (hb : ∀ c ∈ b, isBlank c = true) :
    alternatives (t ++ b) = alternatives t := by
  have hbar : '|' ∉ t ++ b := by
    rw [List.mem_append, not_or]
    exact ⟨ht, fun hmem => absurd (hb _ hmem) (by decide)⟩
  rw [alternatives_of_no_bar hbar, alternatives_of_no_bar ht, trim_append_blank hb]

/-- Joined with bars and cut again, texts without bars give what each of them gives. -/
theorem alternatives_join_of_no_bar {parts : List Text} (h : ∀ part ∈ parts, '|' ∉ part) :
    alternatives (join " | " parts) = parts.flatMap alternatives := by
  induction parts with
  | nil => rfl
  | cons part parts ih =>
    have hpart := h part List.mem_cons_self
    have hparts : ∀ p ∈ parts, '|' ∉ p := fun p hp => h p (List.mem_cons_of_mem _ hp)
    cases parts with
    | nil =>
      rw [join_singleton, List.flatMap_singleton]
    | cons next parts =>
      have hsplit : join " | " (part :: next :: parts) =
          (part ++ [' ']) ++ '|' :: ' ' :: join " | " (next :: parts) := by
        simp [join, List.intercalate_cons_cons]
      have hbar : '|' ∉ part ++ [' '] := by simp [hpart]
      rw [hsplit, alternatives_append_bar hbar, alternatives_cons_blank (by decide), ih hparts,
        alternatives_append_blank hpart (by decide)]
      exact (List.flatMap_cons ..).symm

/-- Joined with bars and cut again, names come back. -/
theorem alternatives_join {names : List Text} (h : ∀ name ∈ names, IsName name) :
    alternatives (join " | " names) = names := by
  rw [alternatives_join_of_no_bar fun name hname => (h name hname).noBar,
    List.flatMap_congr fun name hname => (h name hname).alternatives_eq]
  exact List.flatMap_singleton' names

/-- Joined with bars, names make a trimmed text. -/
theorem trim_join {names : List Text} (h : ∀ name ∈ names, IsName name) :
    trim (join " | " names) = join " | " names := by
  induction names with
  | nil => rfl
  | cons name names ih =>
    have hname := h name List.mem_cons_self
    have hrest := ih fun n hn => h n (List.mem_cons_of_mem _ hn)
    cases names with
    | nil =>
      rw [join_singleton]
      exact hname.trimmed
    | cons next names =>
      have hnext := h next (List.mem_cons_of_mem _ List.mem_cons_self)
      have hne : join " | " (next :: names) ≠ [] := by
        intro hnil
        have hnames := alternatives_join fun n hn => h n (List.mem_cons_of_mem name hn)
        rw [hnil] at hnames
        cases hnames
      have hjoin : join " | " (name :: next :: names) =
          name ++ ((" | " : Text) ++ join " | " (next :: names)) := by
        simp [join, List.intercalate_cons_cons]
      rw [hjoin]
      refine trim_append hname.trimmed hname.nonempty (fun c hc => ?_) (by simp)
      rw [List.getLast?_append_of_ne_nil _ hne] at hc
      exact (trim_eq_self_iff.mp hrest).2 c hc

theorem mem_join {sep : Text} {parts : List Text} {c : Char} (h : c ∈ join sep parts) :
    c ∈ sep ∨ ∃ part ∈ parts, c ∈ part := by
  induction parts with
  | nil => simp [join] at h
  | cons part parts ih =>
    cases parts with
    | nil =>
      rw [join_singleton] at h
      exact .inr ⟨part, List.mem_cons_self, h⟩
    | cons next parts =>
      rw [join, List.intercalate_cons_cons, List.mem_append, List.mem_append] at h
      rcases h with (h | h) | h
      · exact .inr ⟨part, List.mem_cons_self, h⟩
      · exact .inl h
      · rcases ih h with h | ⟨part', hpart', h⟩
        · exact .inl h
        · exact .inr ⟨part', List.mem_cons_of_mem _ hpart', h⟩

/-! ## Lines -/

/-- A line as it can stand in a text: no line feed in it, and no carriage return at its end. -/
def IsLine (line : Text) : Prop := '\n' ∉ line ∧ line.getLast? ≠ some '\r'

/-- The text made of some lines, each with a line feed behind it. -/
def unlines (ls : List Text) : Text := ls.flatMap fun line => line ++ ("\n" : Text)

theorem unlines_cons (l : Text) (ls : List Text) : unlines (l :: ls) = l ++ '\n' :: unlines ls := by
  simp [unlines]

theorem split_unlines {ls : List Text} (h : ∀ l ∈ ls, IsLine l) :
    split '\n' (unlines ls) = ls ++ [[]] := by
  induction ls with
  | nil => rfl
  | cons l ls ih =>
    rw [unlines_cons, split_append_cons (h l List.mem_cons_self).1,
      ih fun l' hl' => h l' (List.mem_cons_of_mem _ hl'), List.cons_append]

/-- A text made of lines, each with a line feed behind it, has these lines. -/
theorem lines_unlines {ls : List Text} (h : ∀ l ∈ ls, IsLine l) :
    lines (unlines ls) = ls := by
  have hdrop : ls.map dropReturn = ls := by
    conv_rhs => rw [← List.map_id ls]
    refine List.map_congr_left fun l hl => ?_
    rw [dropReturn, if_neg (h l hl).2, id]
  rw [lines, split_unlines h, List.reverse_append]
  simp [hdrop, nonempty?]

theorem no_feed_of_mem_lines {t line : Text} (h : line ∈ lines t) : '\n' ∉ line := by
  obtain ⟨last, ended, hsplit⟩ :=
    List.exists_cons_of_ne_nil (List.reverse_ne_nil_iff.mpr (split_ne_nil '\n' t))
  have hparts : ∀ part ∈ last :: ended, '\n' ∉ part := fun part hpart =>
    not_mem_of_mem_split (List.mem_reverse.mp (hsplit ▸ hpart))
  rw [lines, hsplit] at h
  simp only [List.mem_append, List.mem_map, List.mem_reverse, Option.mem_toList] at h
  rcases h with ⟨part, hpart, rfl⟩ | hlast
  · have hpart := hparts part (List.mem_cons_of_mem _ hpart)
    rw [dropReturn]
    split
    · exact fun hmem => hpart ((List.dropLast_sublist part).subset hmem)
    · exact hpart
  · rw [nonempty?] at hlast
    split at hlast
    · cases hlast
    · obtain rfl := Option.some.inj hlast
      exact hparts _ List.mem_cons_self

theorem isLine_trim {t : Text} (h : '\n' ∉ t) : IsLine (trim t) := by
  refine ⟨fun hmem => h (mem_of_mem_trim hmem), fun hlast => ?_⟩
  have hblank := (trim_eq_self_iff.mp (trim_trim t)).2 '\r' hlast
  exact absurd hblank (by decide)

/-! ## First lines -/

theorem exists_split (t : Text) : ∃ ended last, split '\n' t = ended ++ [last] :=
  ⟨_, _, (List.dropLast_append_getLast (split_ne_nil '\n' t)).symm⟩

theorem lines_of_split {t last : Text} {ended : List Text} (h : split '\n' t = ended ++ [last]) :
    lines t = ended.map dropReturn ++ (nonempty? last).toList := by
  rw [lines, h]
  simp

theorem split_unlines_append {ls : List Text} (h : ∀ l ∈ ls, '\n' ∉ l) (t : Text) :
    split '\n' (unlines ls ++ t) = ls ++ split '\n' t := by
  induction ls with
  | nil => rfl
  | cons l ls ih =>
    obtain ⟨hl, hls⟩ := List.forall_mem_cons.mp h
    rw [unlines_cons, List.append_assoc, List.cons_append, split_append_cons hl, ih hls,
      List.cons_append]

/-- The first `n` lines of a text, each with its line feed. -/
def firstLines (n : Nat) (t : Text) : Text := unlines ((split '\n' t).take n)

@[simp] theorem trim_dropReturn (l : Text) : trim (dropReturn l) = trim l := by
  rw [dropReturn]
  split
  · rename_i hlast
    obtain ⟨t, rfl⟩ := List.getLast?_eq_some_iff.mp hlast
    rw [List.dropLast_concat, trim_append_blank (by decide)]
  · rfl

end ControlFiles.Text
