import ControlFiles.Proofs.Path

/-!
# What lies below a directory

What is left of a path below a directory, taken from that directory, is the path again, if the path
is in normal form (`Path.normalize_join_below?`): the segments of the directory are the first ones
of the path, and what is left is the text of the others.
-/

namespace ControlFiles.Path

variable {base p : Path} {root parts : List Segment}

/-! ## Parts between slashes -/

theorem lead_eq_nil {t : Text} (hroot : rootOf t = [])
    (hhere : (Text.split '/' t).head? ≠ some ".") : lead t = [] := by
  rw [lead.eq_def]
  split
  · cases hroot
  · exact absurd rfl hhere
  · rename_i rest
    exact absurd (congrArg List.head? (Text.split_append_sep '/' ['.'] rest)) hhere
  · rfl

/-- Parts between slashes have no root and no `.` in front of them. -/
theorem lead_join (hparts : ∀ s ∈ parts, s.IsPart) :
    lead (Text.join "/" (parts.map Segment.text)) = [] := by
  refine lead_eq_nil (rootOf_join hparts) ?_
  cases parts with
  | nil => exact nofun
  | cons s parts =>
    rw [split_join (List.cons_ne_nil s parts) hparts, List.map_cons, List.head?_cons]
    intro hdot
    have hs := (hparts s List.mem_cons_self).ofPart
    rw [Option.some.inj hdot] at hs
    cases hs

theorem rootOf_eq_nil_iff {t : Text} : rootOf t = [] ↔ isAbsolute ⟨t⟩ = false := by
  rw [rootOf, isAbsolute]
  cases Text.startsWith "/" t <;> simp

theorem isEmptyPart_of_isPart {s : Segment} (h : s.IsPart) : isEmptyPart s.text = false := by
  rw [isEmptyPart, h.ofPart]
  rfl

theorem dropWhile_isEmptyPart (hparts : ∀ s ∈ parts, s.IsPart) :
    (parts.map Segment.text).dropWhile isEmptyPart = parts.map Segment.text := by
  cases parts with
  | nil => rfl
  | cons s parts =>
    rw [List.map_cons, List.dropWhile_cons_of_neg]
    simp [isEmptyPart_of_isPart (hparts s List.mem_cons_self)]

theorem trimParts_map (hparts : ∀ s ∈ parts, s.IsPart) :
    trimParts (parts.map Segment.text) = parts.map Segment.text := by
  have hreverse : ∀ s ∈ parts.reverse, s.IsPart := fun s hs => hparts s (List.mem_reverse.mp hs)
  rw [trimParts, ← List.map_reverse, dropWhile_isEmptyPart hreverse, ← List.map_reverse,
    List.reverse_reverse]

theorem dropSegments_map (hparts : ∀ s ∈ parts, s.IsPart) (n : Nat) :
    dropSegments n (parts.map Segment.text) = (parts.drop n).map Segment.text := by
  induction parts generalizing n with
  | nil => cases n <;> rfl
  | cons s parts ih =>
    cases n with
    | zero => rfl
    | succ n =>
      rw [List.map_cons, dropSegments, isEmptyPart_of_isPart (hparts s List.mem_cons_self),
        if_neg (by decide), ih fun s hs => hparts s (List.mem_cons_of_mem _ hs),
        List.drop_succ_cons]

theorem trimParts_split (hparts : ∀ s ∈ parts, s.IsPart) :
    trimParts (Text.split '/' (Text.join "/" (parts.map Segment.text))) =
      parts.map Segment.text := by
  by_cases hne : parts = []
  · rw [hne]
    rfl
  · rw [split_join hne hparts, trimParts_map hparts]

/-- What is left behind the first parts. -/
theorem trimParts_dropSegments (hparts : ∀ s ∈ parts, s.IsPart) (n : Nat) :
    trimParts ((dropSegments n
        (Text.split '/' (Text.join "/" (parts.map Segment.text)))).dropWhile isEmptyPart) =
      (parts.drop n).map Segment.text := by
  have hrest : ∀ s ∈ parts.drop n, s.IsPart := fun s hs => hparts s (List.mem_of_mem_drop hs)
  by_cases hne : parts = []
  · rw [hne, List.drop_nil]
    cases n <;> rfl
  · rw [split_join hne hparts, dropSegments_map hparts, dropWhile_isEmptyPart hrest,
      trimParts_map hrest]

/-! ## Normal forms -/

/-- The path is in normal form: its root, if it has one, and parts between slashes of which none
takes another back. -/
structure MadeOf (p : Path) (root parts : List Segment) : Prop where
  isRoot : root = [] ∨ root = [.root]
  isPart : ∀ s ∈ parts, s.IsPart
  folded : Folded (root ++ parts).reverse
  eq : p = ofSegments (root ++ parts)

theorem exists_madeOf_normalize (p : Path) : ∃ parts, MadeOf p.normalize (rootOf p.text) parts := by
  obtain ⟨parts, hparts, hfolded, heq⟩ := exists_normalize_eq p.text
  exact ⟨parts, rootOf_eq p.text, hparts, hfolded, heq⟩

theorem exists_madeOf (hp : p.normalize = p) : ∃ root parts, MadeOf p root parts := by
  obtain ⟨parts, h⟩ := exists_madeOf_normalize p
  rw [hp] at h
  exact ⟨rootOf p.text, parts, h⟩

namespace MadeOf

theorem text_eq (h : MadeOf p root parts) :
    leadSegment (lead p.text) = root ∧
      p.text = lead p.text ++ Text.join "/" (parts.map Segment.text) := by
  rw [h.eq, ofSegments]
  obtain rfl | rfl := h.isRoot
  · rw [List.nil_append, textOf_parts h.isPart, lead_join h.isPart]
    exact ⟨rfl, rfl⟩
  · exact ⟨rfl, rfl⟩

theorem parts_eq (h : MadeOf p root parts) :
    p.parts = Text.split '/' (Text.join "/" (parts.map Segment.text)) := by
  have htext := congrArg (List.drop (lead p.text).length) h.text_eq.2
  rw [List.drop_left] at htext
  rw [Path.parts, htext]

theorem segments_eq (h : MadeOf p root parts) : p.segments = root ++ parts := by
  rw [segments, h.text_eq.1, h.parts_eq]
  exact congrArg (root ++ ·) (names_join h.isPart)

/-- The segments fold to themselves. -/
theorem foldl_segments (h : MadeOf p root parts) :
    p.segments.foldl fold [] = p.segments.reverse := by
  have hfolded := h.folded
  rwa [Folded, List.reverse_reverse, ← h.segments_eq] at hfolded

/-- What is left of the path below a directory with some segments. -/
theorem below?_eq (h : MadeOf p root parts) (hunder : isUnder base p = true) :
    (base.segments = [] ∧ below? base p = some p) ∨ ∃ n, base.segments = root ++ parts.take n ∧
      below? base p = some ⟨Text.join "/" ((parts.drop n).map Segment.text)⟩ := by
  simp only [below?, hunder, h.parts_eq, h.text_eq.1, Bool.not_true, Bool.false_eq_true, if_false]
  by_cases hempty : base.segments = []
  · refine .inl ⟨hempty, ?_⟩
    rw [if_pos (List.isEmpty_iff.mpr hempty), trimParts_split h.isPart, ← h.text_eq.2]
  · refine .inr ⟨base.segments.length - root.length, ?_, ?_⟩
    · have hlength : root.length ≤ base.segments.length := by
        have hpos := List.length_pos_of_ne_nil hempty
        obtain hroot | hroot := h.isRoot <;> rw [hroot]
        · exact Nat.zero_le _
        · exact hpos
      have hprefix := List.isPrefixOf_iff_prefix.mp hunder
      rw [h.segments_eq] at hprefix
      calc base.segments = (root ++ parts).take base.segments.length :=
            List.prefix_iff_eq_take.mp hprefix
        _ = root ++ parts.take (base.segments.length - root.length) := by
            rw [List.take_append, List.take_of_length_le hlength]
    · rw [if_neg (by simpa using hempty), trimParts_dropSegments h.isPart]

end MadeOf

/-! ## Taken from the directory -/

/-- A relative path taken from a directory has the segments of the directory and its own. -/
theorem normalize_join_of_relative {t : Text} (hrelative : isAbsolute ⟨t⟩ = false) :
    (base.join ⟨t⟩).normalize =
      ofSegments ((names t).foldl fold (base.segments.foldl fold [])).reverse := by
  by_cases hbase : base.text = []
  · obtain rfl : base = ⟨[]⟩ := congrArg Path.mk hbase
    have hjoin : join ⟨[]⟩ ⟨t⟩ = ⟨t⟩ := by
      rw [join, hrelative]
      rfl
    rw [hjoin, normalize_eq, rootOf_eq_nil_iff.mpr hrelative]
    rfl
  · rw [normalize_join hbase hrelative, normalize_eq, rootOf_append hbase, names_append_slash,
      ← List.append_assoc, List.foldl_append, ← foldl_segments]

/-- What is left of a normal form below a directory, taken from the directory, is that normal form
again. -/
theorem normalize_join_below? {rest : Path} (hp : p.normalize = p)
    (h : below? base p = some rest) : (base.join rest).normalize = p := by
  have hunder : isUnder base p = true := by
    by_contra hnot
    rw [below?, Bool.eq_false_iff.mpr hnot] at h
    cases h
  obtain ⟨root, parts, hmade⟩ := exists_madeOf hp
  obtain ⟨hempty, hbelow⟩ | ⟨n, hsegments, hbelow⟩ := hmade.below?_eq hunder
  · obtain rfl := Option.some.inj (hbelow.symm.trans h)
    cases hrelative : p.isAbsolute with
    | true => rw [join, if_pos hrelative, hp]
    | false =>
      have hnormal := normalize_eq p.text
      rw [rootOf_eq_nil_iff.mpr hrelative, List.nil_append] at hnormal
      rw [normalize_join_of_relative hrelative, hempty]
      exact hnormal.symm.trans hp
  · obtain rfl := Option.some.inj (hbelow.symm.trans h)
    have hrest : ∀ s ∈ parts.drop n, s.IsPart := fun s hs =>
      hmade.isPart s (List.mem_of_mem_drop hs)
    rw [normalize_join_of_relative (rootOf_eq_nil_iff.mp (rootOf_join hrest)), names_join hrest,
      ← List.foldl_append, hsegments, List.append_assoc, List.take_append_drop, ← hmade.segments_eq,
      hmade.foldl_segments, List.reverse_reverse, hmade.segments_eq, ← hmade.eq]

end ControlFiles.Path
