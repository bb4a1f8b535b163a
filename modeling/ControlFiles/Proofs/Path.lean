import ControlFiles.Path
import ControlFiles.Proofs.Text.Parts
import Mathlib.Order.Compare

/-!
# Normal forms of paths

The normal form of a path is made of its root and of the segments between its slashes
(`normalize_eq`), with `..` taken back against the name before it. It is the root, if there is one,
and parts that stand for themselves (`exists_normalize_eq`), so to read it again gives the same
segments, and there is nothing left to take back: a normal form is its own (`normalize_normalize`).
All its parts are parts of the path (`exists_normalize_join`).
-/

namespace ControlFiles

namespace Segment

theorem text_of_ofPart? {part : Text} {s : Segment} (h : ofPart? part = some s) :
    s.text = part := by
  rw [ofPart?] at h
  split_ifs at h with hempty hup
  · cases h
    exact hup.symm
  · cases h
    rfl

/-- The segment is what a part between slashes means: `..` or a name. -/
structure IsPart (s : Segment) : Prop where
  ofPart : ofPart? s.text = some s
  noSlash : '/' ∉ s.text

theorem isPart_of_ofPart? {part : Text} {s : Segment} (h : ofPart? part = some s)
    (hslash : '/' ∉ part) : s.IsPart := by
  have htext := text_of_ofPart? h
  exact ⟨htext ▸ h, htext ▸ hslash⟩

theorem IsPart.text_ne_nil {s : Segment} (h : s.IsPart) : s.text ≠ [] := by
  intro hnil
  have := h.ofPart
  rw [hnil] at this
  cases this

theorem order_eq {s t : Segment} (h : s.order t = .eq) : s = t := by
  rw [order, Ordering.then_eq_eq] at h
  obtain ⟨hrank, htext⟩ := h
  have hrank := Nat.compare_eq_eq.mp hrank
  have htext := Std.LawfulEqOrd.eq_of_compare htext
  cases s <;> cases t <;> simp_all [rank, text]

end Segment

namespace Path

/-! ## What a text means as a path -/

/-- The root, if the text starts with a slash. -/
def rootOf (t : Text) : List Segment := if Text.startsWith "/" t then [.root] else []

/-- The segments that the parts of a text between its slashes mean. -/
def names (t : Text) : List Segment := (Text.split '/' t).filterMap Segment.ofPart?

theorem rootOf_eq (t : Text) : rootOf t = [] ∨ rootOf t = [.root] := by
  rw [rootOf]
  split
  · exact .inr rfl
  · exact .inl rfl

theorem foldl_rootOf (t : Text) : (rootOf t).foldl fold [] = rootOf t := by
  obtain h | h := rootOf_eq t <;> rw [h] <;> rfl

theorem reverse_rootOf (t : Text) : (rootOf t).reverse = rootOf t := by
  obtain h | h := rootOf_eq t <;> rw [h] <;> rfl

theorem rootOf_append {a : Text} (h : a ≠ []) (b : Text) : rootOf (a ++ b) = rootOf a := by
  obtain ⟨c, a, rfl⟩ := List.exists_cons_of_ne_nil h
  simp [rootOf, Text.startsWith, List.isPrefixOf]

theorem names_append_slash (a b : Text) : names (a ++ '/' :: b) = names a ++ names b := by
  rw [names, Text.split_append_sep, List.filterMap_append, names, names]

theorem names_cons_slash (t : Text) : names ('/' :: t) = names t := names_append_slash [] t

theorem isPart_of_mem_names {t : Text} {s : Segment} (h : s ∈ names t) : s.IsPart := by
  obtain ⟨part, hpart, hs⟩ := List.mem_filterMap.mp h
  exact Segment.isPart_of_ofPart? hs (Text.not_mem_of_mem_split hpart)

/-- A `.` at the beginning of a path does not count for its normal form. -/
theorem foldl_segments (t : Text) :
    (segments ⟨t⟩).foldl fold [] = (rootOf t ++ names t).foldl fold [] := by
  rw [segments, parts]
  simp only [lead]
  split
  · rw [names_cons_slash]
    rfl
  · rfl
  · rename_i r
    have hnames : names ('.' :: '/' :: r) = names r := names_append_slash ['.'] r
    rw [hnames, ← names_cons_slash r]
    rfl
  · rename_i hroot _ _
    have hstarts : rootOf t = [] := by
      rw [rootOf, if_neg]
      intro h
      obtain ⟨r, hr⟩ := List.isPrefixOf_iff_prefix.mp h
      exact hroot r hr.symm
    rw [hstarts]
    rfl

/-- The root is there before any other segment. -/
theorem foldl_segments_eq (t : Text) :
    (segments ⟨t⟩).foldl fold [] = (names t).foldl fold (rootOf t) := by
  rw [foldl_segments, List.foldl_append, foldl_rootOf]

theorem normalize_eq (t : Text) :
    normalize ⟨t⟩ = ofSegments ((rootOf t ++ names t).foldl fold []).reverse := by
  rw [normalize, foldl_segments]

/-- One more slash before the root means nothing. -/
theorem normalize_cons_slash {t : Text} (h : Text.startsWith "/" t = true) :
    normalize ⟨'/' :: t⟩ = normalize ⟨t⟩ := by
  have hroot : rootOf ('/' :: t) = rootOf t := by
    rw [rootOf, rootOf, if_pos h, if_pos (by simp [Text.startsWith])]
  rw [normalize_eq, normalize_eq, names_cons_slash, hroot]

/-- In a directory with a text, a relative path stands behind that text and a slash. -/
theorem normalize_join {base : Path} {t : Text} (hbase : base.text ≠ [])
    (hrelative : (Path.mk t).isAbsolute = false) :
    (base.join ⟨t⟩).normalize = normalize ⟨base.text ++ '/' :: t⟩ := by
  rw [join, hrelative, if_neg (by simp)]
  split
  · rename_i hend
    rw [List.isEmpty_eq_false_iff.mpr hbase, Bool.false_or] at hend
    obtain ⟨before, hbefore⟩ := List.isSuffixOf_iff_suffix.mp hend
    have hnames : names (base.text ++ t) = names (base.text ++ '/' :: t) := by
      have hbase' : names base.text = names before := by
        rw [← hbefore]
        exact (names_append_slash before []).trans (List.append_nil _)
      rw [names_append_slash, hbase', ← names_append_slash, ← hbefore]
      simp
    rw [normalize_eq, normalize_eq, rootOf_append hbase, rootOf_append hbase,
      hnames]
  · simp

/-! ## The stack -/

/-- Nothing is taken back under the root, and everything above it is a part. -/
theorem exists_foldl_fold {root ss : List Segment} (hroot : root = [] ∨ root = [.root])
    (above : List Segment) (habove : ∀ s ∈ above, s.IsPart) (hss : ∀ s ∈ ss, s.IsPart) :
    ∃ above', ss.foldl fold (above ++ root) = above' ++ root ∧ ∀ s ∈ above', s.IsPart := by
  induction ss generalizing above with
  | nil => exact ⟨above, rfl, habove⟩
  | cons s ss ih =>
    have hs := hss s List.mem_cons_self
    have hrest : ∀ s ∈ ss, s.IsPart := fun s' hs' => hss s' (List.mem_cons_of_mem s hs')
    have hpush : ∀ s' ∈ s :: above, s'.IsPart := by
      simpa using ⟨hs, habove⟩
    rw [List.foldl_cons]
    cases s with
    | root => exact absurd hs.ofPart nofun
    | here => exact absurd hs.ofPart nofun
    | name n => exact ih _ hpush hrest
    | up =>
      cases above with
      | nil =>
        obtain rfl | rfl := hroot
        · exact ih _ hpush hrest
        · exact ih _ hpush hrest
      | cons top above =>
        cases top with
        | name n => exact ih _ (fun s hs => habove s (List.mem_cons_of_mem _ hs)) hrest
        | _ => exact ih _ hpush hrest

/-- The stack is what its segments, from the bottom, fold to. -/
def Folded (stack : List Segment) : Prop := stack.reverse.foldl fold [] = stack

theorem Folded.push {s : Segment} {stack : List Segment} (h : Folded stack)
    (hpush : fold stack s = s :: stack) : Folded (s :: stack) := by
  rw [Folded, List.reverse_cons, List.foldl_append, h]
  exact hpush

theorem Folded.pop {n : Text} {stack : List Segment} (h : Folded (.name n :: stack)) :
    Folded stack := by
  rw [Folded, List.reverse_cons, List.foldl_append] at h
  exact (List.cons.inj h).2

theorem Folded.fold {s : Segment} {stack : List Segment} (h : Folded stack) :
    Folded (fold stack s) := by
  cases s with
  | here => exact h
  | root => exact h.push rfl
  | name n => exact h.push rfl
  | up =>
    cases stack with
    | nil => exact h.push rfl
    | cons top stack =>
      cases top with
      | name n => exact h.pop
      | _ => exact h.push rfl

theorem folded_foldl {ss stack : List Segment} (h : Folded stack) :
    Folded (ss.foldl Path.fold stack) := by
  induction ss generalizing stack with
  | nil => exact h
  | cons s ss ih => exact ih h.fold

/-! ## Normal forms -/

theorem split_join {parts : List Segment} (hne : parts ≠ []) (hparts : ∀ s ∈ parts, s.IsPart) :
    Text.split '/' (Text.join "/" (parts.map Segment.text)) = parts.map Segment.text := by
  refine Text.split_join (by simpa using hne) fun t ht => ?_
  obtain ⟨s, hs, rfl⟩ := List.mem_map.mp ht
  exact (hparts s hs).noSlash

/-- Parts between slashes are read as they are. -/
theorem names_join {parts : List Segment} (hparts : ∀ s ∈ parts, s.IsPart) :
    names (Text.join "/" (parts.map Segment.text)) = parts := by
  by_cases hne : parts = []
  · rw [hne]
    rfl
  · have hself : ∀ s ∈ parts, (Segment.ofPart? ∘ Segment.text) s = some s :=
      fun s hs => (hparts s hs).ofPart
    rw [names, split_join hne hparts, List.filterMap_map, List.filterMap_congr hself,
      List.filterMap_some]

theorem textOf_parts {parts : List Segment} (hparts : ∀ s ∈ parts, s.IsPart) :
    textOf parts = Text.join "/" (parts.map Segment.text) := by
  cases parts with
  | nil => rfl
  | cons s parts =>
    cases s with
    | root => exact absurd (hparts .root List.mem_cons_self).ofPart nofun
    | _ => rfl

/-- Parts between slashes do not start at the root. -/
theorem rootOf_join {parts : List Segment} (hparts : ∀ s ∈ parts, s.IsPart) :
    rootOf (Text.join "/" (parts.map Segment.text)) = [] := by
  rw [rootOf, if_neg]
  intro h
  obtain ⟨after, hafter⟩ := List.isPrefixOf_iff_prefix.mp h
  cases parts with
  | nil => cases hafter
  | cons s parts =>
    obtain ⟨c, t, hc⟩ := List.exists_cons_of_ne_nil (hparts s List.mem_cons_self).text_ne_nil
    obtain ⟨behind, hbehind⟩ := Text.exists_join_cons "/" s.text (parts.map Segment.text)
    rw [List.map_cons, hbehind, hc] at hafter
    have hslash : '/' = c := (List.cons.inj hafter).1
    exact (hparts s List.mem_cons_self).noSlash (hc ▸ hslash ▸ List.mem_cons_self)

/-- The text of the root and some parts is read as they are. -/
theorem rootOf_textOf {root parts : List Segment} (hroot : root = [] ∨ root = [.root])
    (hparts : ∀ s ∈ parts, s.IsPart) : rootOf (textOf (root ++ parts)) = root := by
  obtain rfl | rfl := hroot
  · rw [List.nil_append, textOf_parts hparts, rootOf_join hparts]
  · rfl

theorem names_textOf {root parts : List Segment} (hroot : root = [] ∨ root = [.root])
    (hparts : ∀ s ∈ parts, s.IsPart) : names (textOf (root ++ parts)) = parts := by
  obtain rfl | rfl := hroot
  · rw [List.nil_append, textOf_parts hparts, names_join hparts]
  · have htext : textOf ([.root] ++ parts) = '/' :: Text.join "/" (parts.map Segment.text) := rfl
    rw [htext, names_cons_slash, names_join hparts]

/-- What the segments of a path fold to: its root, if it has one, and parts. -/
theorem exists_stack_eq (t : Text) : ∃ parts : List Segment, (∀ s ∈ parts, s.IsPart) ∧
    Folded (rootOf t ++ parts).reverse ∧
      (segments ⟨t⟩).foldl fold [] = (rootOf t ++ parts).reverse := by
  obtain ⟨above, hfold, habove⟩ := exists_foldl_fold (rootOf_eq t) [] (by simp)
    fun s hs => isPart_of_mem_names (t := t) hs
  have hstack : (segments ⟨t⟩).foldl fold [] = above ++ rootOf t := by
    rw [foldl_segments_eq]
    exact hfold
  have hreverse : (rootOf t ++ above.reverse).reverse = above ++ rootOf t := by
    rw [List.reverse_append, List.reverse_reverse, reverse_rootOf]
  refine ⟨above.reverse, by simpa using habove, ?_, hstack.trans hreverse.symm⟩
  rw [hreverse, ← hstack]
  exact folded_foldl rfl

/-- What a normal form is made of. -/
theorem exists_normalize_eq (t : Text) : ∃ parts : List Segment, (∀ s ∈ parts, s.IsPart) ∧
    Folded (rootOf t ++ parts).reverse ∧ normalize ⟨t⟩ = ofSegments (rootOf t ++ parts) := by
  obtain ⟨parts, hparts, hfolded, hstack⟩ := exists_stack_eq t
  refine ⟨parts, hparts, hfolded, ?_⟩
  rw [normalize, hstack, List.reverse_reverse]

/-- A normal form is absolute if the path is. -/
theorem rootOf_normalize (t : Text) : rootOf (normalize ⟨t⟩).text = rootOf t := by
  obtain ⟨parts, hparts, -, hnormal⟩ := exists_normalize_eq t
  rw [hnormal]
  exact rootOf_textOf (rootOf_eq t) hparts

/-- The segments of a normal form fold to what those of the path fold to. -/
theorem foldl_segments_normalize (p : Path) :
    p.normalize.segments.foldl fold [] = p.segments.foldl fold [] := by
  obtain ⟨parts, hparts, hfolded, hstack⟩ := exists_stack_eq p.text
  have hstack : p.segments.foldl fold [] = (rootOf p.text ++ parts).reverse := hstack
  have hnormal : p.normalize = ⟨textOf (rootOf p.text ++ parts)⟩ := by
    rw [normalize, hstack, List.reverse_reverse, ofSegments]
  rw [hnormal, foldl_segments, rootOf_textOf (rootOf_eq p.text) hparts,
    names_textOf (rootOf_eq p.text) hparts, hstack, ← hfolded, List.reverse_reverse]

theorem mem_of_mem_foldl_fold {s : Segment} {ss stack : List Segment}
    (h : s ∈ ss.foldl fold stack) : s ∈ stack ∨ s ∈ ss := by
  induction ss generalizing stack with
  | nil => exact .inl h
  | cons first ss ih =>
    have hfold : fold stack first ⊆ first :: stack := by
      unfold fold
      split
      · exact List.subset_cons_self _ _
      · exact fun s hs => List.mem_cons_of_mem _ (List.mem_cons_of_mem _ hs)
      · exact List.Subset.refl _
    obtain h | h := ih h
    · obtain rfl | h := List.mem_cons.mp (hfold h)
      · exact .inr List.mem_cons_self
      · exact .inl h
    · exact .inr (List.mem_cons_of_mem first h)

theorem text_of_mem_segments {t : Text} {s : Segment} (h : s ∈ rootOf t ++ names t) :
    s.text = [] ∨ s.text ∈ Text.split '/' t := by
  obtain h | h := List.mem_append.mp h
  · rw [rootOf] at h
    split at h
    · rw [List.mem_singleton.mp h]
      exact .inl rfl
    · cases h
  · obtain ⟨part, hpart, hs⟩ := List.mem_filterMap.mp h
    exact .inr (Segment.text_of_ofPart? hs ▸ hpart)

theorem exists_textOf_eq (ss : List Segment) : ∃ (front : Text) (rest : List Segment),
    textOf ss = front ++ Text.join "/" (rest.map Segment.text) ∧ (front = [] ∨ front = ['/']) ∧
      rest ⊆ ss := by
  cases ss with
  | nil => exact ⟨[], [], rfl, .inl rfl, nofun⟩
  | cons s ss =>
    cases s with
    | root => exact ⟨['/'], ss, rfl, .inr rfl, List.subset_cons_self _ _⟩
    | here => exact ⟨[], .here :: ss, rfl, .inl rfl, List.Subset.refl _⟩
    | up => exact ⟨[], .up :: ss, rfl, .inl rfl, List.Subset.refl _⟩
    | name n => exact ⟨[], .name n :: ss, rfl, .inl rfl, List.Subset.refl _⟩

/-- The text of a normal form is made of parts of the path, with a slash in front or without. -/
theorem exists_normalize_join (t : Text) : ∃ (front : Text) (parts : List Text),
    (normalize ⟨t⟩).text = front ++ Text.join "/" parts ∧ (front = [] ∨ front = ['/']) ∧
      ∀ part ∈ parts, part = [] ∨ part ∈ Text.split '/' t := by
  rw [normalize_eq]
  obtain ⟨front, rest, htext, hfront, hrest⟩ :=
    exists_textOf_eq ((rootOf t ++ names t).foldl fold []).reverse
  refine ⟨front, _, htext, hfront, fun part hpart => ?_⟩
  obtain ⟨s, hs, rfl⟩ := List.mem_map.mp hpart
  have hs := mem_of_mem_foldl_fold (List.mem_reverse.mp (hrest hs))
  exact text_of_mem_segments (hs.resolve_left List.not_mem_nil)

/-- A normal form is its own. -/
theorem normalize_normalize (p : Path) : p.normalize.normalize = p.normalize := by
  rw [normalize, foldl_segments_normalize, ← normalize]

/-! ## Order

Sorting leaves out what is equal in the order, and normal forms that are equal in the order are
equal.
-/

theorem orderSegments_eq {ss ts : List Segment} (h : orderSegments ss ts = .eq) : ss = ts := by
  induction ss generalizing ts with
  | nil => cases ts <;> simp_all [orderSegments]
  | cons s ss ih =>
    cases ts with
    | nil => simp [orderSegments] at h
    | cons t ts =>
      rw [orderSegments, Ordering.then_eq_eq] at h
      rw [Segment.order_eq h.1, ih h.2]

/-- Paths that are equal in the order have one normal form. -/
theorem normalize_eq_of_order {p q : Path} (h : p.order q = .eq) : p.normalize = q.normalize := by
  rw [normalize, normalize, orderSegments_eq h]

theorem mem_insertSorted_of_mem {p q : Path} {ps : List Path} (h : q ∈ ps) :
    q ∈ insertSorted p ps := by
  induction ps with
  | nil => cases h
  | cons r ps ih =>
    rw [insertSorted]
    split
    · exact List.mem_cons_of_mem p h
    · exact h
    · obtain rfl | h := List.mem_cons.mp h
      · exact List.mem_cons_self
      · exact List.mem_cons_of_mem r (ih h)

theorem mem_of_mem_insertSorted {p q : Path} {ps : List Path} (h : q ∈ insertSorted p ps) :
    q = p ∨ q ∈ ps := by
  induction ps with
  | nil => exact .inl (List.mem_singleton.mp h)
  | cons r ps ih =>
    rw [insertSorted] at h
    split at h
    · exact List.mem_cons.mp h
    · exact .inr h
    · obtain rfl | h := List.mem_cons.mp h
      · exact .inr List.mem_cons_self
      · exact (ih h).imp_right (List.mem_cons_of_mem r)

theorem mem_of_mem_foldl_insertSorted {p : Path} {new ps : List Path}
    (h : p ∈ new.foldl (fun acc q => insertSorted q acc) ps) : p ∈ ps ∨ p ∈ new := by
  induction new generalizing ps with
  | nil => exact .inl h
  | cons q new ih =>
    obtain h | h := ih h
    · obtain rfl | h := mem_of_mem_insertSorted h
      · exact .inr List.mem_cons_self
      · exact .inl h
    · exact .inr (List.mem_cons_of_mem q h)

/-- Among normal forms, a path is left out only if it is there already. -/
theorem mem_insertSorted {p : Path} {ps : List Path} (hp : p.normalize = p)
    (hps : ∀ q ∈ ps, q.normalize = q) : p ∈ insertSorted p ps := by
  induction ps with
  | nil => exact List.mem_singleton_self p
  | cons r ps ih =>
    rw [insertSorted]
    split
    · exact List.mem_cons_self
    · rename_i heq
      have hsame := normalize_eq_of_order heq
      rw [hp, hps r List.mem_cons_self] at hsame
      exact hsame ▸ List.mem_cons_self
    · exact List.mem_cons_of_mem r (ih fun q hq => hps q (List.mem_cons_of_mem r hq))

/-- Sorting loses and adds no normal form. -/
theorem mem_sorted {p : Path} {ps : List Path} (hps : ∀ q ∈ ps, q.normalize = q) :
    p ∈ sorted ps ↔ p ∈ ps := by
  have hfold : ∀ ps acc : List Path, (∀ q ∈ ps, q.normalize = q) → (∀ q ∈ acc, q.normalize = q) →
      (p ∈ ps.foldl (fun acc q => insertSorted q acc) acc ↔ p ∈ acc ∨ p ∈ ps) := by
    intro ps
    induction ps with
    | nil => simp
    | cons q ps ih =>
      intro acc hps hacc
      have hq := hps q List.mem_cons_self
      have hacc' : ∀ r ∈ insertSorted q acc, r.normalize = r := by
        intro r hr
        obtain rfl | hr := mem_of_mem_insertSorted hr
        · exact hq
        · exact hacc r hr
      have hmem : p ∈ insertSorted q acc ↔ p = q ∨ p ∈ acc := by
        refine ⟨mem_of_mem_insertSorted, ?_⟩
        rintro (rfl | h)
        · exact mem_insertSorted hq hacc
        · exact mem_insertSorted_of_mem h
      rw [List.foldl_cons, ih _ (fun r hr => hps r (List.mem_cons_of_mem q hr)) hacc', hmem,
        List.mem_cons, or_comm (a := p = q), or_assoc]
  simpa [sorted] using hfold ps [] hps (by simp)

end Path

end ControlFiles
