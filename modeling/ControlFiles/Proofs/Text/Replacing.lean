import ControlFiles.Proofs.Text.Bytes
import ControlFiles.Text.Replace

/-!
# Replacing occurrences

A text is taken apart at the occurrences of another in just one way (`Text.CutAt`, `CutAt.unique`):
into pieces that no occurrence starts in, and the occurrences behind them. Replacing keeps the
pieces and puts the new text in the place of each occurrence (`Text.exists_cutAt`).

The occurrences can also be found by their bytes, in lower case (`Text.placesFrom`), and the pieces
be sliced out of the text at these places (`Text.replaceBytes?`). A byte is in the same place in
both cases, so no slice ends inside of a character, and the same text comes out
(`Text.replaceAlike_cuts`).
-/

namespace ControlFiles.Text

variable {old new t rest last piece found : Text} {cuts : List (Text × Text)}

/-! ## Occurrences -/

theorem startsAlike_iff : startsAlike old t = true ↔ lower old <+: lower t := by
  have hlength : (lower old).length = old.length := List.length_map Char.toLower
  have htake : lower (t.take old.length) = (lower t).take old.length := List.map_take
  rw [startsAlike, alike_iff, List.prefix_iff_eq_take, hlength, htake]

theorem startsAlike_append (h : alike old found = true) (rest : Text) :
    startsAlike old (found ++ rest) = true := by
  rw [startsAlike_iff, alike_iff.mp h]
  exact ⟨lower rest, List.map_append.symm⟩

theorem length_eq_of_alike {a b : Text} (h : alike a b = true) : a.length = b.length := by
  simpa [lower] using congrArg List.length (alike_iff.mp h)

/-- A text taken apart at the occurrences of `old`, from the left: pieces with the occurrences
behind them, and what is left behind the last. No occurrence starts in a piece, nor in what is
left. -/
inductive CutAt (old : Text) : Text → List (Text × Text) → Text → Prop where
  | last {t : Text} (h : ∀ b, b <:+ t → startsAlike old b = false) : CutAt old t [] t
  | next {piece found rest last : Text} {cuts : List (Text × Text)}
      (hfound : alike old found = true)
      (hpiece : ∀ b, b <:+ piece → b ≠ [] → startsAlike old (b ++ (found ++ rest)) = false)
      (hrest : CutAt old rest cuts last) :
      CutAt old (piece ++ (found ++ rest)) ((piece, found) :: cuts) last

namespace CutAt

theorem eq_flatMap (h : CutAt old t cuts last) :
    t = cuts.flatMap (fun cut => cut.1 ++ cut.2) ++ last := by
  induction h with
  | last => rfl
  | next hfound hpiece hrest ih =>
    rw [List.flatMap_cons, List.append_assoc, ← ih, List.append_assoc]

/-- The first of two pieces is no shorter than the second. -/
theorem suffix_eq_nil {piece' found' rest' b : Text} (hfound : alike old found = true)
    (hpiece : ∀ b, b <:+ piece' → b ≠ [] → startsAlike old (b ++ (found' ++ rest')) = false)
    (hb : b <:+ piece') (h : found ++ rest = b ++ (found' ++ rest')) : b = [] := by
  by_contra hne
  have hnone := hpiece b hb hne
  rw [← h, startsAlike_append hfound] at hnone
  cases hnone

/-- A text is taken apart in one way. -/
theorem unique {cuts' : List (Text × Text)} {last' : Text} (h : CutAt old t cuts last)
    (h' : CutAt old t cuts' last') : cuts' = cuts ∧ last' = last := by
  induction h generalizing cuts' last' with
  | last hnone =>
    cases h' with
    | last => exact ⟨rfl, rfl⟩
    | next hfound =>
      have hstarts := hnone _ (List.suffix_append _ _)
      rw [startsAlike_append hfound] at hstarts
      cases hstarts
  | @next piece found rest last cuts hfound hpiece hrest ih =>
    generalize htext : piece ++ (found ++ rest) = t at h'
    cases h' with
    | last hnone =>
      have hstarts := hnone (found ++ rest) (htext ▸ List.suffix_append _ _)
      rw [startsAlike_append hfound] at hstarts
      cases hstarts
    | @next piece' found' rest' _ cuts' hfound' hpiece' hrest' =>
      obtain rfl : piece = piece' := by
        obtain ⟨b, rfl, h⟩ | ⟨b, rfl, h⟩ := List.append_eq_append_iff.mp htext
        · rw [suffix_eq_nil hfound hpiece' (List.suffix_append _ _) h, List.append_nil]
        · rw [suffix_eq_nil hfound' hpiece (List.suffix_append _ _) h, List.append_nil]
      obtain ⟨rfl, rfl⟩ := List.append_inj (List.append_cancel_left htext)
        ((length_eq_of_alike hfound).symm.trans (length_eq_of_alike hfound'))
      obtain ⟨rfl, rfl⟩ := ih hrest'
      exact ⟨rfl, rfl⟩

end CutAt

/-- The pieces, with `new` in the place of the occurrences. -/
def fill (new : Text) (cuts : List (Text × Text)) (last : Text) : Text :=
  cuts.flatMap (fun cut => cut.1 ++ new) ++ last

theorem replaceFrom_eq_drop (k : Nat) (t : Text) :
    replaceFrom old new k t = replaceFrom old new 0 (t.drop k) := by
  induction k generalizing t with
  | zero => rfl
  | succ k ih =>
    cases t with
    | nil => rfl
    | cons c t => exact ih t

/-- What starts with an occurrence is replaced there, and goes on behind it. -/
theorem replaceFrom_found (hold : old ≠ []) (hfound : alike old found = true) (rest : Text) :
    replaceFrom old new 0 (found ++ rest) = new ++ replaceFrom old new 0 rest := by
  have hlength := length_eq_of_alike hfound
  have hpos := List.length_pos_of_ne_nil hold
  obtain ⟨c, found, rfl⟩ := List.exists_cons_of_length_pos (hlength ▸ hpos)
  have hstarts := startsAlike_append hfound rest
  have hdrop : (found ++ rest).drop (old.length - 1) = rest := by
    rw [hlength, List.length_cons, Nat.add_sub_cancel, List.drop_left]
  rw [List.cons_append] at hstarts ⊢
  rw [replaceFrom, if_pos hstarts, replaceFrom_eq_drop, hdrop]

/-- The character before a text is kept, if no occurrence starts there. -/
theorem CutAt.exists_cons {c : Char} (h : CutAt old t cuts last)
    (hc : startsAlike old (c :: t) = false) :
    ∃ cuts' last', CutAt old (c :: t) cuts' last' ∧
      ∀ new, fill new cuts' last' = c :: fill new cuts last := by
  cases h with
  | last hnone =>
    refine ⟨[], c :: t, .last fun b hb => ?_, fun _ => rfl⟩
    obtain rfl | hb := List.suffix_cons_iff.mp hb
    · exact hc
    · exact hnone b hb
  | @next piece found rest _ cuts hfound hpiece hrest =>
    have hlonger : ∀ b, b <:+ c :: piece → b ≠ [] →
        startsAlike old (b ++ (found ++ rest)) = false := by
      intro b hb hne
      obtain rfl | hb := List.suffix_cons_iff.mp hb
      · exact hc
      · exact hpiece b hb hne
    exact ⟨_, last, .next hfound hlonger hrest, fun _ => rfl⟩

/-- Replacing takes a text apart and fills it. -/
theorem exists_cutAt (hold : old ≠ []) (t : Text) :
    ∃ cuts last, CutAt old t cuts last ∧ ∀ new, replaceFrom old new 0 t = fill new cuts last := by
  induction hlen : t.length using Nat.strong_induction_on generalizing t with
  | _ n ih =>
    subst hlen
    cases t with
    | nil =>
      refine ⟨[], [], .last fun b hb => ?_, fun _ => rfl⟩
      rw [List.suffix_nil.mp hb, Bool.eq_false_iff]
      intro hstarts
      exact hold (List.map_eq_nil_iff.mp (List.prefix_nil.mp (startsAlike_iff.mp hstarts)))
    | cons c t =>
      cases hstarts : startsAlike old (c :: t) with
      | true =>
        have hpos := List.length_pos_of_ne_nil hold
        obtain ⟨cuts, last, hcut, hfill⟩ := ih ((c :: t).drop old.length).length
          (by rw [List.length_drop, List.length_cons]; omega) _ rfl
        have htext : (c :: t).take old.length ++ (c :: t).drop old.length = c :: t :=
          List.take_append_drop _ _
        have hnext : CutAt old ([] ++ (_ ++ _)) _ last := .next hstarts (by simp) hcut
        rw [List.nil_append, htext] at hnext
        refine ⟨_, last, hnext, fun new => ?_⟩
        rw [← htext, replaceFrom_found hold hstarts, hfill]
        simp [fill]
      | false =>
        obtain ⟨cuts, last, hcut, hfill⟩ := ih t.length (by simp) t rfl
        obtain ⟨cuts', last', hcut', hfill'⟩ := hcut.exists_cons hstarts
        refine ⟨cuts', last', hcut', fun new => ?_⟩
        rw [hfill', ← hfill, replaceFrom, hstarts]
        rfl

/-! ## Places of bytes -/

/-- The places at which `part` starts in some bytes, of which the first is at `start`; one that
overlaps an earlier one, of which `skip` bytes are left, does not count. -/
def placesFrom (part : List UInt8) : (skip start : Nat) → List UInt8 → List Nat
  | _, _, [] => []
  | skip + 1, start, _ :: rest => placesFrom part skip (start + 1) rest
  | 0, start, b :: rest =>
    if part.isPrefixOf (b :: rest) then start :: placesFrom part (part.length - 1) (start + 1) rest
    else placesFrom part 0 (start + 1) rest

/-- The places of the occurrences that a text is taken apart at. -/
def placesOf (start : Nat) : List (Text × Text) → List Nat
  | [] => []
  | (piece, found) :: cuts =>
    let place := start + (utf8 piece).length
    place :: placesOf (place + (utf8 found).length) cuts

section Places
variable {part bytes : List UInt8} {start : Nat}

theorem placesFrom_eq_drop (k start : Nat) (bytes : List UInt8) :
    placesFrom part k start bytes = placesFrom part 0 (start + k) (bytes.drop k) := by
  induction k generalizing start bytes with
  | zero => rfl
  | succ k ih =>
    cases bytes with
    | nil => rfl
    | cons b bytes =>
      rw [placesFrom, ih, List.drop_succ_cons]
      congr 1
      omega

theorem placesFrom_found (hpart : part ≠ []) (start : Nat) (bytes : List UInt8) :
    placesFrom part 0 start (part ++ bytes) =
      start :: placesFrom part 0 (start + part.length) bytes := by
  obtain ⟨b, part, rfl⟩ := List.exists_cons_of_ne_nil hpart
  have hstarts : (b :: part).isPrefixOf (b :: (part ++ bytes)) = true :=
    List.isPrefixOf_iff_prefix.mpr (List.prefix_append (b :: part) bytes)
  rw [List.cons_append, placesFrom, if_pos hstarts, placesFrom_eq_drop, List.length_cons,
    Nat.add_sub_cancel, List.drop_left]
  congr 2
  omega

/-- Bytes in which `part` starts nowhere are passed. -/
theorem placesFrom_append {skipped : List UInt8} (start : Nat)
    (h : ∀ k < skipped.length, ¬ part <+: skipped.drop k ++ bytes) :
    placesFrom part 0 start (skipped ++ bytes) =
      placesFrom part 0 (start + skipped.length) bytes := by
  induction skipped generalizing start with
  | nil => rfl
  | cons b skipped ih =>
    have hfirst : part.isPrefixOf (b :: (skipped ++ bytes)) = false := by
      rw [Bool.eq_false_iff, Ne, List.isPrefixOf_iff_prefix]
      exact h 0 (by simp)
    have hrest : ∀ k < skipped.length, ¬ part <+: skipped.drop k ++ bytes := fun k hk =>
      h (k + 1) (by simpa using hk)
    rw [List.cons_append, placesFrom, hfirst, if_neg (by decide), ih _ hrest, List.length_cons]
    congr 1
    omega

end Places

/-- The bytes of `old`, in lower case. -/
theorem prefix_utf8_iff : utf8 (lower old) <+: utf8 (lower t) ↔ startsAlike old t = true := by
  rw [utf8_prefix_iff, startsAlike_iff]

/-- A piece in which no occurrence starts is passed, and so are the bytes inside of its
characters. -/
theorem placesFrom_piece (hold : old ≠ []) (start : Nat)
    (h : ∀ b, b <:+ piece → b ≠ [] → startsAlike old (b ++ rest) = false) :
    placesFrom (utf8 (lower old)) 0 start (utf8 (lower (piece ++ rest))) =
      placesFrom (utf8 (lower old)) 0 (start + (utf8 piece).length) (utf8 (lower rest)) := by
  induction piece generalizing start with
  | nil => rfl
  | cons c piece ih =>
    have hcons : lower (c :: piece ++ rest) = c.toLower :: lower (piece ++ rest) := rfl
    have hlower : lower old ≠ [] := fun hnil => hold (List.map_eq_nil_iff.mp hnil)
    have hsize : (String.utf8EncodeChar c.toLower).length = c.utf8Size := by
      rw [encode_toLower, List.length_map, String.length_utf8EncodeChar]
    rw [hcons, utf8_cons, placesFrom_append start ?_, hsize,
      ih _ fun b hb => h b (hb.trans (List.suffix_cons c piece)), length_utf8_cons, Nat.add_assoc]
    intro k hk
    cases k with
    | zero =>
      have hnone := h (c :: piece) List.suffix_rfl (List.cons_ne_nil c piece)
      rw [List.drop_zero, ← utf8_cons, ← hcons, prefix_utf8_iff, hnone]
      exact Bool.false_ne_true
    | succ k => exact not_prefix_drop hlower (Nat.succ_ne_zero k) hk _

/-- The bytes of `old` are found, in lower case, where its occurrences are. -/
theorem CutAt.placesFrom_eq (h : CutAt old t cuts last) (hold : old ≠ []) (start : Nat) :
    placesFrom (utf8 (lower old)) 0 start (utf8 (lower t)) = placesOf start cuts := by
  induction h generalizing start with
  | @last t hnone =>
    have hpiece : ∀ b, b <:+ t → b ≠ [] → startsAlike old (b ++ []) = false := fun b hb _ => by
      rw [List.append_nil]
      exact hnone b hb
    have hpassed := placesFrom_piece hold start hpiece
    rw [List.append_nil] at hpassed
    exact hpassed
  | @next piece found rest last cuts hfound hpiece hrest ih =>
    have hne : utf8 (lower old) ≠ [] := fun hnil => by
      have hprefix : utf8 (lower old) <+: utf8 (lower []) := hnil ▸ List.prefix_rfl
      exact hold (List.map_eq_nil_iff.mp (List.prefix_nil.mp (utf8_prefix_iff.mp hprefix)))
    have happend : utf8 (lower (found ++ rest)) = utf8 (lower old) ++ utf8 (lower rest) := by
      rw [alike_iff.mp hfound, ← utf8_append]
      exact congrArg utf8 List.map_append
    rw [placesFrom_piece hold start hpiece, happend, placesFrom_found hne, ih, placesOf,
      alike_iff.mp hfound, length_utf8_lower]

/-! ## Slices of the text -/

/-- The text with what starts at some places, in `size` bytes each, replaced, from the byte `start`;
nothing if a slice ends inside of a character. -/
def replaceAt? (t new : Text) (size : Nat) : (start : Nat) → List Nat → Option Text
  | start, [] => slice? t start (utf8 t).length
  | start, place :: places => do
    let piece ← slice? t start place
    let rest ← replaceAt? t new size (place + size) places
    return piece ++ new ++ rest

/-- The text with every occurrence of `old` replaced, as they are found in the bytes in lower
case. -/
def replaceBytes? (old new t : Text) : Option Text :=
  replaceAt? t new (utf8 old).length 0
    (placesFrom ((utf8 old).map lowerByte) 0 0 ((utf8 t).map lowerByte))

/-- The pieces are the slices between the occurrences. -/
theorem CutAt.replaceAt?_eq (h : CutAt old t cuts last) (new before : Text) :
    replaceAt? (before ++ t) new (utf8 old).length (utf8 before).length
      (placesOf (utf8 before).length cuts) = some (fill new cuts last) := by
  induction h generalizing before with
  | @last t _ =>
    have hslice := slice?_append before t []
    rw [List.append_nil] at hslice
    rw [placesOf, replaceAt?, hslice]
    rfl
  | @next piece found rest last cuts hfound _ _ ih =>
    have hplace : (utf8 before).length + (utf8 piece).length = (utf8 (before ++ piece)).length := by
      rw [utf8_append, List.length_append]
    have hbehind : (utf8 (before ++ piece)).length + (utf8 found).length =
        (utf8 (before ++ (piece ++ found))).length := by
      rw [← List.append_assoc, utf8_append _ found, List.length_append]
    have hsize := length_utf8_of_alike hfound
    have hrest := ih (before ++ (piece ++ found))
    rw [List.append_assoc, List.append_assoc, hsize] at hrest
    rw [placesOf, replaceAt?, hplace, slice?_append before piece, hsize, hbehind, hrest]
    simp [fill]

/-- Of `old`, which is not empty, the occurrences in a text are taken from the left, in whatever
case. They are replaced, and the pieces between them are kept. By bytes the same occurrences are
found, and the same pieces: no slice ends inside of a character. -/
theorem replaceAlike_cuts (hold : old ≠ []) (new t : Text) :
    ∃ cuts last, CutAt old t cuts last ∧
      (∀ cuts' last', CutAt old t cuts' last' → cuts' = cuts ∧ last' = last) ∧
      t = cuts.flatMap (fun cut => cut.1 ++ cut.2) ++ last ∧
      replaceAlike old new t = cuts.flatMap (fun cut => cut.1 ++ new) ++ last ∧
      placesFrom ((utf8 old).map lowerByte) 0 0 ((utf8 t).map lowerByte) = placesOf 0 cuts ∧
      replaceBytes? old new t = some (replaceAlike old new t) := by
  obtain ⟨cuts, last, hcut, hfill⟩ := exists_cutAt hold t
  have hreplace : replaceAlike old new t = fill new cuts last := by
    rw [replaceAlike, if_neg (by simpa using hold), hfill]
  have hplaces : placesFrom ((utf8 old).map lowerByte) 0 0 ((utf8 t).map lowerByte) =
      placesOf 0 cuts := by
    rw [← utf8_lower, ← utf8_lower, hcut.placesFrom_eq hold]
  refine ⟨cuts, last, hcut, fun _ _ => hcut.unique, hcut.eq_flatMap, hreplace, hplaces, ?_⟩
  rw [replaceBytes?, hplaces, hreplace]
  exact hcut.replaceAt?_eq new []

/-- Of occurrences that overlap the first counts, and the letters around them keep their bytes. -/
theorem replaceAlike_cuts_overlapping :
    let old : Text := "aA"
    let t : Text := "éaAaAaß"
    old ≠ [] ∧ replaceAlike old "ü" t = "éüüaß" ∧
      replaceBytes? old "ü" t = some ("éüüaß" : Text) ∧
      ∃ cuts last, CutAt old t cuts last ∧ placesOf 0 cuts = [2, 4] := by
  intro old t
  have hold : old ≠ [] := by decide
  obtain ⟨cuts, last, hcut, -, -, -, hplaces, hbytes⟩ := replaceAlike_cuts hold "ü" t
  have hreplace : replaceAlike old "ü" t = "éüüaß" := by decide
  refine ⟨hold, hreplace, hreplace ▸ hbytes, cuts, last, hcut, ?_⟩
  rw [← hplaces]
  decide +kernel

end ControlFiles.Text
