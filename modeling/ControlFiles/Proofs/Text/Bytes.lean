import ControlFiles.Proofs.Variables

/-!
# Texts as bytes

In UTF-8 a text starts with another exactly if its bytes start with those of the other
(`Text.utf8_prefix_iff`), and no text is found inside of a character (`Text.not_prefix_drop`). The
letters that have a lower case are single bytes, so a text in lower case is made byte by byte
(`Text.utf8_lower`). A text can be cut at a byte only where a character ends
(`Text.cutBytes?_eq_some`), so a slice stands between two places of its text
(`Text.slice?_eq_some`).
-/

namespace ControlFiles.Text

/-! ## Characters -/

theorem utf8_cons (c : Char) (t : Text) : utf8 (c :: t) = String.utf8EncodeChar c ++ utf8 t := rfl

theorem utf8_append (a b : Text) : utf8 (a ++ b) = utf8 a ++ utf8 b := List.flatMap_append

/-- Bytes tell the character that they start with. -/
theorem encode_inj {c d : Char} {as bs : List UInt8}
    (h : String.utf8EncodeChar c ++ as = String.utf8EncodeChar d ++ bs) : c = d ∧ as = bs := by
  have hdecode : ∀ (c : Char) (bytes : List UInt8),
      (String.utf8EncodeChar c ++ bytes).toByteArray.utf8DecodeChar? 0 = some c := fun c bytes => by
    rw [List.toByteArray_append, ByteArray.utf8DecodeChar?_utf8EncodeChar_append]
  obtain rfl : c = d := Option.some.inj ((hdecode c as).symm.trans (h ▸ hdecode d bs))
  exact ⟨rfl, List.append_cancel_left h⟩

theorem encode_ne_nil (c : Char) : String.utf8EncodeChar c ≠ [] := by
  intro h
  have hlength := String.length_utf8EncodeChar c
  rw [h] at hlength
  exact absurd hlength.symm (Nat.ne_of_gt c.utf8Size_pos)

/-- The bytes of a text start with those of another if the text starts with the other. -/
theorem utf8_prefix_iff {a b : Text} : utf8 a <+: utf8 b ↔ a <+: b := by
  refine ⟨fun h => ?_, ?_⟩
  · induction a generalizing b with
    | nil => exact List.nil_prefix
    | cons c a ih =>
      obtain ⟨rest, hrest⟩ := h
      rw [utf8_cons, List.append_assoc] at hrest
      cases b with
      | nil => exact absurd (List.append_eq_nil_iff.mp hrest).1 (encode_ne_nil c)
      | cons d b =>
        obtain ⟨rfl, htail⟩ := encode_inj hrest
        exact List.cons_prefix_cons.mpr ⟨rfl, ih ⟨rest, htail⟩⟩
  · rintro ⟨rest, rfl⟩
    rw [utf8_append]
    exact List.prefix_append _ _

/-- No text starts inside of a character. -/
theorem not_prefix_drop {a : Text} (ha : a ≠ []) {c : Char} {k : Nat} (hk : k ≠ 0)
    (hlength : k < (String.utf8EncodeChar c).length) (rest : List UInt8) :
    ¬ utf8 a <+: (String.utf8EncodeChar c).drop k ++ rest := by
  obtain ⟨d, a, rfl⟩ := List.exists_cons_of_ne_nil ha
  rintro ⟨behind, h⟩
  have hd := List.length_pos_of_ne_nil (encode_ne_nil d)
  have hfirst : (String.utf8EncodeChar d)[0].IsUTF8FirstByte :=
    UInt8.isUTF8FirstByte_getElem_utf8EncodeChar.mpr rfl
  have hsame : (String.utf8EncodeChar d)[0] = (String.utf8EncodeChar c)[k] := by
    have hdrop : 0 < ((String.utf8EncodeChar c).drop k).length := by
      rw [List.length_drop]
      omega
    have hhead := congrArg (fun bytes => bytes[0]?) h
    rw [utf8_cons, List.append_assoc, List.getElem?_append_left hd, List.getElem?_append_left hdrop,
      List.getElem?_drop, Nat.add_zero, List.getElem?_eq_getElem hd,
      List.getElem?_eq_getElem hlength] at hhead
    exact Option.some.inj hhead
  exact hk (UInt8.isUTF8FirstByte_getElem_utf8EncodeChar.mp (hsame ▸ hfirst))

/-! ## Lower case -/

/-- The byte in lower case, if it is that of a letter. -/
def lowerByte (b : UInt8) : UInt8 := if 65 ≤ b ∧ b ≤ 90 then b + 32 else b

/-- A byte is that of its character, or no letter. -/
theorem mem_encode {c : Char} {b : UInt8} (h : b ∈ String.utf8EncodeChar c) :
    b.toNat = c.toNat ∨ 128 ≤ b.toNat := by
  have hbyte : c.val.toNat = c.toNat := rfl
  simp only [String.utf8EncodeChar] at h
  split at h
  · left
    rw [List.mem_singleton.mp h, UInt8.toNat_ofNat']
    omega
  · right
    split at h
    · simp only [List.mem_cons, List.not_mem_nil, or_false] at h
      obtain rfl | rfl := h <;> rw [UInt8.toNat_ofNat'] <;> omega
    · split at h
      · simp only [List.mem_cons, List.not_mem_nil, or_false] at h
        obtain rfl | rfl | rfl := h <;> rw [UInt8.toNat_ofNat'] <;> omega
      · simp only [List.mem_cons, List.not_mem_nil, or_false] at h
        obtain rfl | rfl | rfl | rfl := h <;> rw [UInt8.toNat_ofNat'] <;> omega

theorem encode_toLower (c : Char) :
    String.utf8EncodeChar c.toLower = (String.utf8EncodeChar c).map lowerByte := by
  by_cases hc : c ∈ capitals
  · have hall : (capitals.all fun c =>
        String.utf8EncodeChar c.toLower = (String.utf8EncodeChar c).map lowerByte) = true := by
      decide +kernel
    exact of_decide_eq_true (List.all_eq_true.mp hall c hc)
  · have hself : ∀ b ∈ String.utf8EncodeChar c, lowerByte b = b := by
      intro b hb
      refine if_neg fun hletter => hc ?_
      have hlow : 65 ≤ b.toNat := UInt8.le_iff_toNat_le.mp hletter.1
      have hhigh : b.toNat ≤ 90 := UInt8.le_iff_toNat_le.mp hletter.2
      have hsame : b.toNat = c.toNat := (mem_encode hb).resolve_right (by omega)
      rw [hsame] at hlow hhigh
      exact mem_capitals hlow hhigh
    rw [toLower_of_notMem hc, List.map_congr_left hself, List.map_id']

/-- A text in lower case is made byte by byte. -/
theorem utf8_lower (t : Text) : utf8 (lower t) = (utf8 t).map lowerByte := by
  induction t with
  | nil => rfl
  | cons c t ih =>
    have hcons : lower (c :: t) = c.toLower :: lower t := rfl
    rw [hcons, utf8_cons, utf8_cons, encode_toLower, ih, List.map_append]

/-- Lower case keeps the place of every byte. -/
theorem length_utf8_lower (t : Text) : (utf8 (lower t)).length = (utf8 t).length := by
  rw [utf8_lower, List.length_map]

theorem length_utf8_of_alike {a b : Text} (h : alike a b = true) :
    (utf8 a).length = (utf8 b).length := by
  rw [← length_utf8_lower a, alike_iff.mp h, length_utf8_lower]

/-! ## Cutting at a byte -/

/-- The text up to a byte and behind it; nothing if the byte is inside of a character or beyond the
end. -/
def cutBytes? : Nat → Text → Option (Text × Text)
  | 0, t => some ([], t)
  | _ + 1, [] => none
  | n + 1, c :: t =>
    if c.utf8Size ≤ n + 1 then (cutBytes? (n + 1 - c.utf8Size) t).map fun cut => (c :: cut.1, cut.2)
    else none

/-- The text between two bytes. -/
def slice? (t : Text) (start stop : Nat) : Option Text :=
  ((cutBytes? stop t).bind fun cut => cutBytes? start cut.1).map (·.2)

theorem length_utf8_cons (c : Char) (t : Text) :
    (utf8 (c :: t)).length = c.utf8Size + (utf8 t).length := by
  rw [utf8_cons, List.length_append, String.length_utf8EncodeChar]

theorem cutBytes?_append (a b : Text) : cutBytes? (utf8 a).length (a ++ b) = some (a, b) := by
  induction a with
  | nil => cases b <;> rfl
  | cons c a ih =>
    obtain ⟨n, hn⟩ : ∃ n, (utf8 (c :: a)).length = n + 1 :=
      Nat.exists_eq_add_one_of_ne_zero (by
        have hpos := c.utf8Size_pos
        rw [length_utf8_cons]
        omega)
    have hsize : c.utf8Size ≤ n + 1 ∧ n + 1 - c.utf8Size = (utf8 a).length := by
      rw [length_utf8_cons] at hn
      omega
    rw [hn, List.cons_append, cutBytes?, if_pos hsize.1, hsize.2, ih]
    rfl

/-- A text is cut between two characters. -/
theorem cutBytes?_eq_some {n : Nat} {t a b : Text} :
    cutBytes? n t = some (a, b) ↔ t = a ++ b ∧ (utf8 a).length = n := by
  refine ⟨fun h => ?_, ?_⟩
  · induction t generalizing n a with
    | nil =>
      cases n with
      | zero => cases h; exact ⟨rfl, rfl⟩
      | succ n => cases h
    | cons c t ih =>
      cases n with
      | zero => cases h; exact ⟨rfl, rfl⟩
      | succ n =>
        rw [cutBytes?] at h
        split at h
        · rename_i hsize
          obtain ⟨⟨a', b'⟩, hcut, heq⟩ := Option.map_eq_some_iff.mp h
          obtain ⟨rfl, rfl⟩ := Prod.mk.inj heq
          obtain ⟨rfl, hlength⟩ := ih hcut
          refine ⟨rfl, ?_⟩
          rw [length_utf8_cons, hlength]
          omega
        · cases h
  · rintro ⟨rfl, rfl⟩
    exact cutBytes?_append a b

/-- A slice of a text stands between two of its places. -/
theorem slice?_eq_some {start stop : Nat} {t s : Text} :
    slice? t start stop = some s ↔ ∃ before behind, t = before ++ (s ++ behind) ∧
      (utf8 before).length = start ∧ (utf8 (before ++ s)).length = stop := by
  constructor
  · intro h
    obtain ⟨⟨before, s'⟩, hcut, rfl⟩ := Option.map_eq_some_iff.mp h
    obtain ⟨⟨upTo, behind⟩, hstop, hstart⟩ := Option.bind_eq_some_iff.mp hcut
    obtain ⟨rfl, hlength⟩ := cutBytes?_eq_some.mp hstop
    obtain ⟨rfl, hbefore⟩ := cutBytes?_eq_some.mp hstart
    exact ⟨before, behind, List.append_assoc _ _ _, hbefore, hlength⟩
  · rintro ⟨before, behind, rfl, rfl, rfl⟩
    rw [slice?, ← List.append_assoc, cutBytes?_append, Option.bind_some, cutBytes?_append]
    rfl

theorem slice?_append (a b c : Text) :
    slice? (a ++ (b ++ c)) (utf8 a).length (utf8 (a ++ b)).length = some b :=
  slice?_eq_some.mpr ⟨a, c, rfl, rfl, rfl⟩

end ControlFiles.Text
