import ControlFiles.Proofs.Text.Parts
import ControlFiles.Template

/-!
# Spelling tokens out

A text is read piece by piece: a character that starts no token, or a token, which has a name
without brackets (`Text.pieces_induction`).

Spelling out the index of the bare axis tokens changes a text inside its tokens only
(`Text.Normalizes`): it starts and ends as before, and gains nothing but the index and the letter of
an axis. So a name stays a name (`Text.IsName.normalizeTokens`).
-/

namespace ControlFiles

/-- The letters that stand for an axis. -/
theorem Token.mem_of_isAxisLetter {c : Char} (h : isAxisLetter c = true) :
    c ∈ ['s', 'S', 'e', 'E', Char.ofNat 0x17F] := by
  simp only [isAxisLetter, Bool.or_eq_true, decide_eq_true_eq] at h
  rcases h with (((rfl | rfl) | rfl) | rfl) | h
  · decide
  · decide
  · decide
  · decide
  · obtain rfl : c = Char.ofNat 0x17F := Char.toNat_inj.mp h
    decide

theorem Token.normalize_normalize (token : Token) :
    token.normalize.normalize = token.normalize := by
  have hcases : token.normalize = token ∨ ∃ c, token.normalize = ⟨['~', c, '1', '~']⟩ := by
    unfold normalize
    split
    · split
      · exact .inr ⟨_, rfl⟩
      · exact .inl rfl
    · exact .inl rfl
  obtain h | ⟨c, h⟩ := hcases
  · rw [h, h]
  · rw [h]
    rfl

theorem Token.text_append (token : Token) (rest : Text) :
    token.text ++ rest = '<' :: '<' :: (token.name ++ '>' :: '>' :: rest) := by
  simp [text]

/-! ## Tokens in a text -/

/-- The character is no bracket. -/
def IsLetter (c : Char) : Prop := c ≠ '<' ∧ c ≠ '>'

instance (c : Char) : Decidable (IsLetter c) := inferInstanceAs (Decidable (c ≠ '<' ∧ c ≠ '>'))

/-- The token can stand in a text: it has a name, and no bracket in it. -/
structure Token.IsNamed (token : Token) : Prop where
  ne_nil : token.name ≠ []
  letters : ∀ c ∈ token.name, IsLetter c

namespace Template

theorem scan_eq_drop (k : Nat) (t : Text) : scan k t = scan 0 (t.drop k) := by
  induction k generalizing t with
  | zero => rfl
  | succ k ih =>
    cases t with
    | nil => rfl
    | cons c t => exact ih t

/-- A token stands in the text between its brackets. -/
theorem tokenAt?_eq_some {t name : Text} (h : tokenAt? t = some name) :
    ∃ rest, t = (Token.mk name).text ++ rest := by
  unfold tokenAt? at h
  split at h
  · rename_i rest
    simp only at h
    split at h
    · rename_i hcond
      have hname := Option.some.inj h
      rw [hname] at hcond
      simp only [Bool.and_eq_true, Text.startsWith, List.isPrefixOf_iff_prefix] at hcond
      obtain ⟨after, hafter⟩ := hcond.2
      have hstarts : name <+: rest := hname ▸ List.takeWhile_prefix _
      obtain ⟨rest', rfl⟩ := hstarts
      rw [List.drop_left] at hafter
      refine ⟨after, ?_⟩
      rw [← hafter]
      simp [Token.text]
    · cases h
  · cases h

theorem isNamed_of_tokenAt? {t name : Text} (h : tokenAt? t = some name) :
    (Token.mk name).IsNamed := by
  rw [tokenAt?.eq_def] at h
  split at h
  · simp only at h
    split at h
    · rename_i hcond
      obtain rfl := Option.some.inj h
      rw [Bool.and_eq_true, Bool.not_eq_true', List.isEmpty_eq_false_iff] at hcond
      refine ⟨hcond.1, fun c hc => ?_⟩
      simpa [IsLetter] using List.mem_takeWhile_imp hc
    · cases h
  · cases h

/-- A token that a text starts with is found there. -/
theorem tokenAt?_append {token : Token} (h : token.IsNamed) (rest : Text) :
    tokenAt? (token.text ++ rest) = some token.name := by
  have htake : (token.name ++ '>' :: '>' :: rest).takeWhile (fun c => c ≠ '<' && c ≠ '>') =
      token.name := by
    rw [List.takeWhile_append_of_pos fun c hc => by simpa [IsLetter] using h.letters c hc]
    simp
  rw [token.text_append, tokenAt?]
  simp only [htake, List.drop_left]
  rw [if_pos]
  simpa [Text.startsWith] using h.ne_nil

theorem scan_cons_of_none {c : Char} {t : Text} (h : tokenAt? (c :: t) = none) :
    scan 0 (c :: t) = .plain c :: scan 0 t := by
  rw [scan, h]

/-- Behind a token the text is cut into pieces anew. -/
theorem scan_append {token : Token} (h : token.IsNamed) (rest : Text) :
    scan 0 (token.text ++ rest) = .token token :: scan 0 rest := by
  have htoken := tokenAt?_append h rest
  have hdrop : (('<' :: (token.name ++ [ '>', '>'])) ++ rest).drop (token.name.length + 3) = rest :=
    List.drop_left' (by simp)
  rw [List.cons_append, List.append_assoc] at hdrop
  rw [token.text_append] at htoken ⊢
  rw [scan, htoken]
  show .token token :: scan (token.name.length + 3) ('<' :: (token.name ++ _)) = _
  rw [scan_eq_drop]
  exact congrArg (.token token :: scan 0 ·) hdrop

theorem ofText_cons_of_none {c : Char} {t : Text} (h : tokenAt? (c :: t) = none) :
    ofText (c :: t) = .plain c :: ofText t := by
  rw [ofText, scan_cons_of_none h]
  rfl

theorem ofText_append {token : Token} (h : token.IsNamed) (rest : Text) :
    ofText (token.text ++ rest) = .token token.normalize :: ofText rest := by
  rw [ofText, scan_append h]
  rfl

end Template

namespace Text

/-! ## Piece by piece -/

/-- A text is read piece by piece: a character that starts no token, or a token. -/
@[elab_as_elim]
theorem pieces_induction {motive : Text → Prop} (nil : motive [])
    (plain : ∀ (c : Char) (t : Text), Template.tokenAt? (c :: t) = none → motive t →
      motive (c :: t))
    (token : ∀ (token : Token) (t : Text), token.IsNamed → motive t → motive (token.text ++ t))
    (t : Text) : motive t := by
  induction hlen : t.length using Nat.strong_induction_on generalizing t with
  | _ n ih =>
    subst hlen
    cases htoken : Template.tokenAt? t with
    | none =>
      cases t with
      | nil => exact nil
      | cons c t => exact plain c t htoken (ih t.length (by simp) t rfl)
    | some name =>
      have hnamed := Template.isNamed_of_tokenAt? htoken
      obtain ⟨rest, rfl⟩ := Template.tokenAt?_eq_some htoken
      exact token ⟨name⟩ rest hnamed (ih rest.length (by simp [Token.text]; omega) rest rfl)

theorem normalizeTokens_cons {c : Char} {t : Text} (h : Template.tokenAt? (c :: t) = none) :
    normalizeTokens (c :: t) = c :: normalizeTokens t := by
  rw [normalizeTokens, Template.ofText_cons_of_none h]
  rfl

theorem normalizeTokens_append {token : Token} (h : token.IsNamed) (rest : Text) :
    normalizeTokens (token.text ++ rest) = token.normalize.text ++ normalizeTokens rest := by
  rw [normalizeTokens, Template.ofText_append h]
  rfl

/-- The second text is the first one with the index of some axis tokens spelled out. -/
inductive Normalizes : Text → Text → Prop where
  | nil : Normalizes [] []
  | plain (c : Char) {t s : Text} (h : Normalizes t s) : Normalizes (c :: t) (c :: s)
  | token (token : Token) {t s : Text} (h : Normalizes t s) :
      Normalizes (token.text ++ t) (token.normalize.text ++ s)

/-- A text is normalized piece by piece. -/
theorem normalizes (t : Text) : Normalizes t (normalizeTokens t) := by
  induction t using pieces_induction with
  | nil => exact .nil
  | plain c t hnone ih =>
    rw [normalizeTokens_cons hnone]
    exact .plain c ih
  | token token t hnamed ih =>
    rw [normalizeTokens_append hnamed]
    exact .token token ih

namespace Normalizes
variable {t s : Text}

theorem head? (h : Normalizes t s) : s.head? = t.head? := by
  cases h <;> simp [Token.text]

theorem getLast? (h : Normalizes t s) : s.getLast? = t.getLast? := by
  induction h with
  | nil => rfl
  | plain c h ih => rw [List.getLast?_cons, List.getLast?_cons, ih]
  | token token h ih =>
    have hlast : ∀ token : Token, token.text.getLast? = some '>' := fun token => by
      rw [Token.text, List.getLast?_append]
      rfl
    rw [List.getLast?_append, List.getLast?_append, hlast, hlast, ih]

/-- Only the index and the letter of an axis can be new. -/
theorem mem (h : Normalizes t s) {c : Char} (hc : c ∈ s) :
    c ∈ t ∨ c = '1' ∨ Token.isAxisLetter c = true := by
  induction h with
  | nil => cases hc
  | plain d h ih =>
    rcases List.mem_cons.mp hc with rfl | hc
    · exact .inl List.mem_cons_self
    · exact (ih hc).imp_left (List.mem_cons_of_mem _)
  | token token h ih =>
    rcases List.mem_append.mp hc with hc | hc
    · have hlower : ∀ d ∈ ['s', 'S', 'e', 'E', Char.ofNat 0x17F],
          Token.isAxisLetter d.toLower = true := by decide
      unfold Token.normalize at hc
      split at hc
      · rename_i d hname
        split at hc
        · rename_i hd
          simp only [Token.text, List.mem_append, List.mem_cons, List.not_mem_nil, or_false] at hc
          simp only [Token.text, hname, List.mem_append, List.mem_cons, List.not_mem_nil, or_false]
          rcases hc with (hc | rfl | rfl | rfl | rfl) | hc
          · exact .inl (.inl (.inl (.inl hc)))
          · exact .inl (.inl (.inl (.inr (.inl rfl))))
          · exact .inr (.inr (hlower d (Token.mem_of_isAxisLetter hd)))
          · exact .inr (.inl rfl)
          · exact .inl (.inl (.inl (.inr (.inl rfl))))
          · exact .inl (.inl (.inr hc))
        · exact .inl (List.mem_append_left _ hc)
      · exact .inl (List.mem_append_left _ hc)
    · exact (ih hc).imp_left (List.mem_append_right _)

end Normalizes

/-- A name with its tokens spelled out is a name. -/
theorem IsName.normalizeTokens {name : Text} (h : IsName name) :
    IsName (Text.normalizeTokens name) := by
  have hn := normalizes name
  refine ⟨?_, ?_, fun hbar => ?_⟩
  · have htrim := trim_eq_self_iff.mp h.trimmed
    rw [trim_eq_self_iff, hn.head?, hn.getLast?]
    exact htrim
  · intro hnil
    have hhead := hn.head?
    rw [hnil] at hhead
    exact h.nonempty (List.head?_eq_none_iff.mp hhead.symm)
  · rcases hn.mem hbar with hbar | hbar | hbar
    · exact h.noBar hbar
    · cases hbar
    · revert hbar
      decide

end Text

end ControlFiles
