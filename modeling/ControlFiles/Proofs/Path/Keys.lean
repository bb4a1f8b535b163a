import ControlFiles.Proofs.Path
import ControlFiles.Run.Resolve

/-!
# Keys of normal forms

Paths are compared by their keys. A key takes `..` back on a stack of its own, and what that stack
does with a `..` that has no name before it is not what a normal form does: both keep it in a
relative path, but above the root the key drops it and the normal form does not. Over all parts of a
path the two stacks stay in step all the same (`foldl_foldPart`): the parts of a key are those on
top of the normal form's stack, above the root down to the last `..` (`keyParts`). So a path without
blanks and backslashes has the key of its normal form, and both find the same child
(`key_normalize`).
-/

namespace ControlFiles.Path

variable {absolute : Bool} {stack : List Segment}

/-! ## The two stacks -/

/-- The parts of a key, as they show on the stack of a normal form: above the root nothing counts
from the last `..` down. -/
def keyParts (absolute : Bool) : List Segment → List Text
  | .name n :: rest => n :: keyParts absolute rest
  | .up :: rest => if absolute then [] else ".." :: keyParts absolute rest
  | _ => []

/-- No name on the stack is spelt like `..`. -/
def Proper (stack : List Segment) : Prop := ∀ n, Segment.name n ∈ stack → n ≠ ".."

theorem Proper.tail {s : Segment} (h : Proper (s :: stack)) : Proper stack :=
  fun n hn => h n (List.mem_cons_of_mem s hn)

theorem Proper.fold {s : Segment} {part : Text} (h : Proper stack)
    (hs : Segment.ofPart? part = some s) : Proper (fold stack s) := by
  have hpush : Proper (s :: stack) := by
    intro n hn
    obtain rfl | hn := List.mem_cons.mp hn
    · intro hup
      have htext := Segment.text_of_ofPart? hs
      subst hup
      rw [← htext] at hs
      cases hs
    · exact h n hn
  unfold Path.fold
  split
  · exact h
  · exact h.tail
  · exact hpush

/-- One more part of a path does the same to both stacks. -/
theorem foldPart_keyParts (h : Proper stack) {s : Segment} {part : Text}
    (hs : Segment.ofPart? part = some s) :
    foldPart absolute (keyParts absolute stack) part = keyParts absolute (fold stack s) := by
  rw [Segment.ofPart?] at hs
  split at hs
  · cases hs
  · rename_i hmeans
    unfold foldPart
    rw [if_neg hmeans]
    split at hs
    · rename_i hup
      obtain rfl := Option.some.inj hs
      rw [if_pos hup, hup]
      cases stack with
      | nil => cases absolute <;> rfl
      | cons top rest =>
        cases top with
        | name n =>
          exact if_pos (h n List.mem_cons_self)
        | up => cases absolute <;> simp [keyParts, fold]
        | root => cases absolute <;> rfl
        | here => cases absolute <;> rfl
    · rename_i hname
      obtain rfl := Option.some.inj hs
      rw [if_neg hname]
      rfl

/-- The two stacks stay in step over the parts of a path. -/
theorem foldl_foldPart (h : Proper stack) (parts : List Text) :
    parts.foldl (foldPart absolute) (keyParts absolute stack) =
      keyParts absolute ((parts.filterMap Segment.ofPart?).foldl fold stack) := by
  induction parts generalizing stack with
  | nil => rfl
  | cons part parts ih =>
    rw [List.foldl_cons]
    cases hs : Segment.ofPart? part with
    | none =>
      have hsame : foldPart absolute (keyParts absolute stack) part = keyParts absolute stack := by
        rw [Segment.ofPart?] at hs
        split at hs
        · rename_i hnothing
          unfold foldPart
          rw [if_pos hnothing]
        · split at hs <;> cases hs
      rw [hsame, ih h, List.filterMap_cons_none hs]
    | some s =>
      rw [foldPart_keyParts h hs, ih (h.fold hs), List.filterMap_cons_some hs, List.foldl_cons]

/-! ## Keys -/

/-- The key of a path with a given root, from its segments folded. -/
def keyOf (root stack : List Segment) : Text :=
  let absolute := !root.isEmpty
  let folded := Text.join "/" (keyParts absolute stack).reverse
  Text.lowerAll (if absolute then "/" ++ folded else folded)

/-- A path without backslashes and blanks. -/
structure IsPlain (t : Text) : Prop where
  noBackslash : '\\' ∉ t
  noBlank : ∀ c ∈ t, isBlank c = false

instance (t : Text) : Decidable (IsPlain t) :=
  decidable_of_iff ('\\' ∉ t ∧ ∀ c ∈ t, isBlank c = false)
    ⟨fun h => ⟨h.1, h.2⟩, fun h => ⟨h.noBackslash, h.noBlank⟩⟩

theorem IsPlain.normalize {t : Text} (h : IsPlain t) : IsPlain (normalize ⟨t⟩).text := by
  have hchar : ∀ c ∈ (Path.normalize ⟨t⟩).text, c = '/' ∨ c ∈ t := by
    obtain ⟨front, parts, htext, hfront, hparts⟩ := exists_normalize_join t
    intro c hc
    rw [htext, List.mem_append] at hc
    obtain hc | hc := hc
    · obtain rfl | rfl := hfront
      · cases hc
      · exact .inl (List.mem_singleton.mp hc)
    · obtain hc | ⟨part, hpart, hc⟩ := Text.mem_join hc
      · exact .inl (List.mem_singleton.mp hc)
      · obtain rfl | hpart := hparts part hpart
        · cases hc
        · exact .inr (Text.mem_of_mem_split hpart hc)
  refine ⟨fun hc => ?_, fun c hc => ?_⟩
  · obtain hslash | hc := hchar _ hc
    · exact absurd hslash (by decide)
    · exact h.noBackslash hc
  · obtain rfl | hc := hchar c hc
    · decide
    · exact h.noBlank c hc

/-- The key of a path is known from its root and from what its segments fold to. -/
theorem key_eq {t : Text} (h : IsPlain t) :
    key t = keyOf (rootOf t) ((segments ⟨t⟩).foldl fold []) := by
  have htrim : Text.trim t = t := Text.trim_eq_self_iff.mpr
    ⟨fun c hc => h.noBlank c (List.mem_of_mem_head? hc),
      fun c hc => h.noBlank c (List.mem_of_mem_getLast? hc)⟩
  have hroot : Text.startsWith "/" t = !(rootOf t).isEmpty := by
    rw [rootOf]
    cases Text.startsWith "/" t <;> rfl
  have hproper : Proper (rootOf t) := by
    obtain hroot | hroot := rootOf_eq t <;> rw [hroot] <;> simp [Proper]
  have hempty : keyParts (Text.startsWith "/" t) (rootOf t) = [] := by
    obtain hroot | hroot := rootOf_eq t <;> rw [hroot] <;> rfl
  rw [key, htrim, Text.slashed_of_not_mem h.noBackslash, foldl_segments_eq, keyOf, ← hroot,
    names, ← foldl_foldPart hproper, hempty]

/-- A path without blanks and backslashes has the key of its normal form, so that both find the same
one of some children. -/
theorem key_normalize {t : Text} (h : IsPlain t) :
    key (normalize ⟨t⟩).text = key t ∧
      ∀ {α : Type} (children : List (Text × α)),
        Resolve.findChild children (normalize ⟨t⟩) = Resolve.findChild children ⟨t⟩ := by
  have hkey : key (normalize ⟨t⟩).text = key t := by
    rw [key_eq h, key_eq h.normalize, rootOf_normalize]
    exact congrArg (keyOf (rootOf t)) (foldl_segments_normalize ⟨t⟩)
  refine ⟨hkey, fun children => ?_⟩
  rw [Resolve.findChild, Resolve.findChild, hkey]

/-- Above the root the normal form keeps the `..` that a key drops. -/
theorem key_normalize_above :
    let t : Text := "/../a/./b//../C/"
    IsPlain t ∧ (normalize ⟨t⟩).text = "/../a/C" ∧ key (normalize ⟨t⟩).text = "/a/c" ∧
      Resolve.findChild [("/a/c", true)] (normalize ⟨t⟩) = some true := by
  intro t
  have hplain : IsPlain t := by decide
  obtain ⟨hkey, hfind⟩ := key_normalize hplain
  refine ⟨hplain, by decide, ?_, ?_⟩
  · rw [hkey]
    decide
  · rw [hfind]
    decide

end ControlFiles.Path
