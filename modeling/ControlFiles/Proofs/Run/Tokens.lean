import ControlFiles.ControlFile.Read
import ControlFiles.Proofs.Run.Resolution
import ControlFiles.Proofs.Text.Tokens

/-!
# Tokens that a run leaves

A value with a token that no chosen name stands for is taken apart into the parts that name files,
and for each of them a file is searched for. The part ends at the first `>>`, which separates a file
from a layer and is also the end of a token. So a token is never in the part that the search looks
at: it comes back as it was, with the blank that separates a layer behind its name
(`hasTokens_written`).

`resolve_tokens` says of every statement of a run when a token is left in it.
-/

namespace ControlFiles

namespace Seek

/-- A search that started settled has seen what it says. -/
theorem Settled.suffix {s : Seek} (hs : s.Settled) (t : Text) :
    (s.walk t = .bracket ∨ s.walk t = .brackets → (['<'] : Text) <:+ t) ∧
    (s.walk t = .brackets → (['<', '<'] : Text) <:+ t) ∧
    (s.walk t = .closing → (['>'] : Text) <:+ t) := by
  induction t using List.reverseRecOn with
  | nil => cases s <;> simp_all [Settled, letter]
  | append_singleton t c ih =>
    obtain ⟨hbracket, -, -⟩ := ih
    have hstep : s.walk (t ++ [c]) = (s.walk t).step c := walk_append s t [c]
    rw [hstep, step]
    by_cases ho : c = '<'
    · subst ho
      refine ⟨fun _ => ⟨t, rfl⟩, fun h => ?_, fun h => ?_⟩
      · obtain ⟨u, rfl⟩ : (['<'] : Text) <:+ t := by
          refine hbracket ?_
          cases hw : s.walk t <;> simp_all [opening]
        exact ⟨u, by simp⟩
      · cases hw : s.walk t <;> simp_all [opening]
    · by_cases he : c = '>'
      · subst he
        refine ⟨fun h => ?_, fun h => ?_, fun _ => ⟨t, rfl⟩⟩ <;>
          cases hw : s.walk t <;> simp_all [ending]
      · refine ⟨fun h => ?_, fun h => ?_, fun h => ?_⟩ <;>
          cases hw : s.walk t <;> simp_all [letter]

theorem walk_brackets (s : Seek) (t : Text) :
    s.walk (t ++ ['<', '<']) = .brackets ∨ s.walk (t ++ ['<', '<']) = .found := by
  rw [walk_append]
  cases s.walk t <;> decide

end Seek

namespace Resolve

/-! ## Values that are written back -/

/-- A part of a value, written back without a search. -/
def writtenPart (part : Text) : Text :=
  match Text.cut? Layer.separator part with
  | some (file, layer) => Text.trim file ++ (" " ++ Layer.separator ++ layer)
  | none => part

/-- A value that names files, written back without a search. -/
def written (value : Text) : Text :=
  Text.join " | " ((Text.alternatives value).map writtenPart)

/-- The brackets of a token without a name stand at the first `>>`: what is no token becomes one
when a blank is written in front of the layer. -/
def Nameless (part : Text) : Prop :=
  ∃ file layer, Text.cut? Layer.separator part = some (file, layer) ∧ (['<', '<'] : Text) <:+ file

theorem past_of_cut? {part file layer : Text}
    (h : Text.cut? Layer.separator part = some (file, layer)) (s : Seek) :
    s.past part = ((s.walk file).ending.ending.walk layer).letter := by
  have hpart : part = file ++ ('>' :: '>' :: layer) := Text.cut?_eq_some h
  rw [Seek.past, hpart, Seek.walk_append]
  rfl

theorem past_writtenPart_of_cut? {part file layer : Text}
    (h : Text.cut? Layer.separator part = some (file, layer)) {s : Seek} (hs : s.Settled) :
    s.past (writtenPart part) = ((s.walk file).letter.ending.ending.walk layer).letter := by
  have hwritten : writtenPart part = Text.trim file ++ (' ' :: '>' :: '>' :: layer) := by
    rw [writtenPart, h]
    rfl
  rw [Seek.past, hwritten, Seek.walk_append, Seek.walk_cons, Seek.step_letter _ (by decide),
    hs.letter_walk_trim]
  rfl

/-- Writing a part back keeps the tokens that it holds, and makes no other. -/
theorem past_writtenPart_of_not_nameless {s : Seek} (hs : s.Settled) {part : Text}
    (h : ¬ Nameless part) : s.past (writtenPart part) = s.past part := by
  cases hcut : Text.cut? Layer.separator part with
  | none => rw [writtenPart, hcut]
  | some p =>
    obtain ⟨file, layer⟩ := p
    rw [past_writtenPart_of_cut? hcut hs, past_of_cut? hcut]
    obtain ⟨-, hbrackets, hclosing⟩ := hs.suffix file
    cases hw : s.walk file with
    | brackets => exact absurd ⟨file, layer, hcut, hbrackets hw⟩ h
    | closing =>
      obtain ⟨u, hu⟩ := hclosing hw
      refine absurd ?_ (Text.not_infix_of_cut? hcut (by decide) ['>'] ⟨['>'], rfl⟩ (by decide))
      rw [← hu]
      exact ⟨u, [], by simp [Layer.separator]⟩
    | nothing | bracket | name | found => rfl

theorem past_writtenPart_of_nameless {s : Seek} (hs : s.Settled) {part : Text}
    (h : Nameless part) : s.past (writtenPart part) = .found := by
  obtain ⟨file, layer, hcut, u, rfl⟩ := h
  rw [past_writtenPart_of_cut? hcut hs]
  rcases s.walk_brackets u with hw | hw <;> rw [hw] <;> simp [Seek.letter, Seek.ending]

theorem foldl_past_writtenPart {s : Seek} (hs : s.Settled) (parts : List Text) :
    (parts.map writtenPart).foldl Seek.past s = .found ↔
      parts.foldl Seek.past s = .found ∨ ∃ part ∈ parts, Nameless part := by
  induction parts generalizing s with
  | nil => simp
  | cons part parts ih =>
    rw [List.map_cons, List.foldl_cons, List.foldl_cons]
    by_cases hpart : Nameless part
    · have hfound : ∀ parts : List Text, parts.foldl Seek.past .found = .found := by
        intro parts
        induction parts with
        | nil => rfl
        | cons p ps ih => rw [List.foldl_cons, Seek.past, Seek.walk_found]; exact ih
      rw [past_writtenPart_of_nameless hs hpart, hfound]
      exact iff_of_true rfl (.inr ⟨part, List.mem_cons_self, hpart⟩)
    · rw [past_writtenPart_of_not_nameless hs hpart, ih (Seek.settled_past s part)]
      simp [hpart]

/-- A value that is written back holds a token if it held one before. -/
theorem hasTokens_written (value : Text) : Text.hasTokens (written value) = true ↔
    Text.hasTokens value = true ∨ ∃ part ∈ Text.alternatives value, Nameless part := by
  rw [written, Text.hasTokens_iff_letter_walk, Seek.settled_nothing.letter_walk_join (by decide)
    (by decide), foldl_past_writtenPart Seek.settled_nothing, ← Text.hasTokens_iff_alternatives]

/-- What stands before the first `>>` holds no token. -/
theorem hasTokens_segment {kind : StatementKind} (hkind : kind.hasChild = false) (value : Text) :
    ∀ p ∈ segments kind value, Text.hasTokens p.1 = false := by
  intro p hp
  simp only [segments, hkind, Bool.false_eq_true, if_false, List.mem_map] at hp
  obtain ⟨part, -, rfl⟩ := hp
  split
  · rename_i file layer hcut
    have hinfix := Text.not_infix_of_cut? hcut (by decide) [] List.nil_prefix (by decide)
    rw [List.append_nil] at hinfix
    rw [Text.hasTokens_trim, Text.hasTokens_of_not_infix hinfix]
  · rename_i hcut
    exact Text.hasTokens_of_not_infix (Text.cut?_eq_none_iff.mp hcut)

theorem map_segments {kind : StatementKind} (hkind : kind.hasChild = false) (value : Text) :
    (segments kind value).map (fun p => p.1 ++ p.2) =
      (Text.alternatives value).map writtenPart := by
  simp only [segments, hkind, Bool.false_eq_true, if_false, List.map_map]
  refine List.map_congr_left fun part _ => ?_
  rw [Function.comp_apply, writtenPart]
  cases Text.cut? Layer.separator part <;> simp

section
variable {files : Files Id} {base : Path} {c : Context} {s : Statement}

/-- Parts without tokens are not searched for. -/
theorem findSegments_of_plain {parts : List (Text × Text)}
    (h : ∀ p ∈ parts, Text.hasTokens p.1 = false) :
    findSegments files base c s parts =
      .ok (parts.map fun p => (p.1 ++ p.2, base.resolve p.1)) := by
  induction parts with
  | nil => rfl
  | cons p parts ih =>
    simp only [findSegments, bind, pure, h p List.mem_cons_self,
      ih fun q hq => h q (List.mem_cons_of_mem _ hq)]
    rfl

/-- The file of a child is the whole value, and is searched for if it holds a token. -/
theorem findSegments_child {value : Text} {found : List (Text × Path)}
    (h : findSegments files base c s [(Text.trim value, [])] = .ok found) :
    (Text.hasTokens value = false ∧ found = [(Text.trim value, base.resolve value)]) ∨
      (Text.hasTokens value = true ∧ ∃ path,
        Reference.search files base (Text.trim value) c.vars c.chosen = .ok [path] ∧
          found = [(shown base path, path)]) := by
  simp only [findSegments, bind, pure, Text.hasTokens_trim] at h
  cases htokens : Text.hasTokens value with
  | false =>
    rw [htokens] at h
    obtain rfl := Except.ok.inj h
    exact .inl ⟨rfl, by simp [Path.resolve, Text.trim_trim]⟩
  | true =>
    rw [htokens] at h
    simp only [Bool.not_true, Bool.false_eq_true, if_false] at h
    split at h
    · cases h
    · rename_i path hsearch
      obtain rfl := Except.ok.inj h
      exact .inr ⟨rfl, path, hsearch, by simp⟩
    · cases h

/-- What is found for a value that names files other than a child is what it is written as, without
a search. -/
theorem found_eq_written {raw : Text} {found : List (Text × Path)}
    (hkind : s.kind.hasChild = false)
    (h : findSegments files base c s (segments s.kind raw) = .ok found) :
    Text.join " | " (found.map (·.1)) = written raw ∧
      found.map (·.2) = (segments s.kind raw).map fun p => base.resolve p.1 := by
  rw [findSegments_of_plain (hasTokens_segment hkind raw)] at h
  obtain rfl := Except.ok.inj h
  rw [written, ← map_segments hkind, List.map_map, List.map_map]
  exact ⟨rfl, rfl⟩

/-- A token of the value `raw` is left in a run: the value names files, and its tokens are of an
axis of which too few names are chosen. The token is in the name of the file that is found for it,
or else no file is searched for at all. -/
def Survives (files : Files Id) (base : Path) (c : Context) (s : Statement) (raw : Text) : Prop :=
  (namesFiles s = true ∧ ∀ t ∈ Text.tokens (c.substitute raw), t.axis?.isSome = true) ∧
    Text.hasTokens (c.substitute raw) = true ∧
    let left := c.substituteVariables raw
    if s.kind.hasChild then
      Text.hasTokens left = true ∧ ∃ path,
        Reference.search files base (Text.trim left) c.vars c.chosen = .ok [path] ∧
          Text.hasTokens (shown base path) = true
    else Text.hasTokens left = true ∨ ∃ part ∈ Text.alternatives left, Nameless part

/-- The value of a statement in a run holds a token exactly when one survives. -/
theorem value_tokens {value : Text} {paths : List Path}
    (h : Resolve.value files base c s = .ok (some value, paths)) :
    ∃ raw, s.value = some raw ∧
      (Text.hasTokens value = true ↔ Survives files base c s raw) := by
  cases value_eq_ok_iff.mp h with
  | known hraw hplain => exact ⟨_, hraw, by simp [Survives, hplain]⟩
  | searched hraw hleft hnames haxis hfound =>
    refine ⟨_, hraw, ?_⟩
    rw [Survives, hleft, and_iff_right ⟨hnames, haxis⟩]
    cases hkind : s.kind.hasChild with
    | false =>
      rw [(found_eq_written hkind hfound).1]
      simp only [Bool.false_eq_true, if_false, true_and]
      exact hasTokens_written _
    | true =>
      rw [segments_of_hasChild hkind] at hfound
      rcases findSegments_child hfound with ⟨htokens, rfl⟩ | ⟨htokens, path, hsearch, rfl⟩
      · rw [List.map_singleton, Text.join_singleton]
        simp [htokens]
      · rw [List.map_singleton, Text.join_singleton]
        simp only [if_true, htokens, true_and]
        refine ⟨fun hshown => ⟨path, hsearch, hshown⟩, ?_⟩
        rintro ⟨path', hsearch', hshown⟩
        obtain ⟨⟩ := hsearch.symm.trans hsearch'
        exact hshown

end

theorem command_tokens {c : Context} {s : Statement} {written : Text}
    (h : Resolve.command c s = .ok written) : Text.hasTokens written = false := by
  simp only [Resolve.command, Text.tokens_isEmpty] at h
  split at h
  · rename_i htokens
    rw [← Except.ok.inj h]
    simpa using htokens
  · cases h

end Resolve

/-- No command of a run holds a token, and a value holds one exactly when it survives in the value
of the statement that it comes from. -/
theorem resolve_tokens {files : Files Id} {f : ControlFile} {c : Context} {res : Resolution}
    (h : f.resolve files c = .ok res) {r : RunStatement} (hr : r ∈ res.run.walk) :
    Text.hasTokens r.command = false ∧ ∀ value ∈ r.value, ∃ base c' s raw,
      Resolve.InForce files f (Resolve.rootContext f c) base c' s ∧
      Resolve.Becomes files base c' s r ∧ s.value = some raw ∧
      (Text.hasTokens value = true ↔ Resolve.Survives files base c' s raw) := by
  obtain ⟨base, c', s, hforce, hbecomes⟩ := resolve_becomes h hr
  refine ⟨Resolve.command_tokens hbecomes.command, fun value hvalue => ?_⟩
  have hresolved := hbecomes.value
  rw [Option.mem_def.mp hvalue] at hresolved
  obtain ⟨raw, hraw, htokens⟩ := Resolve.value_tokens hresolved
  exact ⟨base, c', s, raw, hforce, hbecomes, hraw, htokens⟩

/-- Beside a file of that name, and with no scenario chosen, the token of a reference is left. -/
theorem exists_token_left : ∃ (f : ControlFile) (res : Resolution) (r : RunStatement)
    (value : Text),
    ControlFile.ofText ⟨"/m/m.tcf"⟩ "Read GIS Code == code_<<~s1~>>.shp" = .ok f ∧
    f.resolve (Store.ofList [(⟨"/m/code_A.shp"⟩, [])]).files (.ofChosen ⟨[], []⟩) = .ok res ∧
    r ∈ res.run.walk ∧ r.value = some value ∧ Text.hasTokens value = true := by
  have hrun : ((ControlFile.ofText ⟨"/m/m.tcf"⟩
      "Read GIS Code == code_<<~s1~>>.shp").toOption.any fun f =>
        (f.resolve (Store.ofList [(⟨"/m/code_A.shp"⟩, [])]).files
          (.ofChosen ⟨[], []⟩)).toOption.any fun res =>
            res.run.walk.any fun r => r.value.any Text.hasTokens) = true := by
    decide +kernel
  obtain ⟨f, hf, hrun⟩ := Except.toOption_any_iff.mp hrun
  obtain ⟨res, hres, hany⟩ := Except.toOption_any_iff.mp hrun
  obtain ⟨r, hr, hvalue⟩ := List.any_eq_true.mp hany
  obtain ⟨value, hvalue, htoken⟩ := (Option.any_eq_true _ _).mp hvalue
  exact ⟨f, res, r, value, hf, hres, hr, hvalue, htoken⟩

/-- The search for a file leaves the token that it is made for. -/
theorem resolve_tokens_of_reference : ∃ (f : ControlFile) (res : Resolution) (r : RunStatement),
    f.resolve (Store.ofList [(⟨"/m/code_A.shp"⟩, [])]).files (.ofChosen ⟨[], []⟩) = .ok res ∧
    r ∈ res.run.walk ∧ Text.hasTokens r.command = false ∧ ∃ value ∈ r.value, ∃ base c' s raw,
      Resolve.Becomes (Store.ofList [(⟨"/m/code_A.shp"⟩, [])]).files base c' s r ∧
      s.value = some raw ∧ Text.hasTokens value = true ∧
      Resolve.Survives (Store.ofList [(⟨"/m/code_A.shp"⟩, [])]).files base c' s raw := by
  obtain ⟨f, res, r, value, -, hres, hr, hvalue, htoken⟩ := exists_token_left
  obtain ⟨hcommand, hsurvives⟩ := resolve_tokens hres hr
  obtain ⟨base, c', s, raw, -, hbecomes, hraw, hiff⟩ := hsurvives value hvalue
  exact ⟨f, res, r, hres, hr, hcommand, value, hvalue, base, c', s, raw, hbecomes, hraw, htoken,
    hiff.mp htoken⟩

/-- It does not hold that a run is left without tokens. -/
theorem not_forall_tokens_replaced : ¬ ∀ (store : Store) (path : Path) (text : Text)
    (f : ControlFile) (c : Context) (res : Resolution), ControlFile.ofText path text = .ok f →
      f.resolve store.files c = .ok res → ∀ r ∈ res.run.walk,
        Text.hasTokens r.command = false ∧ ∀ value ∈ r.value, Text.hasTokens value = false := by
  intro h
  obtain ⟨f, res, r, value, hf, hres, hr, hvalue, htoken⟩ := exists_token_left
  have hnone := (h _ _ _ f _ res hf hres r hr).2 value hvalue
  rw [htoken] at hnone
  cases hnone

end ControlFiles
