import ControlFiles.Proofs.Path.Below

/-!
# Names of files

A file name is a part of a path that is neither empty nor made of one or two full stops. The path of
a name in a directory ends with that name and lies in that directory (`Path.fileName?_join`,
`Path.parent?_join`), if the directory is written as `Path.parent?` gives it. So another name takes
the place of a file name and leaves the directory (`Path.withFileName_eq`). In normal form the name
is the last segment behind those of the directory (`Path.segments_normalize_join`).

A file name is cut at its last full stop. A stem and an extension that a name can be cut into are
those of the name that is put together of them (`Path.stemAndExtension_nameOf`), so they are also
those of its path in a directory (`Path.stem?_join`).
-/

namespace ControlFiles.Path

variable {p dir : Path} {name : Text}

/-- The text can stand for a file in a directory. -/
structure IsFileName (name : Text) : Prop where
  ne_nil : name ≠ []
  ne_here : name ≠ "."
  ne_up : name ≠ ".."
  noSlash : '/' ∉ name

namespace IsFileName

theorem ofPart (h : IsFileName name) : Segment.ofPart? name = some (.name name) := by
  rw [Segment.ofPart?, if_neg, if_neg h.ne_up]
  rw [Bool.or_eq_true, List.isEmpty_iff, decide_eq_true_eq, not_or]
  exact ⟨h.ne_nil, h.ne_here⟩

theorem isPart (h : IsFileName name) : (Segment.name name).IsPart := ⟨h.ofPart, h.noSlash⟩

theorem isEmptyPart (h : IsFileName name) : Path.isEmptyPart name = false :=
  isEmptyPart_of_isPart h.isPart

theorem split (h : IsFileName name) : Text.split '/' name = [name] :=
  Text.split_of_not_mem h.noSlash

theorem names (h : IsFileName name) : Path.names name = [.name name] := by
  rw [Path.names, h.split, List.filterMap_cons_some h.ofPart, List.filterMap_nil]

theorem rootOf (h : IsFileName name) : Path.rootOf name = [] := by
  have hparts : ∀ s ∈ [Segment.name name], s.IsPart := by simpa using h.isPart
  have hjoin := rootOf_join hparts
  rwa [List.map_singleton, Text.join_singleton] at hjoin

theorem lead (h : IsFileName name) : Path.lead name = [] := by
  refine lead_eq_nil h.rootOf ?_
  rw [h.split, List.head?_cons]
  exact fun heq => h.ne_here (Option.some.inj heq)

theorem relative (h : IsFileName name) : isAbsolute ⟨name⟩ = false := rootOf_eq_nil_iff.mp h.rootOf

end IsFileName

/-! ## Parts at the end -/

theorem trimParts_trimParts (ps : List Text) : trimParts (trimParts ps) = trimParts ps :=
  List.rdropWhile_idempotent ..

theorem trimParts_append_name (h : IsFileName name) (ps : List Text) :
    trimParts (ps ++ [name]) = ps ++ [name] :=
  List.rdropWhile_concat_neg _ _ _ (by simp [h.isEmptyPart])

theorem mem_of_mem_trimParts {part : Text} {ps : List Text} (h : part ∈ trimParts ps) : part ∈ ps :=
  (List.rdropWhile_prefix _ _).sublist.subset h

theorem noSlash_of_mem_parts {part : Text} (h : part ∈ p.parts) : '/' ∉ part :=
  Text.not_mem_of_mem_split h

theorem fileName?_of_trimParts {ps : List Text} (h : trimParts p.parts = ps ++ [name])
    (hname : IsFileName name) : p.fileName? = some name := by
  rw [fileName?, h, List.getLast?_concat]
  exact if_neg hname.ne_up

theorem parent?_of_trimParts {ps : List Text} (h : trimParts p.parts = ps ++ [name]) :
    p.parent? = some ⟨lead p.text ++ Text.join "/" (trimParts ps)⟩ := by
  simp only [parent?, h]
  split
  · rename_i hnil
    exact absurd hnil (by simp)
  · rw [List.dropLast_concat]

/-- A path with a file name ends with it, up to parts that mean nothing. -/
theorem exists_trimParts_eq (h : p.fileName? = some name) :
    IsFileName name ∧ ∃ ps, trimParts p.parts = ps ++ [name] := by
  rw [fileName?] at h
  split at h
  · rename_i last hlast
    split_ifs at h with hup
    obtain rfl := Option.some.inj h
    obtain ⟨ps, hps⟩ := List.getLast?_eq_some_iff.mp hlast
    have hmem : last ∈ trimParts p.parts :=
      hps ▸ List.mem_append_right ps (List.mem_singleton.mpr rfl)
    have hpart : ¬ isEmptyPart last = true := by
      intro hempty
      have htrim : trimParts (ps ++ [last]) = trimParts ps :=
        List.rdropWhile_concat_pos _ _ _ hempty
      have hlength : (trimParts ps).length ≤ ps.length := (List.rdropWhile_prefix _ _).length_le
      rw [← htrim, ← hps, trimParts_trimParts, hps, List.length_append] at hlength
      exact absurd hlength (by simp)
    refine ⟨⟨?_, ?_, hup, noSlash_of_mem_parts (mem_of_mem_trimParts hmem)⟩, ps, hps⟩
    · rintro rfl
      exact hpart rfl
    · rintro rfl
      exact hpart rfl
  · cases h

/-! ## A text and what stands behind its slash -/

theorem lead_append_slash {a : Text} (ha : a ≠ []) (b : Text) : lead (a ++ '/' :: b) = lead a := by
  obtain ⟨c, a, rfl⟩ := List.exists_cons_of_ne_nil ha
  by_cases hroot : c = '/'
  · rw [hroot]
    rfl
  · by_cases hhere : c = '.'
    · subst hhere
      cases a with
      | nil => rfl
      | cons d a =>
        by_cases hd : d = '/'
        · rw [hd]
          rfl
        · rw [List.cons_append, List.cons_append, lead, lead] <;> simp_all
    · rw [List.cons_append, lead, lead] <;> simp_all

theorem length_lead_le (a : Text) : (lead a).length ≤ a.length := by
  rw [lead.eq_def]
  split <;> simp

theorem parts_append_slash {a : Text} (ha : a ≠ []) (b : Text) :
    parts ⟨a ++ '/' :: b⟩ = parts ⟨a⟩ ++ Text.split '/' b := by
  rw [parts, parts, lead_append_slash ha, List.drop_append_of_le_length (length_lead_le a),
    Text.split_append_sep]

theorem lead_lead (t : Text) : lead (lead t) = lead t := by
  rw [lead.eq_def t]
  split <;> rfl

theorem lead_append_join_parts (p : Path) : lead p.text ++ Text.join "/" p.parts = p.text := by
  have hprefix : ∀ t : Text, lead t ++ t.drop (lead t).length = t := by
    intro t
    rw [lead.eq_def]
    split <;> rfl
  have hjoin : Text.join "/" p.parts = p.text.drop (lead p.text).length := Text.join_split '/' _
  rw [hjoin, hprefix]

theorem join_cons_of_ne_nil (part : Text) {qs : List Text} (hqs : qs ≠ []) :
    Text.join "/" (part :: qs) = part ++ '/' :: Text.join "/" qs := by
  rw [Text.join, List.intercalate_cons_of_ne_nil hqs]
  exact List.append_assoc ..

theorem join_append {ps qs : List Text} (hps : ps ≠ []) (hqs : qs ≠ []) :
    Text.join "/" (ps ++ qs) = Text.join "/" ps ++ '/' :: Text.join "/" qs := by
  induction ps with
  | nil => exact absurd rfl hps
  | cons part ps ih =>
    by_cases hnil : ps = []
    · rw [hnil, List.singleton_append, join_cons_of_ne_nil part hqs]
      exact congrArg (· ++ _) (Text.join_singleton _ _).symm
    · rw [List.cons_append, join_cons_of_ne_nil part (by simp [hnil]), ih hnil,
        join_cons_of_ne_nil part hnil, List.append_assoc, List.cons_append]

theorem prefix_join {ps qs : List Text} (h : ps <+: qs) :
    Text.join "/" ps <+: Text.join "/" qs := by
  obtain ⟨rest, rfl⟩ := h
  by_cases hps : ps = []
  · rw [hps]
    exact List.nil_prefix
  · by_cases hrest : rest = []
    · simp only [hrest, List.append_nil, List.prefix_rfl]
    · exact ⟨_, (join_append hps hrest).symm⟩

/-! ## Directories -/

/-- Nothing stands at the end of the path that means nothing. -/
def IsTrimmed (p : Path) : Prop := lead p.text ++ Text.join "/" (trimParts p.parts) = p.text

theorem trimParts_split_join {ps : List Text} (hslash : ∀ part ∈ ps, '/' ∉ part) :
    trimParts (Text.split '/' (Text.join "/" (trimParts ps))) = trimParts ps := by
  by_cases hnil : trimParts ps = []
  · rw [hnil]
    rfl
  · have hsplit : Text.split '/' (Text.join "/" (trimParts ps)) = trimParts ps :=
      Text.split_join hnil fun part hpart => hslash part (mem_of_mem_trimParts hpart)
    rw [hsplit, trimParts_trimParts]

/-- The directory of a file starts as the path of the file does. -/
theorem lead_parent {ps : List Text} (hps : trimParts p.parts = ps ++ [name]) :
    lead (lead p.text ++ Text.join "/" (trimParts ps)) = lead p.text := by
  by_cases hnil : lead p.text ++ Text.join "/" (trimParts ps) = []
  · rw [hnil, (List.append_eq_nil_iff.mp hnil).1]
    rfl
  · by_cases hnone : trimParts ps = []
    · rw [hnone, show Text.join "/" [] = [] from rfl, List.append_nil, lead_lead]
    · -- behind the directory stands a slash, which leaves what a text starts with
      obtain ⟨behind, hbehind⟩ : trimParts ps <+: ps := List.rdropWhile_prefix _ _
      obtain ⟨after, hafter⟩ : trimParts p.parts <+: p.parts := List.rdropWhile_prefix _ _
      have hparts : p.parts = trimParts ps ++ (behind ++ [name] ++ after) := by
        rw [← hafter, hps, ← List.append_assoc, ← List.append_assoc, hbehind]
      have htext := lead_append_join_parts p
      rw [hparts, join_append hnone (by simp), ← List.append_assoc] at htext
      conv_rhs => rw [← htext]
      rw [lead_append_slash hnil]

/-- The directory of a file is written without anything at its end that means nothing. -/
theorem isTrimmed_parent (hp : p.fileName? = some name) (hdir : p.parent? = some dir) :
    IsTrimmed dir := by
  obtain ⟨-, ps, hps⟩ := exists_trimParts_eq hp
  obtain rfl := Option.some.inj ((parent?_of_trimParts hps).symm.trans hdir)
  have hslash : ∀ part ∈ ps, '/' ∉ part := fun part hpart =>
    noSlash_of_mem_parts (mem_of_mem_trimParts (hps ▸ List.mem_append_left [name] hpart))
  rw [IsTrimmed, parts]
  dsimp only
  rw [lead_parent hps, List.drop_left, trimParts_split_join hslash]

/-- Only the root ends with a slash. -/
theorem IsTrimmed.eq_root (h : IsTrimmed dir) (hend : Text.endsWith "/" dir.text = true) :
    dir.text = "/" := by
  obtain ⟨before, hbefore⟩ := List.isSuffixOf_iff_suffix.mp hend
  by_cases hnil : before = []
  · rw [← hbefore, hnil]
    rfl
  · have hparts : dir.parts = parts ⟨before⟩ ++ [[]] := by
      rw [← show Path.mk dir.text = dir from rfl, ← hbefore]
      exact parts_append_slash hnil []
    have htrim : trimParts dir.parts = trimParts (parts ⟨before⟩) := by
      rw [hparts]
      exact List.rdropWhile_concat_pos _ _ _ rfl
    have hlead : lead dir.text = lead before := by
      rw [← hbefore]
      exact lead_append_slash hnil []
    have hlength : (Text.join "/" (trimParts (parts ⟨before⟩))).length ≤
        (Text.join "/" (parts ⟨before⟩)).length :=
      (prefix_join (List.rdropWhile_prefix _ _)).length_le
    have hbefore' := congrArg List.length (lead_append_join_parts ⟨before⟩)
    have htext := congrArg List.length h
    rw [htrim, hlead, ← hbefore, List.length_append, List.length_append] at htext
    rw [List.length_append] at hbefore'
    have hone : "/".toList.length = 1 := rfl
    dsimp only at hbefore'
    omega

/-- A name stands alone, behind the root, or behind the slash after a directory. -/
theorem join_cases (h : IsTrimmed dir) (hname : IsFileName name) :
    dir.text = [] ∧ dir.join ⟨name⟩ = ⟨name⟩ ∨
      dir.text = "/" ∧ dir.join ⟨name⟩ = ⟨'/' :: name⟩ ∨
      dir.text ≠ [] ∧ dir.join ⟨name⟩ = ⟨dir.text ++ '/' :: name⟩ := by
  rw [join, hname.relative, if_neg (by decide)]
  by_cases hnil : dir.text = []
  · exact .inl ⟨hnil, by simp [hnil]⟩
  · cases hend : Text.endsWith "/" dir.text with
    | true =>
      have hroot := h.eq_root hend
      exact .inr (.inl ⟨hroot, by rw [Bool.or_true, if_pos rfl, hroot]; rfl⟩)
    | false => exact .inr (.inr ⟨hnil, by simp [hnil]⟩)

/-- A name in a directory. -/
theorem trimParts_join (h : IsTrimmed dir) (hname : IsFileName name) :
    ∃ ps, trimParts (dir.join ⟨name⟩).parts = ps ++ [name] ∧
      (⟨lead (dir.join ⟨name⟩).text ++ Text.join "/" (trimParts ps)⟩ : Path) = dir := by
  obtain ⟨hdir, hjoin⟩ | ⟨hdir, hjoin⟩ | ⟨hdir, hjoin⟩ := join_cases h hname
  · have hparts : parts ⟨name⟩ = [name] := by
      rw [parts, hname.lead]
      exact hname.split
    refine ⟨[], by rw [hjoin, hparts]; exact trimParts_append_name hname [], ?_⟩
    rw [hjoin, hname.lead]
    exact congrArg Path.mk hdir.symm
  · have hparts : parts ⟨'/' :: name⟩ = [name] := hname.split
    refine ⟨[], by rw [hjoin, hparts]; exact trimParts_append_name hname [], ?_⟩
    rw [hjoin]
    exact congrArg Path.mk hdir.symm
  · refine ⟨dir.parts, ?_, ?_⟩
    · rw [hjoin, parts_append_slash hdir, hname.split]
      exact trimParts_append_name hname _
    · rw [hjoin, lead_append_slash hdir]
      exact congrArg Path.mk h

/-- The path of a name in a directory ends with the name. -/
theorem fileName?_join (h : IsTrimmed dir) (hname : IsFileName name) :
    (dir.join ⟨name⟩).fileName? = some name := by
  obtain ⟨ps, hps, -⟩ := trimParts_join h hname
  exact fileName?_of_trimParts hps hname

/-- The path of a name in a directory lies in that directory. -/
theorem parent?_join (h : IsTrimmed dir) (hname : IsFileName name) :
    (dir.join ⟨name⟩).parent? = some dir := by
  obtain ⟨ps, hps, hdir⟩ := trimParts_join h hname
  exact (parent?_of_trimParts hps).trans (congrArg some hdir)

/-- Another name takes the place of the one that a path ends with. -/
theorem withFileName_eq (hp : p.fileName? = some name) (name' : Text) :
    ∃ dir, IsTrimmed dir ∧ p.parent? = some dir ∧ p.withFileName name' = dir.join ⟨name'⟩ := by
  obtain ⟨-, ps, hps⟩ := exists_trimParts_eq hp
  have hdir := parent?_of_trimParts hps
  refine ⟨_, isTrimmed_parent hp hdir, hdir, ?_⟩
  rw [withFileName, hp, hdir]
  rfl

/-- A name is the last segment behind those of its directory. -/
theorem segments_normalize_join (dir : Path) (hname : IsFileName name) :
    (dir.join ⟨name⟩).normalize.segments =
      (dir.segments.foldl fold []).reverse ++ [.name name] := by
  obtain ⟨parts, hparts, hfolded, hstack⟩ := exists_stack_eq dir.text
  have hroot := rootOf_eq dir.text
  generalize Path.rootOf dir.text = root at hroot hfolded hstack
  have hdir : dir.segments.foldl fold [] = (root ++ parts).reverse := hstack
  have hmade : MadeOf (dir.join ⟨name⟩).normalize root (parts ++ [.name name]) := by
    refine ⟨hroot, ?_, ?_, ?_⟩
    · simpa [or_imp, forall_and] using ⟨hparts, hname.isPart⟩
    · rw [← List.append_assoc, List.reverse_append, List.reverse_singleton, List.singleton_append]
      exact hfolded.push rfl
    · rw [normalize_join_of_relative hname.relative, hname.names, List.foldl_cons, List.foldl_nil,
        hdir, ← List.append_assoc]
      have hpush : fold (root ++ parts).reverse (.name name) =
          .name name :: (root ++ parts).reverse := rfl
      rw [hpush, List.reverse_cons, List.reverse_reverse]
  rw [hmade.segments_eq, hdir, List.reverse_reverse, List.append_assoc]

/-! ## Stems and extensions -/

section
variable {mark : Char} {t a b : Text}

theorem cutLast?_append (hb : mark ∉ b) (a : Text) :
    cutLast? mark (a ++ mark :: b) = some (a, b) := by
  have hreverse : (a ++ mark :: b).reverse = b.reverse ++ mark :: a.reverse := by simp
  have hafter : (a ++ mark :: b).reverse.takeWhile (· ≠ mark) = b.reverse := by
    rw [hreverse, List.takeWhile_append_of_pos]
    · simp
    · intro c hc
      exact decide_eq_true fun heq => hb (heq ▸ List.mem_reverse.mp hc)
  rw [cutLast?, hafter, hreverse, List.drop_left]
  simp

theorem cutLast?_of_not_mem (h : mark ∉ t) : cutLast? mark t = none := by
  have hall : t.reverse.takeWhile (· ≠ mark) = t.reverse :=
    List.takeWhile_eq_self_iff.mpr fun c hc =>
      decide_eq_true fun heq => h (heq ▸ List.mem_reverse.mp hc)
  rw [cutLast?, hall, List.drop_length]

theorem cutLast?_eq_some : cutLast? mark t = some (a, b) ↔ t = a ++ mark :: b ∧ mark ∉ b := by
  refine ⟨fun h => ?_, by rintro ⟨rfl, hb⟩; exact cutLast?_append hb a⟩
  by_cases hmem : mark ∈ t
  · obtain ⟨after, before, hreverse, hafter⟩ :=
      List.eq_append_cons_of_mem (List.mem_reverse.mpr hmem)
    have ht : t = before.reverse ++ mark :: after.reverse := by
      rw [← List.reverse_reverse t, hreverse]
      simp
    have hafter : mark ∉ after.reverse := fun hc => hafter (List.mem_reverse.mp hc)
    rw [ht, cutLast?_append hafter] at h
    obtain ⟨rfl, rfl⟩ := Prod.mk.inj (Option.some.inj h)
    exact ⟨ht, hafter⟩
  · rw [cutLast?_of_not_mem hmem] at h
    cases h

end

/-- The name of a file with a stem and an extension. -/
def nameOf (stem : Text) : Option Text → Text
  | some extension => stem ++ "." ++ extension
  | none => stem

/-- The stem and the extension are what their name is cut into. -/
structure IsCut (stem : Text) (extension : Option Text) : Prop where
  ne_nil : stem ≠ []
  noDot : ∀ e ∈ extension, '.' ∉ e
  plain : extension = none → '.' ∉ stem.tail

variable {stem : Text} {extension : Option Text}

theorem stemAndExtension_nameOf (h : IsCut stem extension) :
    stemAndExtension (nameOf stem extension) = (stem, extension) := by
  cases extension with
  | some e =>
    have hname : nameOf stem (some e) = stem ++ '.' :: e := List.append_assoc ..
    rw [stemAndExtension, hname, cutLast?_append (h.noDot e rfl)]
    exact if_neg (by simpa using h.ne_nil)
  | none =>
    rw [nameOf, stemAndExtension]
    split
    · rfl
    · rename_i before after hcut
      obtain ⟨rfl, -⟩ := cutLast?_eq_some.mp hcut
      cases before with
      | nil => rfl
      | cons c before => exact absurd (h.plain rfl) (by simp)

theorem isCut_stemAndExtension (hne : name ≠ []) :
    IsCut (stemAndExtension name).1 (stemAndExtension name).2 ∧
      nameOf (stemAndExtension name).1 (stemAndExtension name).2 = name := by
  rw [stemAndExtension]
  split
  · rename_i hcut
    refine ⟨⟨hne, nofun, fun _ hdot => ?_⟩, rfl⟩
    obtain ⟨after, before, hname, hafter⟩ :=
      List.eq_append_cons_of_mem (List.mem_reverse.mpr (List.mem_of_mem_tail hdot))
    have hsome : cutLast? '.' name = some (before.reverse, after.reverse) := by
      rw [cutLast?_eq_some, ← List.reverse_reverse name, hname]
      simpa using hafter
    rw [hsome] at hcut
    cases hcut
  · rename_i before after hcut
    obtain ⟨rfl, hafter⟩ := cutLast?_eq_some.mp hcut
    cases before with
    | nil => exact ⟨⟨hne, nofun, fun _ => hafter⟩, rfl⟩
    | cons c before =>
      refine ⟨⟨List.cons_ne_nil c before, ?_, nofun⟩, ?_⟩
      · rintro _ ⟨⟩
        exact hafter
      · exact List.append_assoc ..

/-- The path of a name in a directory has the stem and the extension of the name. -/
theorem stem?_join (hdir : IsTrimmed dir) (hname : IsFileName (nameOf stem extension))
    (hcut : IsCut stem extension) :
    (dir.join ⟨nameOf stem extension⟩).stem? = some stem ∧
      (dir.join ⟨nameOf stem extension⟩).extension? = extension := by
  rw [stem?, extension?, fileName?_join hdir hname, Option.map_some, Option.bind_some,
    stemAndExtension_nameOf hcut]
  exact ⟨rfl, rfl⟩

theorem exists_name_of_stem? (h : p.stem? = some stem) :
    ∃ name, p.fileName? = some name ∧ IsFileName name ∧ IsCut stem p.extension? ∧
      nameOf stem p.extension? = name := by
  obtain ⟨name, hname, rfl⟩ := Option.map_eq_some_iff.mp h
  have hfile := (exists_trimParts_eq hname).1
  obtain ⟨hcut, heq⟩ := isCut_stemAndExtension hfile.ne_nil
  rw [extension?, hname, Option.bind_some]
  exact ⟨name, rfl, hfile, hcut, heq⟩

end ControlFiles.Path
