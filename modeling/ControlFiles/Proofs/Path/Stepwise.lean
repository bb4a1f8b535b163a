import ControlFiles.Proofs.Files.Store
import ControlFiles.Proofs.Path.Below

/-!
# Step by step or at once

The stack that a normal form is made on keeps one shape: names lie on `..`s, and these on the root,
if there is one (`Path.IsShaped.fold`). So a normal form has its root, then `..`s, then names
(`Path.exists_segments_normalize`). The stack is all that matters of the directory that a path is
taken from (`Path.normalize_join_normalize`): whether references are resolved step by step, or
joined as they stand and brought to normal form at once, they name the same file
(`Path.normalize_stepwise`).
-/

namespace ControlFiles.Path

variable {root stack : List Segment}

/-! ## The shape of the stack -/

/-- Names lie on `..`s, and these on the root, the latest first. -/
def IsShaped (root stack : List Segment) : Prop :=
  ∃ (names : List Text) (ups : Nat), stack = names.map .name ++ List.replicate ups .up ++ root

theorem IsShaped.fold {s : Segment} (h : IsShaped root stack) (hroot : root = [] ∨ root = [.root])
    (hs : s ≠ .root) : IsShaped root (fold stack s) := by
  obtain ⟨names, ups, rfl⟩ := h
  cases s with
  | root => exact absurd rfl hs
  | here => exact ⟨names, ups, rfl⟩
  | name n => exact ⟨n :: names, ups, rfl⟩
  | up =>
    cases names with
    | cons n names => exact ⟨names, ups, rfl⟩
    | nil =>
      -- there is no name to take back
      refine ⟨[], ups + 1, ?_⟩
      cases ups with
      | zero => obtain rfl | rfl := hroot <;> rfl
      | succ ups => rfl

theorem IsShaped.foldl {ss : List Segment} (h : IsShaped root stack)
    (hroot : root = [] ∨ root = [.root]) (hss : ∀ s ∈ ss, s ≠ .root) :
    IsShaped root (ss.foldl Path.fold stack) := by
  induction ss generalizing stack with
  | nil => exact h
  | cons s ss ih =>
    exact ih (h.fold hroot (hss s List.mem_cons_self)) fun t ht => hss t (List.mem_cons_of_mem s ht)

theorem isShaped_segments (p : Path) : IsShaped (rootOf p.text) (p.segments.foldl fold []) := by
  have hnames : ∀ s ∈ names p.text, s ≠ .root := by
    rintro s hs rfl
    exact absurd (isPart_of_mem_names hs).ofPart nofun
  have hempty : IsShaped (rootOf p.text) (rootOf p.text) := ⟨[], 0, rfl⟩
  exact foldl_segments_eq p.text ▸ hempty.foldl (rootOf_eq p.text) hnames

/-- A normal form has the root of its path, then `..`s, then names. -/
theorem exists_segments_normalize (p : Path) : ∃ (ups : Nat) (names : List Text),
    p.normalize.segments = rootOf p.text ++ List.replicate ups .up ++ names.map .name ∧
      ∀ n ∈ names, (Segment.name n).IsPart := by
  obtain ⟨parts, hmade⟩ := exists_madeOf_normalize p
  obtain ⟨names, ups, hshape⟩ := isShaped_segments p
  have hsegments : p.normalize.segments =
      rootOf p.text ++ List.replicate ups .up ++ names.reverse.map .name := by
    rw [← List.reverse_reverse p.normalize.segments, ← hmade.foldl_segments,
      foldl_segments_normalize, hshape]
    simp [reverse_rootOf]
  refine ⟨ups, names.reverse, hsegments, fun n hn => ?_⟩
  have hmem : Segment.name n ∈ rootOf p.text ++ parts := by
    rw [← hmade.segments_eq, hsegments]
    exact List.mem_append_right _ (List.mem_map_of_mem hn)
  obtain hmem | hmem := List.mem_append.mp hmem
  · obtain hroot | hroot := rootOf_eq p.text <;> rw [hroot] at hmem <;> simp at hmem
  · exact hmade.isPart _ hmem

/-! ## Taken from a directory -/

/-- It does not matter whether the directory that a path is taken from is in normal form. -/
theorem normalize_join_normalize (base p : Path) :
    (base.normalize.join p).normalize = (base.join p).normalize := by
  cases hrelative : p.isAbsolute with
  | true => rw [join, if_pos hrelative, join, if_pos hrelative]
  | false =>
    obtain ⟨t⟩ := p
    rw [normalize_join_of_relative hrelative, normalize_join_of_relative hrelative,
      foldl_segments_normalize]

/-- The path that a reference writes, with either kind of slash. -/
def written (reference : Text) : Path := ⟨Text.slashed (Text.trim reference)⟩

theorem resolve_eq (base : Path) (reference : Text) :
    base.resolve reference = (base.join (written reference)).normalize := rfl

/-- References that are resolved one after the other name what they name joined. -/
theorem foldl_resolve (base : Path) (references : List Text) :
    references.foldl resolve base.normalize =
      (references.foldl (fun p reference => p.join (written reference)) base).normalize := by
  induction references generalizing base with
  | nil => rfl
  | cons reference references ih =>
    rw [List.foldl_cons, List.foldl_cons, resolve_eq, normalize_join_normalize]
    exact ih (base.join (written reference))

/-- A normal form is its own, and is made of the root of its path, of `..`s and of names. A path
that is taken from it has the normal form that it has taken from the directory as written, and is
the same file of a store. So references can be resolved step by step or at once. -/
theorem normalize_stepwise (base p : Path) :
    base.normalize.normalize = base.normalize ∧
      (∃ (ups : Nat) (names : List Text),
        base.normalize.segments =
          (if base.isAbsolute then [.root] else []) ++ List.replicate ups .up ++ names.map .name ∧
        ∀ n ∈ names, (Segment.name n).IsPart) ∧
      (base.normalize.join p).normalize = (base.join p).normalize ∧
      (∀ s : Store, s.read (base.normalize.join p) = s.read (base.join p) ∧
        s.canonical (base.normalize.join p) = s.canonical (base.join p)) ∧
      ∀ references : List Text, references.foldl resolve base.normalize =
        (references.foldl (fun q reference => q.join (written reference)) base).normalize := by
  have hjoin := normalize_join_normalize base p
  refine ⟨base.normalize_normalize, exists_segments_normalize base, hjoin, fun s => ⟨?_, ?_⟩,
    foldl_resolve base⟩
  · rw [Store.read, Store.read, Store.get?, Store.get?, hjoin]
  · rw [Store.canonical, Store.canonical, hjoin]

/-- Above the root `..` stays, and an absolute reference is a step of its own. -/
theorem normalize_stepwise_above :
    let base : Path := ⟨"/m/.././../runs//."⟩
    base.normalize.segments = [.root, .up, .name "runs"] ∧
      (base.normalize.join ⟨"./../../x"⟩).normalize = (base.join ⟨"./../../x"⟩).normalize ∧
      [" ..\\model\\.\\g.tgc", "/gis/a/..", "../b"].foldl resolve base.normalize = ⟨"/b"⟩ := by
  intro base
  obtain ⟨-, -, hjoin, -, hsteps⟩ := normalize_stepwise base ⟨"./../../x"⟩
  refine ⟨by decide, hjoin, ?_⟩
  rw [hsteps]
  decide

end ControlFiles.Path
