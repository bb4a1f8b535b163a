import ControlFiles.Proofs.ControlFile.Regenerated
import ControlFiles.Proofs.Except
import Mathlib.Data.List.Nodup
import Mathlib.Data.Set.Function

/-!
# Identities

The identity of a statement is a digest of the file's name, a text, and the number of statements in
front of it that have the same line (`Reading.Identified`, which each step of reading keeps). What
is digested tells text and number apart (`StatementId.message_inj`). Two equal lines of a text have
different numbers, and so have two placeholders, which share the counter of the empty line. But a
line may be the very text that the identity of a placeholder is made of, and the two are counted
apart (`Statement.Clash`). The identities of a text are all different exactly if this does not
happen (`nodup_ids_iff`).
-/

namespace ControlFiles

/-! ## What is digested -/

theorem Text.utf8_injective {s t : Text} (h : utf8 s = utf8 t) : s = t := by
  have hbytes : (String.ofList s).toByteArray = (String.ofList t).toByteArray := by
    rw [String.toByteArray_ofList, String.toByteArray_ofList]
    exact congrArg List.toByteArray h
  exact String.ofList_injective (String.toByteArray_inj.mp hbytes)

namespace Digest

@[simp] theorem length_bigEndian (n x : Nat) : (bigEndian n x).length = n := by
  induction n generalizing x with
  | zero => rfl
  | succ n ih => rw [bigEndian, List.length_append, ih, List.length_singleton]

/-- The bytes of a number tell it, if there are enough of them. -/
theorem bigEndian_injective {n x y : Nat} (hx : x < 256 ^ n) (hy : y < 256 ^ n)
    (h : bigEndian n x = bigEndian n y) : x = y := by
  induction n generalizing x y with
  | zero =>
    rw [pow_zero] at hx hy
    omega
  | succ n ih =>
    rw [pow_succ] at hx hy
    obtain ⟨hhigh, hlow⟩ := List.append_inj' h rfl
    have hbyte : x % 256 = y % 256 := by
      have hbyte := congrArg UInt8.toNat (List.singleton_inj.mp hlow)
      rwa [UInt8.toNat_ofNat', UInt8.toNat_ofNat', Nat.mod_mod, Nat.mod_mod] at hbyte
    have hrest : x / 256 = y / 256 := ih (by omega) (by omega) hhigh
    omega

theorem hexDigit_injective {m n : Nat} (hm : m < 16) (hn : n < 16)
    (h : hexDigit m = hexDigit n) : m = n := by
  have hall : ∀ i j : Fin 16, hexDigit i = hexDigit j → i = j := by decide
  exact congrArg Fin.val (hall ⟨m, hm⟩ ⟨n, hn⟩ h)

theorem hex_injective {a b : List UInt8} (h : hex a = hex b) : a = b := by
  induction a generalizing b with
  | nil =>
    cases b with
    | nil => rfl
    | cons y b => cases h
  | cons x a ih =>
    cases b with
    | nil => cases h
    | cons y b =>
      obtain ⟨hhigh, hrest⟩ := List.cons.inj h
      obtain ⟨hlow, hrest⟩ := List.cons.inj hrest
      have hx := x.toNat_lt
      have hy := y.toNat_lt
      have hhigh := hexDigit_injective (by omega) (by omega) hhigh
      have hlow := hexDigit_injective (by omega) (by omega) hlow
      rw [UInt8.toNat_inj.mp (show x.toNat = y.toNat by omega), ih hrest]

end Digest

namespace StatementId

/-- The bytes that are digested for the identity of a text that `ordinal` equal ones stand
before. -/
def message (file text : Text) (ordinal : Nat) : List UInt8 :=
  Text.utf8 file ++ [0] ++ Text.utf8 (Text.trim text) ++ [0] ++ Digest.littleEndian 8 ordinal

/-- The digest that identities are made of, which is cut short. -/
def digest (message : List UInt8) : List UInt8 := (Digest.sha256 message).take 8

/-- The identity that is made of some bytes. -/
def ofMessage (message : List UInt8) : StatementId := ⟨Digest.hex (digest message)⟩

theorem compute_eq (file text : Text) (ordinal : Nat) :
    compute file text ordinal = ofMessage (message file text ordinal) := rfl

/-- In the bytes for one file every byte belongs to the text or to the number: the number has always
eight. -/
theorem message_inj {file s t : Text} {m n : Nat} (hm : m < 2 ^ 64) (hn : n < 2 ^ 64) :
    message file s m = message file t n ↔ Text.trim s = Text.trim t ∧ m = n := by
  refine ⟨fun h => ?_, fun ⟨htext, hnumber⟩ => by rw [message, message, htext, hnumber]⟩
  have hlength : (Digest.littleEndian 8 m).length = (Digest.littleEndian 8 n).length := by
    simp [Digest.littleEndian]
  obtain ⟨htext, hnumber⟩ := List.append_inj' h hlength
  simp only [List.append_left_inj, List.append_assoc, List.append_right_inj] at htext
  exact ⟨Text.utf8_injective htext,
    Digest.bigEndian_injective hm hn (List.reverse_injective hnumber)⟩

theorem injOn_ofMessage {messages : Set (List UInt8)} (h : Set.InjOn digest messages) :
    Set.InjOn ofMessage messages := fun _ ha _ hb hab =>
  h ha hb (Digest.hex_injective (StatementId.mk.inj hab))

end StatementId

/-! ## Texts of placeholders -/

theorem Scope.getLast?_text (s : Scope) :
    ∃ c, s.text.getLast? = some c ∧ isBlank c = false := by
  rw [text]
  split
  · rename_i hkind
    rw [hkind]
    exact ⟨'l', rfl, rfl⟩
  · refine ⟨')', ?_, rfl⟩
    exact List.getLast?_append_of_ne_nil _ (List.cons_ne_nil _ _)

theorem ScopeList.getLast?_text {l : ScopeList} (h : l ≠ []) :
    ∃ c, (text l).getLast? = some c ∧ isBlank c = false := by
  induction l with
  | nil => exact absurd rfl h
  | cons s l ih =>
    cases l with
    | nil =>
      rw [text, List.map_singleton, Text.join_singleton]
      exact s.getLast?_text
    | cons t l =>
      obtain ⟨c, hc, hblank⟩ := ih (List.cons_ne_nil t l)
      refine ⟨c, ?_, hblank⟩
      have hne : text (t :: l) ≠ [] := fun hnil => by rw [hnil] at hc; cases hc
      rw [text, List.map_cons, List.map_cons, Text.join, List.intercalate_cons_cons,
        ← List.map_cons, List.append_assoc]
      exact (List.getLast?_append_of_ne_nil _
        (List.append_ne_nil_of_right_ne_nil _ hne)).trans
        ((List.getLast?_append_of_ne_nil _ hne).trans hc)

namespace Statement

theorem trim_placeholderText {scope : ScopeList} (h : scope ≠ []) :
    Text.trim (placeholderText scope) = placeholderText scope := by
  obtain ⟨c, hc, hblank⟩ := ScopeList.getLast?_text h
  have hne : ScopeList.text scope ≠ [] := fun hnil => by rw [hnil] at hc; cases hc
  rw [Text.trim_eq_self_iff]
  refine ⟨fun d hd => ?_, fun d hd => ?_⟩
  · obtain rfl : '\x00' = d := Option.some.inj hd
    rfl
  · rw [placeholderText, List.getLast?_append_of_ne_nil _ hne, hc] at hd
    obtain rfl := Option.some.inj hd
    exact hblank

/-! ## Identities of statements -/

/-- The text that the identity of a statement is made of when it is read. -/
def identityText (s : Statement) : Text :=
  if s.kind = .placeholder then placeholderText s.scope else s.raw

/-- How many of the statements in front of it have the same line; a placeholder counts as an empty
one. -/
def ordinal (before : List Statement) (s : Statement) : Nat := (before.map raw).count s.raw

/-- The bytes that are digested for the identity of a statement behind some others. -/
def message (idFile : Text) (before : List Statement) (s : Statement) : List UInt8 :=
  StatementId.message idFile s.identityText (s.ordinal before)

/-- A line is the text that the identity of a placeholder is made of, and the two have the same
number. -/
def Clash (ss : List Statement) : Prop :=
  ∃ (i j : Nat) (hi : i < ss.length) (hj : j < ss.length), ss[i].kind = .placeholder ∧
    ss[j].kind ≠ .placeholder ∧ ss[j].raw = placeholderText ss[i].scope ∧
      ss[i].ordinal (ss.take i) = ss[j].ordinal (ss.take j)

end Statement

/-- The bytes that are digested for the identities of some statements, in order. -/
def messages (idFile : Text) (ss : List Statement) : List (List UInt8) :=
  ss.mapIdx fun i s => s.message idFile (ss.take i)

theorem messages_append_singleton (idFile : Text) (ss : List Statement) (s : Statement) :
    messages idFile (ss ++ [s]) = messages idFile ss ++ [s.message idFile ss] := by
  rw [messages, List.mapIdx_concat, List.take_left, messages]
  refine congrArg (· ++ _) (List.mapIdx_eq_mapIdx_iff.mpr fun i hi => ?_)
  rw [List.take_append_of_le_length hi.le]

/-! ## Reading -/

namespace Reading

variable {o : ReadOptions} {r r' : Reading}

/-- The statements that were read have the identities of their texts, and are counted by their
lines. -/
structure Identified (o : ReadOptions) (r : Reading) : Prop where
  texts : r.texts = r.statements.map Statement.raw
  ids : r.statements.reverse.map Statement.id =
    (messages o.idFile r.statements.reverse).map StatementId.ofMessage

theorem identified_empty (o : ReadOptions) (stack : BlockStack) : Identified o ⟨stack, [], []⟩ :=
  ⟨rfl, rfl⟩

/-- A statement is added with the identity of its text and of the number of equal lines so far. -/
theorem Identified.add (h : r.Identified o) {text : Text} {statement : Nat → Statement}
    (hraw : ∀ n, (statement n).raw = text)
    (hid : ∀ n, (statement n).id = .compute o.idFile (statement n).identityText n) :
    (r.add text statement).Identified o := by
  have hordinal : (statement (r.texts.count text)).ordinal r.statements.reverse =
      r.texts.count text := by
    rw [Statement.ordinal, hraw, h.texts, List.map_reverse, List.count_reverse]
  refine ⟨?_, ?_⟩
  · rw [Reading.add, List.map_cons, hraw, h.texts]
  · rw [Reading.add, List.reverse_cons, List.map_append, List.map_singleton, h.ids,
      messages_append_singleton, List.map_append, List.map_singleton, hid,
      StatementId.compute_eq, Statement.message, hordinal]

theorem Identified.withStack (h : r.Identified o) (stack : BlockStack) :
    (r.withStack stack).Identified o := ⟨h.texts, h.ids⟩

/-- What one line adds has the identity of its text. -/
theorem Identified.step (h : r.Identified o) {l : Line} {n : Nat} (hstep : r.step o l n = .ok r') :
    r'.Identified o := by
  cases hp : r.stack.process l n with
  | mk stack tracked =>
    simp only [Reading.step, hp] at hstep
    split at hstep
    · cases hstep
    · obtain rfl := Except.ok.inj hstep
      refine (h.withStack stack).add (fun _ => rfl) fun k => ?_
      rw [Statement.identityText, if_neg]
      · rfl
      · exact l.statementKind_ne_placeholder
    · obtain rfl := Except.ok.inj hstep
      exact (h.withStack stack).add (fun _ => rfl) fun k => rfl
    · obtain rfl := Except.ok.inj hstep
      exact h.withStack stack

/-- The statements of a run of lines have the identities of their texts. -/
theorem Identified.steps {ls : List Line} {n : Nat} (h : r.Identified o)
    (hsteps : Reading.steps o r ls n = .ok r') : r'.Identified o := by
  induction ls generalizing r n with
  | nil =>
    obtain rfl := Except.ok.inj hsteps
    exact h
  | cons l ls ih =>
    rw [steps_cons] at hsteps
    cases hstep : r.step o l n with
    | error fault => simp [hstep] at hsteps
    | ok r₁ =>
      simp only [hstep] at hsteps
      exact ih (h.step hstep) hsteps

end Reading

theorem Scope.text_withClose (s : Scope) (block : Nat) (line : Text) :
    (s.withClose block line).text = s.text := by
  rw [withClose]
  split
  · split <;> rfl
  · rfl

/-- A closing line is no part of the text of a scope list. -/
theorem ScopeList.text_foldl_withClose (closes : List (Nat × Text)) (l : ScopeList) :
    text (closes.foldl (fun scope p => withClose scope p.1 p.2) l) = text l := by
  induction closes generalizing l with
  | nil => rfl
  | cons p closes ih =>
    rw [List.foldl_cons, ih, text, withClose, List.map_map, text]
    exact congrArg _ (List.map_congr_left fun s _ => s.text_withClose p.1 p.2)

theorem Statement.identityText_withCloses (closes : List (Nat × Text)) (s : Statement) :
    (Reading.withCloses closes s).identityText = s.identityText := by
  rw [identityText, identityText, placeholderText, placeholderText]
  exact congrArg (fun t => if s.kind = .placeholder then '\x00' :: "placeholder " ++ t else s.raw)
    (ScopeList.text_foldl_withClose closes s.scope)

/-- What is digested does not change when the closing lines are recorded. -/
theorem messages_map_withCloses (idFile : Text) (closes : List (Nat × Text))
    (ss : List Statement) :
    messages idFile (ss.map (Reading.withCloses closes)) = messages idFile ss := by
  refine List.ext_getElem (by simp [messages]) fun i _ _ => ?_
  simp only [messages, List.getElem_mapIdx, List.getElem_map]
  rw [Statement.message, Statement.message, Statement.identityText_withCloses,
    Statement.ordinal, Statement.ordinal, ← List.map_take, List.map_map]
  rfl

section
variable {o : ReadOptions} {text : Text} {ss : List Statement}

/-- The identities of a text are the digests of what is digested for its statements. -/
theorem ids_of_readStatements (h : readStatements o text = .ok ss) :
    ss.map Statement.id = (messages o.idFile ss).map StatementId.ofMessage := by
  obtain ⟨r, hsteps, -, rfl⟩ := readStatements_eq_ok.mp h
  have hids := ((Reading.identified_empty o _).steps hsteps).ids
  rw [messages_map_withCloses, ← hids, List.map_map]
  rfl

/-- The line of a statement is trimmed; that of a placeholder is empty. -/
theorem raw_of_readStatements (h : readStatements o text = .ok ss) : ∀ s ∈ ss,
    Text.trim s.raw = s.raw ∧ s.scope ≠ [] ∧ (s.kind = .placeholder → s.raw = []) := by
  obtain ⟨t, -, hlines, hgives⟩ := exists_outline_of_readStatements h
  intro s hs
  obtain ⟨e, he, hgive⟩ := exists_gives_of_mem hgives hs
  refine ⟨?_, ?_, fun hkind => ?_⟩
  · rw [hgive.raw_eq, Entry.text]
    cases hl : e.line? with
    | none => rfl
    | some l =>
      obtain ⟨line, -, rfl⟩ := List.mem_map.mp
        (hlines ▸ Outline.mem_lines_of_mem_allEntries he (Option.mem_def.mpr hl))
      exact Text.trim_trim line
  · rw [hgive.scope_eq]
    exact List.cons_ne_nil _ _
  · rw [hgive.raw_eq, Entry.text, hgive.placeholder_iff.mp hkind]
    rfl

/-! ## Identities of a text -/

/-- Of two equal lines the later has the greater number. -/
theorem ordinal_lt {i j : Nat} (hij : i < j) (hj : j < ss.length)
    (hraw : ss[i].raw = ss[j].raw) : ss[i].ordinal (ss.take i) < ss[j].ordinal (ss.take j) := by
  have hprefix : (ss.take (i + 1)).map Statement.raw <+: (ss.take j).map Statement.raw :=
    (List.take_prefix_take_left hij).map Statement.raw
  have hcount := hprefix.sublist.count_le ss[j].raw
  rw [List.take_succ_eq_append_getElem (hij.trans hj), List.map_append, List.map_singleton, hraw,
    List.count_append, List.count_singleton_self] at hcount
  rw [Statement.ordinal, Statement.ordinal, hraw]
  exact hcount

theorem ordinal_lt_of_length {i n : Nat} (hi : i < ss.length) (hsize : ss.length ≤ n) :
    ss[i].ordinal (ss.take i) < n := by
  have hcount := List.count_le_length (l := (ss.take i).map Statement.raw) (a := ss[i].raw)
  rw [List.length_map, List.length_take, Nat.min_eq_left hi.le] at hcount
  exact lt_of_le_of_lt hcount (hi.trans_le hsize)

/-- What is digested for a statement tells its text and its number. -/
theorem eq_of_message_eq (h : readStatements o text = .ok ss) (hsize : ss.length ≤ 2 ^ 64)
    {i j : Nat} (hi : i < ss.length) (hj : j < ss.length)
    (heq : ss[i].message o.idFile (ss.take i) = ss[j].message o.idFile (ss.take j)) :
    ss[i].identityText = ss[j].identityText ∧
      ss[i].ordinal (ss.take i) = ss[j].ordinal (ss.take j) := by
  have htrim : ∀ s ∈ ss, Text.trim s.identityText = s.identityText := by
    intro s hs
    obtain ⟨hraw, hscope, -⟩ := raw_of_readStatements h s hs
    rw [Statement.identityText]
    split
    · exact Statement.trim_placeholderText hscope
    · exact hraw
  rwa [Statement.message, Statement.message,
    StatementId.message_inj (ordinal_lt_of_length hi hsize) (ordinal_lt_of_length hj hsize),
    htrim _ (List.getElem_mem _), htrim _ (List.getElem_mem _)] at heq

/-- Different bytes are digested for the statements of a text, unless a line is the text that the
identity of a placeholder is made of. -/
theorem nodup_messages_iff (h : readStatements o text = .ok ss) (hsize : ss.length ≤ 2 ^ 64) :
    (messages o.idFile ss).Nodup ↔ ¬ Statement.Clash ss := by
  constructor
  · rintro hnodup ⟨i, j, hi, hj, hplaceholder, hline, hraw, hordinal⟩
    have hlength : (messages o.idFile ss).length = ss.length := List.length_mapIdx
    rw [← hlength] at hi hj
    have heq : (messages o.idFile ss)[i] = (messages o.idFile ss)[j] := by
      simp only [messages, List.getElem_mapIdx, Statement.message, Statement.identityText]
      rw [if_pos hplaceholder, if_neg hline, hraw, hordinal]
    obtain rfl := hnodup.getElem_inj_iff.mp heq
    exact hline hplaceholder
  · intro hclash
    refine List.pairwise_iff_getElem.mpr fun i j hi hj hij heq => hclash ?_
    rw [messages, List.length_mapIdx] at hi hj
    simp only [messages, List.getElem_mapIdx] at heq
    obtain ⟨htext, hordinal⟩ := eq_of_message_eq h hsize hi hj heq
    have hraw : ss[i].raw ≠ ss[j].raw := fun hraw => (ordinal_lt hij hj hraw).ne hordinal
    obtain ⟨-, -, hempty⟩ := raw_of_readStatements h _ (List.getElem_mem hi)
    obtain ⟨-, -, hempty'⟩ := raw_of_readStatements h _ (List.getElem_mem hj)
    rw [Statement.identityText, Statement.identityText] at htext
    by_cases hkind : ss[i].kind = .placeholder <;> by_cases hkind' : ss[j].kind = .placeholder
    · exact absurd ((hempty hkind).trans (hempty' hkind').symm) hraw
    · rw [if_pos hkind, if_neg hkind'] at htext
      exact ⟨i, j, hi, hj, hkind, hkind', htext.symm, hordinal⟩
    · rw [if_neg hkind, if_pos hkind'] at htext
      exact ⟨j, i, hj, hi, hkind', hkind, htext, hordinal.symm⟩
    · rw [if_neg hkind, if_neg hkind'] at htext
      exact absurd htext hraw

/-- As far as different bytes have different digests, the identities of a text are all different
exactly if no line is the text that the identity of a placeholder is made of, with the number of
the placeholder. This is so if no line begins with the character that sets these texts apart. -/
theorem nodup_ids_iff (h : readStatements o text = .ok ss) (hsize : ss.length ≤ 2 ^ 64)
    (hdigest : Set.InjOn StatementId.digest {m | m ∈ messages o.idFile ss}) :
    ss.map Statement.id = (messages o.idFile ss).map StatementId.ofMessage ∧
      ((ss.map Statement.id).Nodup ↔ ¬ Statement.Clash ss) ∧
      ((∀ s ∈ ss, s.raw.head? ≠ some '\x00') → (ss.map Statement.id).Nodup) := by
  have hids := ids_of_readStatements h
  have hiff : (ss.map Statement.id).Nodup ↔ ¬ Statement.Clash ss := by
    rw [hids, ← nodup_messages_iff h hsize]
    exact ⟨List.Nodup.of_map _, fun hnodup => hnodup.map_on fun a ha b hb hab =>
      StatementId.injOn_ofMessage hdigest ha hb hab⟩
  refine ⟨hids, hiff, fun hline => hiff.mpr ?_⟩
  rintro ⟨i, j, hi, hj, -, -, hraw, -⟩
  refine hline _ (List.getElem_mem hj) ?_
  rw [hraw]
  rfl

end

/-- Equal lines, a blank one and two empty branches. -/
theorem nodup_ids_iff_counted :
    let o : ReadOptions := .ofPath Line.commentMarks ⟨"/m/m.tcf"⟩
    let text := Text.unlines ["X == 1", "", " X == 1", "If Scenario == A", "Else", "End If"]
    ∃ ss, readStatements o text = .ok ss ∧ ss.length = 5 ∧
      Set.InjOn StatementId.digest {m | m ∈ messages o.idFile ss} ∧
        (ss.map Statement.id).Nodup := by
  intro o text
  have hcheck : ((readStatements o text).toOption.any fun ss => ss.length == 5 &&
      (decide (∀ a ∈ messages o.idFile ss, ∀ b ∈ messages o.idFile ss,
        StatementId.digest a = StatementId.digest b → a = b) &&
          decide (∀ s ∈ ss, s.raw.head? ≠ some '\x00'))) = true := by
    decide +kernel
  obtain ⟨ss, hread, hcheck⟩ := Except.toOption_any_iff.mp hcheck
  simp only [Bool.and_eq_true, beq_iff_eq, decide_eq_true_eq] at hcheck
  obtain ⟨hlength, hdigest, hline⟩ := hcheck
  have hdigest : Set.InjOn StatementId.digest {m | m ∈ messages o.idFile ss} :=
    fun a ha b hb => hdigest a ha b hb
  exact ⟨ss, hread, hlength, hdigest,
    (nodup_ids_iff hread (by rw [hlength]; decide) hdigest).2.2 hline⟩

/-- The line behind the empty block has the identity of its placeholder, and one digest is made for
both. -/
theorem not_forall_nodup_ids :
    ¬ ∀ (o : ReadOptions) (text : Text) (ss : List Statement), readStatements o text = .ok ss →
      Set.InjOn StatementId.digest {m | m ∈ messages o.idFile ss} →
        (ss.map Statement.id).Nodup := by
  intro h
  let o : ReadOptions := .ofPath Line.commentMarks ⟨"/m/m.tcf"⟩
  have hcheck : ((readStatements o (Text.unlines ["If Scenario == A", "End If",
      "\x00placeholder Global & Scenario(A)"])).toOption.any fun ss =>
        decide (∀ a ∈ messages o.idFile ss, ∀ b ∈ messages o.idFile ss, a = b) &&
          !decide (ss.map Statement.id).Nodup) = true := by
    decide +kernel
  obtain ⟨ss, hread, hcheck⟩ := Except.toOption_any_iff.mp hcheck
  simp only [Bool.and_eq_true, Bool.not_eq_true', decide_eq_true_eq, decide_eq_false_iff_not]
    at hcheck
  exact hcheck.2 (h o _ ss hread fun a ha b hb _ => hcheck.1 a ha b hb)

end ControlFiles
