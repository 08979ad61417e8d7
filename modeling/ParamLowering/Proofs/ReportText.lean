import Mathlib.Data.List.Forall2
import ParamLowering.Proofs.JsonText
import ParamLowering.Report
set_option autoImplicit false

/-!
What the reports keep.

The table is a line for its header, one for each edit and, behind them, one for each warning. An
edit stays on its line whatever its texts hold. A warning quotes names as they are, so that a line
feed in one of them breaks its line. The JSON report tells everything of a file but its output.
-/

namespace ParamLowering

/-- The texts that the message of a warning quotes. -/
def Warning.quotes (w : Warning) : List String :=
  match w.kind with
  | .selfReferentialDefault name => [name]
  | .skippedFunction function reason => [function, reason]

theorem Warning.lineFeed_mem_message (w : Warning) :
    '\n' ∈ w.message.toList ↔ ∃ q ∈ w.quotes, '\n' ∈ q.toList := by
  rcases w with ⟨line, name | ⟨function, reason⟩⟩ <;>
    simp [message, quotes, toString]

namespace Report

/-- The edits of all files, each with the name of its file. -/
def listedEdits (files : List LoweredFile) : List (String × Edit) :=
  files.flatMap fun f => f.edits.map (f.file, ·)

def listedWarnings (files : List LoweredFile) : List (String × Warning) :=
  files.flatMap fun f => f.warnings.map (f.file, ·)

/-! ### Columns -/

/-- A row without its line feed. -/
def columns (file start stop kind text : List Char) : List Char :=
  padded 30 file ++ ' ' :: padded 6 start ++ ' ' :: padded 6 stop ++ ' ' :: padded 9 kind ++
    ' ' :: text

def editLine (item : String × Edit) : List Char :=
  columns (fitted 30 item.1.toList) (toString item.2.start).toList (toString item.2.stop).toList
    item.2.kind.label.toList (onOneRow item.2.text.toList)

theorem length_fitted {width : Nat} (h : 3 ≤ width) (cs : List Char) :
    (fitted width cs).length = width := by
  rw [fitted]
  split
  · simp only [List.length_append, List.length_take, List.length_cons, List.length_nil]
    omega
  · simp only [padded, List.length_append, List.length_replicate]
    omega

theorem padded_of_le {width : Nat} {cs : List Char} (h : width ≤ cs.length) :
    padded width cs = cs := by
  rw [padded, Nat.sub_eq_zero_of_le h, List.replicate_zero, List.append_nil]

theorem lineFeed_mem_padded {width : Nat} {cs : List Char} :
    '\n' ∈ padded width cs ↔ '\n' ∈ cs := by
  simp [padded]

theorem lineFeed_of_mem_fitted {width : Nat} {cs : List Char} (h : '\n' ∈ fitted width cs) :
    '\n' ∈ cs := by
  rw [fitted] at h
  split at h
  · rcases List.mem_append.1 h with h | h
    · exact List.mem_of_mem_take h
    · simp at h
  · exact lineFeed_mem_padded.1 h

theorem lineFeed_notMem_onOneRow (cs : List Char) : '\n' ∉ onOneRow cs := by
  simp only [onOneRow, List.mem_flatMap, not_exists, not_and]
  intro c _
  split
  · decide
  · split
    · decide
    · simpa using Ne.symm (by assumption)

theorem lineFeed_notMem_toDigits (n : Nat) : '\n' ∉ Nat.toDigits 10 n := fun h =>
  absurd (Nat.isDigit_of_mem_toDigits (by decide) (by decide) h) (by decide)

theorem lineFeed_notMem_toString (n : Nat) : '\n' ∉ (toString n).toList :=
  JsonValue.toList_toString n ▸ lineFeed_notMem_toDigits n

theorem lineFeed_mem_columns {file start stop kind text : List Char} :
    '\n' ∈ columns file start stop kind text ↔
      '\n' ∈ file ∨ '\n' ∈ start ∨ '\n' ∈ stop ∨ '\n' ∈ kind ∨ '\n' ∈ text := by
  simp [columns, lineFeed_mem_padded]

theorem lineFeed_notMem_editLine {file : String} (hfile : '\n' ∉ file.toList) (e : Edit) :
    '\n' ∉ editLine (file, e) := by
  have hkind : '\n' ∉ e.kind.label.toList := by cases e.kind <;> decide
  rw [editLine, lineFeed_mem_columns]
  rintro (h | h | h | h | h)
  · exact hfile (lineFeed_of_mem_fitted h)
  · exact lineFeed_notMem_toString _ h
  · exact lineFeed_notMem_toString _ h
  · exact hkind h
  · exact lineFeed_notMem_onOneRow _ h

/-! ### Lines -/

theorem length_splitOn (cs : List Char) :
    (cs.splitOn '\n').length = cs.count '\n' + 1 := by
  induction cs with
  | nil => rfl
  | cons c cs ih =>
    rw [List.splitOn_cons_eq_if_modifyHead, List.count_cons]
    split <;> simp [ih]

/-- Texts that each end in a line feed are split one by one. -/
theorem splitOn_flatMap {α : Type} (line : α → List Char) (xs : List α) (rest : List Char) :
    (xs.flatMap (fun x => line x ++ ['\n']) ++ rest).splitOn '\n' =
      xs.flatMap (fun x => (line x).splitOn '\n') ++ rest.splitOn '\n' := by
  induction xs with
  | nil => rfl
  | cons x xs ih =>
    rw [List.flatMap_cons, List.flatMap_cons, List.append_assoc, List.append_assoc, List.append_assoc,
      List.singleton_append, List.splitOn_append_cons_self, ih]

theorem count_flatMap {α : Type} (line : α → List Char) (xs : List α) :
    xs.length ≤ (xs.flatMap fun x => line x ++ ['\n']).count '\n' ∧
      ((xs.flatMap fun x => line x ++ ['\n']).count '\n' = xs.length ↔
        ∀ x ∈ xs, '\n' ∉ line x) := by
  induction xs with
  | nil => simp
  | cons x xs ih =>
    obtain ⟨hle, hiff⟩ := ih
    rw [List.flatMap_cons, List.count_append, List.count_append, List.count_singleton_self,
      List.length_cons, List.forall_mem_cons, ← hiff, ← List.count_eq_zero]
    omega

/-- The names of the columns. -/
def headerLine : List Char :=
  "FILE                           START  END    KIND      TEXT".toList

theorem table_eq (files : List LoweredFile) : table files = headerLine ++ '\n' ::
    ((listedEdits files).flatMap (fun item => editLine item ++ ['\n']) ++
      (listedWarnings files).flatMap
        (fun item => (warningText item.1 item.2).toList ++ ['\n'])) := by
  have hheader : header = headerLine ++ ['\n'] := by decide
  simp only [listedEdits, listedWarnings, List.flatMap_assoc, List.flatMap_map]
  rw [table, hheader, List.append_assoc, List.append_assoc]
  rfl

theorem splitOn_table (files : List LoweredFile) : (table files).splitOn '\n' = headerLine ::
    ((listedEdits files).flatMap (fun item => (editLine item).splitOn '\n') ++
      ((listedWarnings files).flatMap
        (fun item => (warningText item.1 item.2).toList.splitOn '\n') ++ [[]])) := by
  have hheader : headerLine.splitOn '\n' = [headerLine] :=
    List.splitOn_eq_singleton (by decide)
  have hwarnings := splitOn_flatMap (fun item => (warningText item.1 item.2).toList)
    (listedWarnings files) []
  rw [List.append_nil] at hwarnings
  rw [table_eq, List.splitOn_append_cons_self, hheader, splitOn_flatMap, hwarnings]
  rfl

/-- A line shows an edit: the name of its file in 30 characters, a blank, and the other columns. -/
structure ShowsEdit (item : String × Edit) (line : List Char) : Prop where
  oneLine : '\n' ∉ line
  fileColumn : ∃ column, column.length = 30 ∧ line = column ++ ' ' ::
    (padded 6 (toString item.2.start).toList ++ ' ' :: padded 6 (toString item.2.stop).toList ++
      ' ' :: padded 9 item.2.kind.label.toList ++ ' ' :: onOneRow item.2.text.toList) ∧
    (item.1.length ≤ 30 ∧ column = padded 30 item.1.toList ∨
      30 < item.1.length ∧ column = item.1.toList.take 27 ++ "...".toList)

/-- Lines show a warning: they are its text, and it is one line exactly if none of the texts that
it quotes has a line feed. -/
structure ShowsWarning (item : String × Warning) (lines : List (List Char)) : Prop where
  text : ['\n'].intercalate lines = (warningText item.1 item.2).toList
  oneLine : lines.length = 1 ↔ ∀ q ∈ item.2.quotes, '\n' ∉ q.toList

theorem editLine_shows {file : String} (hfile : '\n' ∉ file.toList) (e : Edit) :
    ShowsEdit (file, e) (editLine (file, e)) where
  oneLine := lineFeed_notMem_editLine hfile e
  fileColumn := by
    have hlength := length_fitted (by decide : 3 ≤ 30) file.toList
    refine ⟨fitted 30 file.toList, hlength, ?_, ?_⟩
    · rw [editLine, columns, padded_of_le (Nat.le_of_eq hlength.symm)]
      simp only [List.append_assoc, List.cons_append]
    · rw [fitted, String.length_toList]
      split
      · exact .inr ⟨by assumption, rfl⟩
      · exact .inl ⟨by dsimp only; omega, rfl⟩

theorem lineFeed_mem_warningText {file : String} (hfile : '\n' ∉ file.toList) (w : Warning) :
    '\n' ∈ (warningText file w).toList ↔ ∃ q ∈ w.quotes, '\n' ∈ q.toList := by
  rw [← w.lineFeed_mem_message]
  simp [warningText, hfile, lineFeed_notMem_toDigits, toString]

theorem splitOn_shows {file : String} (hfile : '\n' ∉ file.toList) (w : Warning) :
    ShowsWarning (file, w) ((warningText file w).toList.splitOn '\n') where
  text := List.intercalate_splitOn '\n'
  oneLine := by
    have hmem := not_congr (lineFeed_mem_warningText hfile w)
    rw [length_splitOn, Nat.add_eq_right, List.count_eq_zero, hmem]
    simp

section Table

variable {files : List LoweredFile} (hfiles : ∀ f ∈ files, '\n' ∉ f.file.toList)
include hfiles

theorem lineFeed_notMem_listedEdits {item : String × Edit} (h : item ∈ listedEdits files) :
    '\n' ∉ item.1.toList := by
  obtain ⟨f, hf, hitem⟩ := List.mem_flatMap.1 h
  obtain ⟨e, -, rfl⟩ := List.mem_map.1 hitem
  exact hfiles f hf

theorem lineFeed_notMem_listedWarnings {item : String × Warning}
    (h : item ∈ listedWarnings files) : '\n' ∉ item.1.toList := by
  obtain ⟨f, hf, hitem⟩ := List.mem_flatMap.1 h
  obtain ⟨w, -, rfl⟩ := List.mem_map.1 hitem
  exact hfiles f hf

/-- There is a line for each item exactly if no warning is broken. -/
theorem count_table_iff : (table files).count '\n' =
      1 + (listedEdits files).length + (listedWarnings files).length ↔
    ∀ item ∈ listedWarnings files, ∀ q ∈ item.2.quotes, '\n' ∉ q.toList := by
  have hheader : headerLine.count '\n' = 0 := by decide
  have hedits := (count_flatMap editLine (listedEdits files)).2.2 fun item hitem =>
    lineFeed_notMem_editLine (lineFeed_notMem_listedEdits hfiles hitem) item.2
  have hwarnings := (count_flatMap (fun item => (warningText item.1 item.2).toList)
    (listedWarnings files)).2
  have hquotes : (∀ item ∈ listedWarnings files, '\n' ∉ (warningText item.1 item.2).toList) ↔
      ∀ item ∈ listedWarnings files, ∀ q ∈ item.2.quotes, '\n' ∉ q.toList :=
    forall₂_congr fun item hitem => by
      rw [lineFeed_mem_warningText (lineFeed_notMem_listedWarnings hfiles hitem)]
      simp
  rw [table_eq, List.count_append, List.count_cons_self, List.count_append, hheader, hedits,
    ← hquotes, ← hwarnings]
  omega

end Table

/-- The table has a line for its header, then one for each edit, then one or more for each
warning, all in order. It has exactly one for each warning if and only if no text that a warning
quotes has a line feed. -/
theorem table_lines (files : List LoweredFile) (hfiles : ∀ f ∈ files, '\n' ∉ f.file.toList) :
    ∃ (rows : List (List Char)) (notes : List (List (List Char))),
      (table files).splitOn '\n' = headerLine :: (rows ++ (notes.flatten ++ [[]])) ∧
      List.Forall₂ ShowsEdit (listedEdits files) rows ∧
      List.Forall₂ ShowsWarning (listedWarnings files) notes ∧
      ((table files).count '\n' =
          1 + (listedEdits files).length + (listedWarnings files).length ↔
        ∀ item ∈ listedWarnings files, ∀ q ∈ item.2.quotes, '\n' ∉ q.toList) := by
  refine ⟨(listedEdits files).map editLine, (listedWarnings files).map
    fun item => (warningText item.1 item.2).toList.splitOn '\n', ?_, ?_, ?_,
    count_table_iff hfiles⟩
  · have hrows : (listedEdits files).flatMap (fun item => (editLine item).splitOn '\n') =
        (listedEdits files).map editLine := by
      rw [List.map_eq_flatMap]
      exact List.flatMap_congr fun item hitem => List.splitOn_eq_singleton
        (lineFeed_notMem_editLine (lineFeed_notMem_listedEdits hfiles hitem) item.2)
    rw [splitOn_table, hrows, ← List.flatMap_def]
  · rw [List.forall₂_map_right_iff, List.forall₂_same]
    exact fun item hitem => editLine_shows (lineFeed_notMem_listedEdits hfiles hitem) item.2
  · rw [List.forall₂_map_right_iff, List.forall₂_same]
    exact fun item hitem => splitOn_shows (lineFeed_notMem_listedWarnings hfiles hitem) item.2

/-- A long file name, an edit over two lines, and a warning about a function whose name has a line
feed. -/
def sampleFiles : List LoweredFile :=
  [{ file := "a/directory/with/a/long/name/file.js"
     output := "x".toList
     edits := [Edit.insertAt 25 "var a = [1,\n2];" .prologue]
     warnings := [⟨3, .skippedFunction "a\nb" SkipReason.objectRest.text⟩]
     changedFunctions := 1 }]

theorem table_lines_sample : (∀ f ∈ sampleFiles, '\n' ∉ f.file.toList) ∧
    ∃ (rows : List (List Char)) (notes : List (List (List Char))),
      (table sampleFiles).splitOn '\n' = headerLine :: (rows ++ (notes.flatten ++ [[]])) ∧
      List.Forall₂ ShowsEdit (listedEdits sampleFiles) rows ∧
      List.Forall₂ ShowsWarning (listedWarnings sampleFiles) notes ∧
      ((table sampleFiles).count '\n' =
          1 + (listedEdits sampleFiles).length + (listedWarnings sampleFiles).length ↔
        ∀ item ∈ listedWarnings sampleFiles, ∀ q ∈ item.2.quotes, '\n' ∉ q.toList) :=
  ⟨by decide, table_lines sampleFiles (by decide)⟩

/-- The text `x = {"a\nb"({...r}) {}};` -/
def brokenNameSource : List Char := "x = \x7b\"a\\nb\"(\x7b...r\x7d) \x7b\x7d\x7d;".toList

/-- A method whose name has a line feed is warned about on two lines. -/
theorem table_broken_by_name :
    (Run.lowerFile { options := {} } "a.js" brokenNameSource).1.toOption.map (fun f =>
      (f.file, f.edits.length, f.warnings.length, (table [f]).splitOn '\n')) =
    some ("a.js", 0, 1, [headerLine, "warning: a.js:1: function 'a".toList,
      "b' left unchanged: object rest element in a parameter pattern".toList, []]) := by
  decide +kernel

/-! ### JSON -/

/-- Two lowered files differ in their output text at most. -/
structure AgreeBesideOutput (f g : LoweredFile) : Prop where
  file : f.file = g.file
  edits : f.edits = g.edits
  warnings : f.warnings = g.warnings
  changedFunctions : f.changedFunctions = g.changedFunctions

theorem label_injective {k l : EditKind} (h : k.label = l.label) : k = l := by
  cases k <;> cases l <;> simp_all [EditKind.label]

theorem editValue_injective : Function.Injective editValue := by
  rintro ⟨start, stop, text, kind⟩ ⟨start', stop', text', kind'⟩ h
  simp only [editValue, JsonValue.object.injEq, List.cons.injEq, Prod.mk.injEq, true_and,
    JsonValue.string.injEq, and_true] at h
  obtain ⟨hstart, hstop, rfl, hkind⟩ := h
  rw [JsonValue.nat_injective hstart, JsonValue.nat_injective hstop, label_injective hkind]

theorem warningValue_injective : Function.Injective warningValue := by
  rintro ⟨line, name | ⟨function, reason⟩⟩ ⟨line', name' | ⟨function', reason'⟩⟩ h
  all_goals
    simp only [warningValue, JsonValue.object.injEq, List.cons.injEq, Prod.mk.injEq, true_and,
      JsonValue.string.injEq, and_true] at h
  · rw [JsonValue.nat_injective h.1, h.2]
  · exact absurd h.2.1 (by decide)
  · exact absurd h.2.1 (by decide)
  · rw [JsonValue.nat_injective h.1, h.2.1, h.2.2]

theorem fileValue_eq_iff {f g : LoweredFile} :
    fileValue f = fileValue g ↔ AgreeBesideOutput f g := by
  constructor
  · intro h
    simp only [fileValue, JsonValue.object.injEq, List.cons.injEq, Prod.mk.injEq, true_and,
      JsonValue.string.injEq, JsonValue.array.injEq, and_true] at h
    obtain ⟨hfile, hedits, hwarnings, hchanged⟩ := h
    exact ⟨hfile, editValue_injective.list_map hedits, warningValue_injective.list_map hwarnings,
      JsonValue.nat_injective hchanged⟩
  · rintro ⟨hfile, hedits, hwarnings, hchanged⟩
    rw [fileValue, fileValue, hfile, hedits, hwarnings, hchanged]

theorem editValue_wellFormed (e : Edit) : (editValue e).WellFormed :=
  .object (by simp [JsonValue.nat_wellFormed, JsonValue.WellFormed.string])

theorem warningValue_wellFormed (w : Warning) : (warningValue w).WellFormed := by
  rcases w with ⟨line, name | ⟨function, reason⟩⟩ <;>
    exact .object (by simp [JsonValue.nat_wellFormed, JsonValue.WellFormed.string])

theorem fileValue_wellFormed (f : LoweredFile) : (fileValue f).WellFormed := by
  have hedits : (JsonValue.array (f.edits.map editValue)).WellFormed :=
    .array (by simp [editValue_wellFormed])
  have hwarnings : (JsonValue.array (f.warnings.map warningValue)).WellFormed :=
    .array (by simp [warningValue_wellFormed])
  exact .object (by simp [JsonValue.nat_wellFormed, JsonValue.WellFormed.string, hedits, hwarnings])

theorem reportValue_wellFormed (files : List LoweredFile) :
    (JsonValue.array (files.map fileValue)).WellFormed :=
  .array (by simp [fileValue_wellFormed])

/-- Two JSON reports are one text if and only if they are on the same files in the same order, the
output texts left out. -/
theorem json_eq_iff (files files' : List LoweredFile) :
    json files = json files' ↔ List.Forall₂ AgreeBesideOutput files files' := by
  have hpretty : json files = json files' ↔ files.map fileValue = files'.map fileValue :=
    ⟨fun h => JsonValue.array.inj (JsonValue.pretty_injective (reportValue_wellFormed files)
      (reportValue_wellFormed files') h), fun h => by rw [json, json, h]⟩
  rw [hpretty, ← List.forall₂_eq_eq_eq, List.forall₂_map_left_iff, List.forall₂_map_right_iff]
  simp only [fileValue_eq_iff]

end Report

end ParamLowering
