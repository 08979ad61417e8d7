import ParamLowering.Proofs.FoundFunctions
import ParamLowering.Proofs.Reading.Program
set_option autoImplicit false

/-!
When a file can be lowered.

Nothing fails in a pass over a function that was read soundly, and every function of a text that
can be read is. Only the merge can refuse what the passes made of a file, and it does exactly
where a rest parameter stands in front of others.
-/

namespace ParamLowering

open ParamLowering.Tree

theorem FunctionNode.Sound.ready {f : FunctionNode} {source : List Char} {start : Nat}
    (h : f.Sound source start) (options : LoweringOptions) {scopes : ScopeRegistry}
    (hscope : ∃ scope, scopes.scopeOf? f.id = some scope) :
    f.Ready (Run.passContext options source) scopes.owners where
  layout := h.layout
  scope := hscope
  patterns := fun p hp => ExtractionContext.extractor_answers _ (h.list.patterns p hp)
  defaults := fun _ hd => h.default_isText hd

theorem FunctionNode.isModern_of_late {f : FunctionNode} (h : ¬ f.RestLast) :
    f.isModern = true := by
  cases hrest : f.rest with
  | none => exact absurd (fun r hr => by rw [hrest] at hr; cases hr) h
  | some r => simp [isModern, hrest]

section Pass

variable {σ : Type} {cx : PassContext σ} {st st' : PassState σ}

/-- In a run over functions each of them is lowered. -/
theorem exists_outcome {fs : List FunctionNode} {outcomes : List Outcome}
    (h : Succeeds (fs.mapM (lowerFunction cx)) st outcomes st') {f : FunctionNode} (hf : f ∈ fs) :
    ∃ o ∈ outcomes, ∃ u v, Succeeds (lowerFunction cx f) u o v := by
  induction fs generalizing st outcomes with
  | nil => cases hf
  | cons g fs ih =>
    obtain ⟨o, u, os, ho, hos, rfl⟩ := mapM_cons_succeeds h
    rcases List.mem_cons.1 hf with rfl | hf
    · exact ⟨o, by simp, st, u, ho⟩
    · obtain ⟨o', ho', hrun⟩ := ih hos hf
      exact ⟨o', List.mem_cons_of_mem o ho', hrun⟩

/-- A pass over a list with a rest parameter in front of others ends with an inverted edit. -/
theorem lowerFunction_inverts {f : FunctionNode} {start : Nat} (hf : f.Sound cx.source start)
    (hlate : ¬ f.RestLast) {o : Outcome} (h : Succeeds (lowerFunction cx f) st o st') :
    ∃ e ∈ o.edits, e.stop < e.start := by
  obtain ⟨layout, hlayout, ⟨hplain, -⟩ | ⟨hoist, rs, hrs, rfl⟩⟩ := lowerFunction_succeeds h
  · rw [FunctionNode.isModern_of_late hlate] at hplain
    cases hplain
  · obtain ⟨first, u, -, hrs⟩ := Succeeds.bind_iff.1 hrs
    obtain ⟨second, v, -, hrs⟩ := Succeeds.bind_iff.1 hrs
    obtain ⟨third, w, hthird, hrs⟩ := Succeeds.bind_iff.1 hrs
    obtain ⟨rfl, rfl⟩ := Succeeds.pure_iff.1 hrs
    obtain ⟨r, hr, hinverted⟩ := hf.inverted_of_late hlate hlayout hthird
    exact ⟨r.removal, List.mem_flatMap.2 ⟨r, List.mem_append_right _ hr, by simp [Replacement.edits]⟩,
      hinverted⟩

end Pass

namespace Run

variable {run : Run} {file : String} {source : List Char} {d : Discovery}

/-- The passes over a file give an outcome for every function, so that only the merge is left. -/
theorem exists_lowerFile_eq (hd : discover run.nextFile file source run.names = some d)
    (h : d.Sound source) : ∃ outcomes st,
    lowerEach (passContext run.options source) file d.functions (passState d) = (.ok outcomes, st) ∧
      (run.lowerFile file source).1 = finish file source outcomes st.warnings := by
  have hready : ∀ f ∈ d.functions, f.Ready (passContext run.options source) d.scopes.owners := by
    intro f hf
    obtain ⟨start, hsound⟩ := h.functions f hf
    exact hsound.ready run.options (h.scopes f hf)
  obtain ⟨outcomes, st, hrun⟩ : ∃ outcomes st, lowerEach (passContext run.options source) file
      d.functions (passState d) = (.ok outcomes, st) := lowerEach_works hready rfl
  refine ⟨outcomes, st, hrun, ?_⟩
  simp only [lowerFile, hd, hrun]

theorem lowerFile_ok_iff_of_sound (hd : discover run.nextFile file source run.names = some d)
    (h : d.Sound source) : (∃ lowered, (run.lowerFile file source).1 = .ok lowered) ↔
      ∀ f ∈ d.functions, f.RestLast := by
  obtain ⟨outcomes, st, hrun, heq⟩ := exists_lowerFile_eq hd h
  rw [heq]
  constructor
  · rintro ⟨lowered, hlowered⟩ f hf
    by_contra hlate
    obtain ⟨start, hsound⟩ := h.functions f hf
    obtain ⟨o, ho, u, v, hone⟩ := exists_outcome (lowerEach_succeeds hrun) hf
    obtain ⟨e, he, hinverted⟩ := lowerFunction_inverts hsound hlate hone
    have hmerge : ∃ output, Edit.applyAll source (outcomes.flatMap (·.edits)) = .ok output := by
      simp only [finish] at hlowered
      split at hlowered
      · cases hlowered
      · exact ⟨_, by assumption⟩
    have htext := (Edit.exists_applyAll_iff.1 hmerge).1 e (List.mem_flatMap.2 ⟨o, ho, he⟩)
    exact absurd htext.inOrder (Nat.not_le.2 hinverted)
  · intro hlast
    change ∃ lowered, finish file (passContext run.options source).source _ _ = .ok lowered
    refine finish_succeeds (fun f hf _ => ?_) h.apart hrun _
    obtain ⟨start, hsound⟩ := h.functions f hf
    exact hsound.placed (hlast f hf)

theorem discover_eq_some {statements : List Node}
    (h : SourceFile.statements? file source = some statements) (number : Nat) (names : NameSet) :
    discover number file source names = some (Discovery.ofStatements number
      (SourceFile.lineAt (SourceFile.withoutMark source)) statements names) := by
  rw [discover, h, Option.map_some]

/-- What is discovered in a file without a byte order mark is sound. -/
theorem discover_sound {statements : List Node}
    (hread : SourceFile.statements? file source = some statements)
    (hmark : SourceFile.withoutMark source = source) (number : Nat) (names : NameSet) :
    (Discovery.ofStatements number (SourceFile.lineAt (SourceFile.withoutMark source)) statements
      names).Sound source := by
  have hplaced : Tree.Placed (SourceFile.withoutMark source) statements := Grammar.parse_placed hread
  rw [hmark] at hplaced
  exact Discovery.sound_ofStatements hplaced number _ names

/-- A text that can be read is lowered unless some list has a rest parameter in front of others.
Then it is the merge that fails: every list is read, and every declaration is written. Behind a
byte order mark the ranges lead to other text, and anything may happen. -/
theorem lowerFile_ok_iff {statements : List Node}
    (hread : SourceFile.statements? file source = some statements)
    (hmark : SourceFile.withoutMark source = source) :
    ((∃ lowered, (run.lowerFile file source).1 = .ok lowered) ↔
      ∀ f ∈ (Discovery.ofStatements run.nextFile
        (SourceFile.lineAt (SourceFile.withoutMark source)) statements run.names).functions,
        f.RestLast) ∧
    ∀ e, (run.lowerFile file source).1 = .error e → ∃ cause, e = .edits file cause := by
  have hsound := discover_sound hread hmark run.nextFile run.names
  have hd := discover_eq_some hread run.nextFile run.names
  refine ⟨lowerFile_ok_iff_of_sound hd hsound, fun e he => ?_⟩
  obtain ⟨outcomes, st, -, heq⟩ := exists_lowerFile_eq hd hsound
  rw [heq, finish] at he
  split at he
  · rename_i cause hmerge
    exact ⟨cause, (Except.error.inj he).symm⟩
  · cases he

/-- `function f({a}, b = 1, ...c) {}` -/
def restSource : List Char := "function f(\x7ba\x7d, b = 1, ...c) \x7b\x7d".toList

def restTargets : List Target :=
  [.object ⟨11, 14⟩ [.shorthand ⟨"a", ⟨12, 13⟩⟩ none] [],
    .withDefault (.name ⟨"b", ⟨16, 17⟩⟩ ⟨16, 17⟩ []) (.group ⟨20, 21⟩ []),
    .rest ⟨23, 27⟩ (.name ⟨"c", ⟨26, 27⟩⟩ ⟨26, 27⟩ []) []]

def restStatements : List Node :=
  [.group ⟨0, 31⟩ [.functionName ⟨"f", ⟨9, 10⟩⟩,
    .function (some "f") ⟨0, 31⟩ restTargets ⟨29, 31⟩ []]]

theorem lowerFile_ok_rest :
    SourceFile.statements? "a.js" restSource = some restStatements ∧
    SourceFile.withoutMark restSource = restSource ∧
    ((∃ lowered, (lowerFile { options := {} } "a.js" restSource).1 = .ok lowered) ↔
      ∀ f ∈ (Discovery.ofStatements 0 (SourceFile.lineAt (SourceFile.withoutMark restSource))
        restStatements NameSet.empty).functions, f.RestLast) ∧
    ∀ e, (lowerFile { options := {} } "a.js" restSource).1 = .error e →
      ∃ cause, e = .edits "a.js" cause := by
  have hread : SourceFile.statements? "a.js" restSource = some restStatements := rfl
  have hmark : SourceFile.withoutMark restSource = restSource := rfl
  exact ⟨hread, hmark, lowerFile_ok_iff hread hmark⟩

/-- A list with a rest parameter in front of another is read, but the file fails. -/
theorem lowerFile_fails_on_early_rest :
    (SourceFile.statements? "a.js" "function f(...r, a) \x7b\x7d".toList).isSome = true ∧
    (lowerFile { options := {} } "a.js" "function f(...r, a) \x7b\x7d".toList).1.map (fun _ => ()) =
      .error (.edits "a.js" (.inverted 18 16)) := by
  decide +kernel

/-- Behind a byte order mark a range may end inside a character. -/
example : (lowerFile { options := {} } "a.js"
    (Char.ofNat 0xFEFF :: "function f({éa}) {}".toList)).1.map (fun _ => ()) =
      .error (.edits "a.js" (.splitsCharacter 16)) := by
  decide +kernel

end Run

end ParamLowering
