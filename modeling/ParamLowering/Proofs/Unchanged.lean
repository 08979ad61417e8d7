import ParamLowering.Proofs.FileEdits
import ParamLowering.Proofs.PassTrace
set_option autoImplicit false

/-!
Files that a run leaves as they are.

A pass makes one replacement for each pattern, each default and the rest parameter of a list. So
a file stays as it is exactly if no function found in it has any of these, and a second run
changes what the first one left in a list.
-/

namespace ParamLowering

/-! ### Plain lists -/

theorem Outcome.ofReplacements_edits_eq_nil_iff {anchor : Nat} {rs : List Replacement} :
    (ofReplacements anchor rs).edits = [] ↔ rs = [] := by
  cases rs <;> simp [ofReplacements, Replacement.edits]

section Pass

variable {σ : Type} {cx : PassContext σ} {st st' : PassState σ}

/-- A pass leaves a list alone exactly if nothing in it has to be replaced. -/
theorem lowerFunction_edits_eq_nil_iff {f : FunctionNode} {o : Outcome}
    (h : Succeeds (lowerFunction cx f) st o st') : o.edits = [] ↔ f.isModern = false := by
  obtain ⟨layout, hlayout, ⟨hplain, rfl⟩ | ⟨hoist, rs, hrs, rfl⟩⟩ := lowerFunction_succeeds h
  · simp [hplain]
  · obtain ⟨hcount, -, -, heq⟩ := ofFunction_eq_ok hlayout
    have hlength := (Lower.replacements_inTurn (by rw [heq]) hrs).length_eq
    rw [← FunctionNode.replaced_eq_nil_iff hcount, ← List.length_eq_zero_iff (l := f.replaced),
      hlength, List.length_eq_zero_iff]
    exact Outcome.ofReplacements_edits_eq_nil_iff

theorem mapM_edits_eq_nil_iff {fs : List FunctionNode} {outcomes : List Outcome}
    (h : Succeeds (fs.mapM (lowerFunction cx)) st outcomes st') :
    outcomes.flatMap (·.edits) = [] ↔ ∀ f ∈ fs, f.isModern = false := by
  induction fs generalizing st outcomes with
  | nil =>
    rw [List.mapM_nil] at h
    obtain ⟨rfl, -⟩ := Succeeds.pure_iff.1 h
    simp
  | cons f fs ih =>
    obtain ⟨o, u, os, ho, hos, rfl⟩ := mapM_cons_succeeds h
    rw [List.flatMap_cons, List.append_eq_nil_iff, lowerFunction_edits_eq_nil_iff ho, ih hos,
      List.forall_mem_cons]

end Pass

/-! ### Files -/

theorem Edit.applyAll_nil (source : List Char) : applyAll source [] = .ok source := rfl

/-- A file stays as it is exactly if every function found in it has a plain list. -/
theorem Run.lowerFile_unchanged_iff {run : Run} {file : String} {source : List Char}
    {d : Discovery} {lowered : LoweredFile}
    (hd : discover run.nextFile file source run.names = some d)
    (h : (run.lowerFile file source).1 = .ok lowered) :
    (lowered.edits = [] ∧ lowered.output = source) ↔ ∀ f ∈ d.functions, f.isModern = false := by
  simp only [lowerFile, hd] at h
  split at h
  · cases h
  · rename_i outcomes st hrun
    have hedits := mapM_edits_eq_nil_iff (lowerEach_succeeds hrun)
    rw [← hedits]
    simp only [finish] at h
    split at h
    · cases h
    · rename_i output houtput
      obtain rfl := Except.ok.inj h
      refine ⟨fun hnone => hnone.1, fun hnone => ⟨hnone, ?_⟩⟩
      rw [hnone, Edit.applyAll_nil] at houtput
      exact (Except.ok.inj houtput).symm

/-- `function f(a) { f(b, c); } function g(d) {}` -/
def plainSource : List Char :=
  "function f(a) \x7b f(b, c); \x7d function g(d) \x7b\x7d".toList

theorem Run.lowerFile_unchanged_plain : ∃ d lowered,
    discover 0 "a.js" plainSource NameSet.empty = some d ∧
    (lowerFile { options := {} } "a.js" plainSource).1 = .ok lowered ∧
    ((lowered.edits = [] ∧ lowered.output = plainSource) ↔
      ∀ f ∈ d.functions, f.isModern = false) := by
  obtain ⟨d, hd⟩ : ∃ d, discover 0 "a.js" plainSource NameSet.empty = some d :=
    Option.isSome_iff_exists.1 (by decide +kernel)
  have hok : (lowerFile { options := {} } "a.js" plainSource).1.isOk = true := by decide +kernel
  cases h : (lowerFile { options := {} } "a.js" plainSource).1 with
  | error e => rw [h] at hok; cases hok
  | ok lowered => exact ⟨d, lowered, hd, rfl, @lowerFile_unchanged_iff { options := {} } _ _ _ _ hd h⟩

/-- Of two rest parameters only the second goes, so another run takes the first. -/
theorem Run.lowerFile_again_changes :
    (lowerFile { options := {} } "a.js" "function f(...a, ...b) \x7b\x7d".toList).1.toOption.map
      (·.output) =
      some "function f(...a, ) \x7bvar b = [].slice.call(arguments, 0);\x7d".toList ∧
    (lowerFile { options := {} } "a.js"
      "function f(...a, ) \x7bvar b = [].slice.call(arguments, 0);\x7d".toList).1.toOption.map
      (·.output) =
      some ("function f( ) \x7bvar a = [].slice.call(arguments, 0);" ++
        "var b = [].slice.call(arguments, 0);\x7d").toList := by
  decide +kernel

end ParamLowering
