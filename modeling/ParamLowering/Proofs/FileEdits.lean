import ParamLowering.Proofs.FunctionEdits
import ParamLowering.Run
set_option autoImplicit false

/-!
The edits of a whole file.

Functions of a file stand side by side or inside each other's bodies. Each edits its own list
and one place in its own body, so all edits of a file can be applied together.
-/

namespace ParamLowering

namespace FunctionNode

/-- The text of a function from its list to the end of its body. -/
def extent (f : FunctionNode) : Span :=
  ⟨f.listStart, max f.body.span.stop (Layout.anchorOf f)⟩

/-- A function stands in the body of another, at its first statement or later. -/
def InBodyOf (inner outer : FunctionNode) : Prop :=
  Layout.anchorOf outer ≤ inner.extent.start ∧ inner.extent.stop ≤ outer.body.span.stop

/-- Two functions are side by side, or one is in the body of the other. -/
def Apart (f g : FunctionNode) : Prop :=
  f.extent.stop ≤ g.extent.start ∨ g.extent.stop ≤ f.extent.start ∨ f.InBodyOf g ∨ g.InBodyOf f

instance (inner outer : FunctionNode) : Decidable (inner.InBodyOf outer) :=
  inferInstanceAs (Decidable (_ ∧ _))

instance (f g : FunctionNode) : Decidable (f.Apart g) :=
  inferInstanceAs (Decidable (_ ∨ _ ∨ _ ∨ _))

/-- In either case one list begins behind the place where the other function gets its
statements. -/
theorem Apart.anchor_le {f g : FunctionNode} (h : f.Apart g) :
    Layout.anchorOf f ≤ g.listStart ∨ Layout.anchorOf g ≤ f.listStart := by
  rcases h with h | h | ⟨h, -⟩ | ⟨h, -⟩
  · exact .inl (Nat.le_trans (Nat.le_max_right _ _) h)
  · exact .inr (Nat.le_trans (Nat.le_max_right _ _) h)
  · exact .inr h
  · exact .inl h

end FunctionNode

section Pass

variable {σ : Type} {cx : PassContext σ} {st st' : PassState σ}

theorem mapM_cons_succeeds {f : FunctionNode} {fs : List FunctionNode} {outcomes : List Outcome}
    (h : Succeeds ((f :: fs).mapM (lowerFunction cx)) st outcomes st') :
    ∃ o u os, Succeeds (lowerFunction cx f) st o u ∧
      Succeeds (fs.mapM (lowerFunction cx)) u os st' ∧ outcomes = o :: os := by
  rw [List.mapM_cons] at h
  obtain ⟨o, u, ho, h⟩ := Succeeds.bind_iff.1 h
  obtain ⟨os, v, hos, h⟩ := Succeeds.bind_iff.1 h
  obtain ⟨rfl, rfl⟩ := Succeeds.pure_iff.1 h
  exact ⟨o, u, os, ho, hos, rfl⟩

theorem lowerFunction_plain {f : FunctionNode} {o : Outcome} (hplain : f.isModern = false)
    (h : Succeeds (lowerFunction cx f) st o st') : o = {} := by
  obtain ⟨layout, u, -, h⟩ := Succeeds.bind_iff.1 h
  rw [if_pos (by simp [hplain])] at h
  exact (Succeeds.pure_iff.1 h).1.symm

/-- Every edit of a run belongs to one of its functions, and no two are in conflict. Functions
without modern parameters have no edits and may stand anywhere. -/
theorem mapM_modernEdits {fs : List FunctionNode}
    (hfs : ∀ f ∈ fs, f.isModern = true → f.Placed cx.source)
    (hapart : fs.Pairwise fun f g => f.isModern = true → g.isModern = true → f.Apart g)
    {outcomes : List Outcome} (h : Succeeds (fs.mapM (lowerFunction cx)) st outcomes st') :
    (∀ e ∈ outcomes.flatMap (·.edits), Edit.InText cx.source e ∧
      ∃ f ∈ fs, f.isModern = true ∧ f.listStart ≤ e.start ∧ e.stop ≤ Layout.anchorOf f) ∧
    (outcomes.flatMap (·.edits)).Pairwise Edit.Separate := by
  induction fs generalizing st outcomes with
  | nil =>
    rw [List.mapM_nil] at h
    obtain ⟨rfl, -⟩ := Succeeds.pure_iff.1 h
    exact ⟨by simp, List.Pairwise.nil⟩
  | cons f fs ih =>
    obtain ⟨o, u, os, ho, hos, rfl⟩ := mapM_cons_succeeds h
    obtain ⟨hf, hfs'⟩ := List.forall_mem_cons.1 hfs
    obtain ⟨hfg, hapart'⟩ := List.pairwise_cons.1 hapart
    obtain ⟨hmembers, hseparate⟩ := ih hfs' hapart' hos
    have hothers : ∀ e ∈ os.flatMap (·.edits), Edit.InText cx.source e ∧
        ∃ g ∈ f :: fs, g.isModern = true ∧ g.listStart ≤ e.start ∧
          e.stop ≤ Layout.anchorOf g := by
      intro e he
      obtain ⟨htext, g, hg, hbounds⟩ := hmembers e he
      exact ⟨htext, g, List.mem_cons_of_mem f hg, hbounds⟩
    rw [List.flatMap_cons]
    cases hmodern : f.isModern with
    | false =>
      obtain rfl := lowerFunction_plain hmodern ho
      exact ⟨hothers, hseparate⟩
    | true =>
      have hconfined := lowerFunction_confined (hf hmodern) ho
      constructor
      · intro e he
        rcases List.mem_append.1 he with he | he
        · exact ⟨hconfined.inText e he, f, by simp, hmodern, hconfined.bounds e he⟩
        · exact hothers e he
      · refine List.pairwise_append.2 ⟨hconfined.separate, hseparate, fun e he d hd => ?_⟩
        obtain ⟨hstart, hstop⟩ := hconfined.bounds e he
        obtain ⟨-, g, hg, hgmodern, hstart', hstop'⟩ := hmembers d hd
        rcases (hfg g hg hmodern hgmodern).anchor_le with hle | hle
        · exact .inl (by omega)
        · exact .inr (by omega)

/-- The same for functions of which no two interfere, whatever their parameters. -/
theorem mapM_edits {fs : List FunctionNode} (hfs : ∀ f ∈ fs, f.InText cx.source)
    (hapart : fs.Pairwise FunctionNode.Apart) {outcomes : List Outcome}
    (h : Succeeds (fs.mapM (lowerFunction cx)) st outcomes st') :
    (∀ e ∈ outcomes.flatMap (·.edits), Edit.InText cx.source e ∧
      ∃ f ∈ fs, f.listStart ≤ e.start ∧ e.stop ≤ Layout.anchorOf f) ∧
    (outcomes.flatMap (·.edits)).Pairwise Edit.Separate := by
  obtain ⟨hmembers, hseparate⟩ := mapM_modernEdits (fun f hf _ => (hfs f hf).placed)
    (hapart.imp fun hfg _ _ => hfg) h
  refine ⟨fun e he => ?_, hseparate⟩
  obtain ⟨htext, f, hf, -, hbounds⟩ := hmembers e he
  exact ⟨htext, f, hf, hbounds⟩

/-- The edits of all functions of a file can be applied together. -/
theorem applyAll_accepts_file {fs : List FunctionNode} (hfs : ∀ f ∈ fs, f.InText cx.source)
    (hapart : fs.Pairwise FunctionNode.Apart) {outcomes : List Outcome}
    (h : Succeeds (fs.mapM (lowerFunction cx)) st outcomes st') :
    ∃ output, Edit.applyAll cx.source (outcomes.flatMap (·.edits)) = .ok output := by
  obtain ⟨hmembers, hseparate⟩ := mapM_edits hfs hapart h
  exact Edit.exists_applyAll_iff.2 ⟨fun e he => (hmembers e he).1, hseparate⟩

end Pass

namespace Run

variable {cx : PassContext Unit} {file : String} {fs : List FunctionNode}
  {st st' : PassState Unit} {outcomes : List Outcome}

theorem lowerEach_succeeds (h : lowerEach cx file fs st = (.ok outcomes, st')) :
    Succeeds (fs.mapM (lowerFunction cx)) st outcomes st' := by
  induction fs generalizing st outcomes with
  | nil =>
    rw [List.mapM_nil]
    simp only [lowerEach, Prod.mk.injEq, Except.ok.injEq] at h
    exact Succeeds.pure_iff.2 h
  | cons f fs ih =>
    rw [List.mapM_cons]
    unfold lowerEach at h
    split at h
    · cases h
    · rename_i o u ho
      split at h
      · cases h
      · rename_i os v hos
        simp only [Prod.mk.injEq, Except.ok.injEq] at h
        obtain ⟨rfl, rfl⟩ := h
        exact Succeeds.bind_iff.2 ⟨o, u, ho, Succeeds.bind_iff.2
          ⟨os, v, ih hos, Succeeds.pure_iff.2 ⟨rfl, rfl⟩⟩⟩

/-- A file whose functions are all lowered is written out. -/
theorem finish_succeeds (hfs : ∀ f ∈ fs, f.isModern = true → f.Placed cx.source)
    (hapart : fs.Pairwise fun f g => f.isModern = true → g.isModern = true → f.Apart g)
    (h : lowerEach cx file fs st = (.ok outcomes, st')) (warnings : List Warning) :
    ∃ lowered, finish file cx.source outcomes warnings = .ok lowered := by
  obtain ⟨hmembers, hseparate⟩ := mapM_modernEdits hfs hapart (lowerEach_succeeds h)
  have hmerge := Edit.applyAll_eq (fun e he => (hmembers e he).1) hseparate
  simp only [finish, hmerge]
  exact ⟨_, rfl⟩

end Run

/-- `function f({a}, b = 1) { function g([c]) {} } function h(...é) {}` -/
def nestedSource : List Char :=
  ("function f(\x7ba\x7d, b = 1) \x7b function g([c]) \x7b\x7d \x7d " ++
    "function h(...é) \x7b\x7d").toList

def outerFunction : FunctionNode where
  id := ⟨0, 0⟩
  name := some "f"
  span := ⟨0, 45⟩
  line := 1
  params := [⟨.object ⟨11, 14⟩ [.mk (.ident "a") (.ident "a" ⟨12, 13⟩) none], ⟨11, 14⟩⟩,
    ⟨.ident "b" ⟨16, 17⟩, ⟨16, 17⟩⟩]
  defaults := [⟨⟨20, 21⟩, none⟩]
  rest := none
  thisParam := none
  body := ⟨⟨23, 45⟩, some ⟨25, 43⟩⟩

def innerFunction : FunctionNode where
  id := ⟨0, 1⟩
  name := some "g"
  span := ⟨25, 43⟩
  line := 1
  params := [⟨.array ⟨36, 39⟩ [.item (.ident "c" ⟨37, 38⟩) none] none, ⟨36, 39⟩⟩]
  defaults := []
  rest := none
  thisParam := none
  body := ⟨⟨41, 43⟩, none⟩

def siblingFunction : FunctionNode where
  id := ⟨0, 2⟩
  name := some "h"
  span := ⟨46, 66⟩
  line := 1
  params := []
  defaults := []
  rest := some ⟨"é", ⟨57, 62⟩⟩
  thisParam := none
  body := ⟨⟨64, 66⟩, none⟩

def nestedState : PassState Unit where
  scopes := ⟨[⟨.module, none, []⟩, ⟨.function, some 0, []⟩, ⟨.function, some 1, []⟩,
    ⟨.function, some 0, []⟩], [(⟨0, 0⟩, 1), (⟨0, 1⟩, 2), (⟨0, 2⟩, 3)]⟩
  names := { taken := ["f", "a", "b", "g", "c", "h", "é"] }
  warnings := []
  extractor := ()

theorem applyAll_accepts_nested : ∃ outcomes st',
    Succeeds ([innerFunction, outerFunction, siblingFunction].mapM
      (lowerFunction (Run.passContext {} nestedSource))) nestedState outcomes st' ∧
    ∃ output, Edit.applyAll nestedSource (outcomes.flatMap (·.edits)) = .ok output := by
  have hinner : innerFunction.InText nestedSource :=
    ⟨by decide, by decide, by decide, by decide, ⟨_, rfl⟩, by decide⟩
  have houter : outerFunction.InText nestedSource :=
    ⟨by decide, by decide, by decide, by decide, ⟨_, rfl⟩, by decide⟩
  have hsibling : siblingFunction.InText nestedSource :=
    ⟨by decide, by decide, by decide, by decide, ⟨_, rfl⟩, by decide⟩
  have hapart : [innerFunction, outerFunction, siblingFunction].Pairwise FunctionNode.Apart := by
    decide
  obtain ⟨outcomes, st', h⟩ : ∃ outcomes st',
      Succeeds ([innerFunction, outerFunction, siblingFunction].mapM
        (lowerFunction (Run.passContext {} nestedSource))) nestedState outcomes st' :=
    exists_succeeds (by decide +kernel)
  exact ⟨outcomes, st', h,
    applyAll_accepts_file (by simpa using ⟨hinner, houter, hsibling⟩) hapart h⟩

end ParamLowering
