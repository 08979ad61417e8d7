import ParamLowering.Proofs.FunctionEdits
import ParamLowering.Run
set_option autoImplicit false

/-!
The text of a function after its parameters were lowered.

Everything up to the last kept element stays, with names for patterns. Behind it one gap takes
the other elements out of the list, and their statements stand at the anchor.
-/

namespace ParamLowering

open ParamLowering.Text

/-- The text between two offsets with names for the patterns in it. -/
def renamed (source : List Char) : Nat → List (Param × String) → Nat → List Char
  | start, [], stop => between source start stop
  | start, (p, name) :: slots, stop =>
    between source start p.span.start ++ name.toList ++ renamed source p.span.stop slots stop

/-- A source in which one function is lowered: its list up to the gap, and its statements. -/
def loweredText (source : List Char) (f : FunctionNode) (names : List String) (gapEnd : Nat)
    (statements : List String) : List Char :=
  between source 0 f.listStart ++
    renamed source f.listStart (f.keptPatterns.zip names) f.gapStart ++
    between source gapEnd (Layout.anchorOf f) ++
    statements.flatMap (·.toList) ++
    between source (Layout.anchorOf f) (byteLength source)

namespace Edit

variable {source : List Char} {start stop : Nat}

theorem Within.tail {e : Edit} {es : List Edit} (h : Within source start stop (e :: es)) :
    Within source e.stop stop es := by
  obtain ⟨hnext, hchain⟩ := List.pairwise_cons.1 h.chain
  refine ⟨hchain, fun d hd => h.inText d (List.mem_cons_of_mem e hd), fun d hd => ?_⟩
  have hbounds := h.bounds d (List.mem_cons_of_mem e hd)
  have hstart := hnext d hd
  omega

theorem wovenText_renames {slots : List (Param × String)} {rest : List Edit}
    (h : Within source start stop (renames slots)) (hstart : isBoundary source start = true)
    (hstop : isBoundary source stop = true) (hle : start ≤ stop)
    (hvalid : ∀ e ∈ rest, InText source e) (hrest : ∀ e ∈ rest, stop ≤ e.start) :
    wovenText source start (renames slots ++ rest) =
      renamed source start slots stop ++ wovenText source stop rest := by
  induction slots generalizing start with
  | nil => exact wovenText_of_le hstart hstop hle hvalid hrest
  | cons slot slots ih =>
    have hbounds := h.bounds _ List.mem_cons_self
    have hboundary := (h.inText _ List.mem_cons_self).stop
    have htail : wovenText source slot.1.span.stop (renames slots ++ rest) =
        renamed source slot.1.span.stop slots stop ++ wovenText source stop rest :=
      ih h.tail hboundary hbounds.2.2
    change between source start slot.1.span.start ++ slot.2.toList ++
      wovenText source slot.1.span.stop (renames slots ++ rest) = _
    rw [htail, renamed]
    simp only [List.append_assoc]

theorem wovenText_tiled {gap rest : List Edit} (h : Tiled source start gap stop) :
    wovenText source start (gap ++ rest) = wovenText source stop rest := by
  induction gap generalizing start with
  | nil => rw [show start = stop from h, List.nil_append]
  | cons e es ih =>
    obtain ⟨rfl, -, -, htext, hes⟩ := h
    rw [List.cons_append, wovenText, between_self, htext, ih hes]
    rfl

theorem wovenText_prologues (anchor : Nat) (rs : List Replacement) :
    wovenText source anchor (prologues anchor rs) =
      rs.flatMap (·.prologue.toList) ++ between source anchor (byteLength source) := by
  induction rs with
  | nil => rfl
  | cons r rs ih =>
    change between source anchor anchor ++ r.prologue.toList ++
      wovenText source anchor (prologues anchor rs) = _
    rw [between_self, ih, List.flatMap_cons, List.nil_append, List.append_assoc]

end Edit

section Pass

variable {σ : Type} {cx : PassContext σ} {f : FunctionNode} {st st' : PassState σ} {o : Outcome}

theorem Lowered.applyAll_eq {names : List String} {gap : List Edit} {gapEnd : Nat}
    {rs : List Replacement} (h : Lowered cx f st st' names gap gapEnd rs)
    (hf : f.Placed cx.source) (hanchor : isBoundary cx.source (Layout.anchorOf f) = true) :
    Edit.applyAll cx.source (Outcome.ofReplacements (Layout.anchorOf f) rs).edits =
      .ok (loweredText cx.source f names gapEnd (rs.map (·.prologue))) := by
  have hconfined := h.confined hf hanchor
  have horder := h.inOrder hf
  obtain ⟨hlist, -⟩ := hf.listStart_cases
  obtain ⟨hgap, hkept, -⟩ := hf.gapStart_cases
  have hlt := hf.brace_lt_anchor
  have hle := h.beforeBody
  have hmem : ∀ e ∈ Edit.renames (f.keptPatterns.zip names) ++ gap ++
      Edit.prologues (Layout.anchorOf f) rs,
      Edit.InText cx.source e ∧ f.listStart ≤ e.start := by
    intro e he
    rw [← horder] at he
    replace he := (Edit.inOrder_perm _).mem_iff.1 he
    exact ⟨hconfined.inText e he, (hconfined.bounds e he).1⟩
  have hprologues : ∀ e ∈ Edit.prologues (Layout.anchorOf f) rs, Layout.anchorOf f ≤ e.start := by
    intro e he
    obtain ⟨r, -, rfl⟩ := List.mem_map.1 he
    exact Nat.le_refl _
  have hbehind : ∀ e ∈ gap ++ Edit.prologues (Layout.anchorOf f) rs, f.gapStart ≤ e.start := by
    intro e he
    rcases List.mem_append.1 he with he | he
    · exact (h.tiled.bounds he).1
    · have hgapLe := h.tiled.le
      have hanchorLe := hprologues e he
      omega
  rw [Edit.applyAll_eq hconfined.inText hconfined.separate, horder,
    Edit.wovenText_of_le (isBoundary_zero _) hlist (Nat.zero_le _) (fun e he => (hmem e he).1)
      (fun e he => (hmem e he).2), List.append_assoc,
    Edit.wovenText_renames (hf.renames_within h.slots_eq) hlist hgap hkept
      (fun e he => (hmem e (by rw [List.append_assoc]; exact List.mem_append_right _ he)).1) hbehind,
    Edit.wovenText_tiled h.tiled,
    Edit.wovenText_of_le h.boundary hanchor (by omega)
      (fun e he => (hmem e (List.mem_append_right _ he)).1) hprologues,
    Edit.wovenText_prologues, loweredText, List.flatMap_map]
  simp only [List.append_assoc]

/-- What lowering one function makes of the source: everything before the list, the kept elements
with one new name for each pattern, then one gap up to the end of the list, and at the anchor one
statement for each replaced element in order. -/
theorem lowerFunction_text {options : LoweringOptions} {source : List Char} {f : FunctionNode}
    {st st' : PassState Unit} {o : Outcome} (hf : f.InText source) (hmodern : f.isModern = true)
    (h : Succeeds (lowerFunction (Run.passContext options source) f) st o st') :
    ∃ names gapEnd statements, names.length = f.keptPatterns.length ∧
      NameSet.Drawn options.stem st.names st'.names names ∧
      f.GapEnd source gapEnd ∧ (f.gapStart ≤ gapEnd ∧ gapEnd ≤ f.body.span.start) ∧
      List.Forall₂ (Declares (Run.passContext options source) f.params.length (f.indent source)
        st.names) f.replaced statements ∧
      Edit.applyAll source o.edits = .ok (loweredText source f names gapEnd statements) := by
  obtain ⟨layout, hlayout, ⟨hplain, -⟩ | ⟨hoist, rs, hrs, rfl⟩⟩ := lowerFunction_succeeds h
  · rw [hmodern] at hplain
    cases hplain
  · obtain ⟨names, gap, gapEnd, hlowered⟩ := exists_lowered hf.placed hlayout hrs
    obtain ⟨hdrawn, hdeclares⟩ := hlowered.declares (ExtractionContext.extractor_grows _)
    have hstatements : List.Forall₂ (Declares (Run.passContext options source) f.params.length
        (f.indent source) st.names) f.replaced (rs.map (·.prologue)) :=
      List.forall₂_map_right_iff.2 hdeclares
    have htext : Edit.applyAll source (Outcome.ofReplacements (Layout.anchorOf f) rs).edits =
        .ok (loweredText source f names gapEnd (rs.map (·.prologue))) :=
      hlowered.applyAll_eq hf.placed (ofFunction_eq_ok hlayout).2.1
    exact ⟨names, gapEnd, rs.map (·.prologue), hlowered.count, hdrawn, hlowered.endsAt,
      ⟨hlowered.tiled.le, hlowered.beforeBody⟩, hstatements, htext⟩

end Pass

/-- `f({a}, b, [c] = é ,) {` and a `return` on the next line. -/
def sampleSource : List Char := "f(\x7ba\x7d, b, [c] = é ,) \x7b\n  return \x7d".toList

def sampleFunction : FunctionNode where
  id := ⟨0, 0⟩
  name := some "f"
  span := ⟨0, 34⟩
  line := 1
  params := [⟨.object ⟨2, 5⟩ [.mk (.ident "a") (.ident "a" ⟨3, 4⟩) none], ⟨2, 5⟩⟩,
    ⟨.ident "b" ⟨7, 8⟩, ⟨7, 8⟩⟩,
    ⟨.array ⟨10, 13⟩ [.item (.ident "c" ⟨11, 12⟩) none] none, ⟨10, 13⟩⟩]
  defaults := [⟨⟨16, 18⟩, some "é"⟩]
  rest := none
  thisParam := none
  body := ⟨⟨22, 34⟩, some ⟨26, 32⟩⟩

def sampleState : PassState Unit where
  scopes := ⟨[⟨.module, none, []⟩, ⟨.function, some 0, []⟩], [(⟨0, 0⟩, 1)]⟩
  names := { taken := ["f", "a", "b", "c", "é"] }
  warnings := []
  extractor := ()

theorem lowerFunction_text_sample : ∃ o st',
    Succeeds (lowerFunction (Run.passContext {} sampleSource) sampleFunction) sampleState o st' ∧
    ∃ names gapEnd statements, names.length = sampleFunction.keptPatterns.length ∧
      NameSet.Drawn "$D" sampleState.names st'.names names ∧
      sampleFunction.GapEnd sampleSource gapEnd ∧
      (sampleFunction.gapStart ≤ gapEnd ∧ gapEnd ≤ sampleFunction.body.span.start) ∧
      List.Forall₂ (Declares (Run.passContext {} sampleSource) 3
        (sampleFunction.indent sampleSource) sampleState.names) sampleFunction.replaced statements ∧
      Edit.applyAll sampleSource o.edits =
        .ok (loweredText sampleSource sampleFunction names gapEnd statements) := by
  have hf : sampleFunction.InText sampleSource :=
    ⟨by decide, by decide, by decide, by decide, ⟨_, rfl⟩, by decide⟩
  obtain ⟨o, st', h⟩ : ∃ o st',
      Succeeds (lowerFunction (Run.passContext {} sampleSource) sampleFunction) sampleState o st' :=
    exists_succeeds (by decide +kernel)
  exact ⟨o, st', h, lowerFunction_text hf rfl h⟩

example : (((lowerFunction (Run.passContext {} sampleSource) sampleFunction).run.run
      sampleState).1.toOption.bind fun o => (Edit.applyAll sampleSource o.edits).toOption) =
    some ("f($D0, b) \x7b\n  var a = arguments[0].a;\n  var $D1 = arguments[2] !== void 0 ? " ++
      "arguments[2] : é, c = $D1[0];$D1 = null;\n  return \x7d").toList := by decide +kernel

end ParamLowering
