import ParamLowering.Proofs.Gap
set_option autoImplicit false

/-!
The edits of one function: what happens to its list, in order, and then the statements at the
start of its body.
-/

namespace ParamLowering

namespace Edit

variable {source : List Char}

/-- Non-empty ranges in order, between two offsets. -/
structure Within (source : List Char) (start stop : Nat) (edits : List Edit) : Prop where
  chain : Chain edits
  inText : ∀ e ∈ edits, InText source e
  bounds : ∀ e ∈ edits, start ≤ e.start ∧ e.start < e.stop ∧ e.stop ≤ stop

/-- Edits that can be applied together, between two offsets. -/
structure Confined (source : List Char) (start stop : Nat) (edits : List Edit) : Prop where
  inText : ∀ e ∈ edits, InText source e
  bounds : ∀ e ∈ edits, start ≤ e.start ∧ e.stop ≤ stop
  separate : edits.Pairwise Separate

theorem Tiled.within {start stop : Nat} {edits : List Edit} (h : Tiled source start edits stop)
    (hstart : Text.isBoundary source start = true) : Within source start stop edits :=
  ⟨h.chain, h.inText hstart, fun _ => h.bounds⟩

theorem Within.append {a b c : Nat} {xs ys : List Edit} (hx : Within source a b xs)
    (hy : Within source b c ys) (hab : a ≤ b) (hbc : b ≤ c) : Within source a c (xs ++ ys) where
  chain := by
    refine List.pairwise_append.2 ⟨hx.chain, hy.chain, fun x hxs y hys => ?_⟩
    have := hx.bounds x hxs
    have := hy.bounds y hys
    omega
  inText := by
    intro e he
    exact (List.mem_append.1 he).elim (hx.inText e) (hy.inText e)
  bounds := by
    intro e he
    rcases List.mem_append.1 he with he | he
    · have := hx.bounds e he
      omega
    · have := hy.bounds e he
      omega

end Edit

namespace FunctionNode.Placed

variable {f : FunctionNode} {source : List Char}

theorem keptPatterns_sublist (f : FunctionNode) :
    (f.keptPatterns.map (·.span)).Sublist f.keptSpans :=
  (List.filter_sublist.map _).trans (List.sublist_append_right _ _)

theorem keptSpans_sublist (f : FunctionNode) : f.keptSpans.Sublist f.elements := by
  rw [elements_eq]
  exact List.sublist_append_left _ _

/-- Nothing kept reaches into the gap. -/
theorem stop_le_gapStart (h : f.Placed source) {s : Span} (hs : s ∈ f.keptSpans) :
    s.stop ≤ f.gapStart := by
  have horder := h.inOrder.sublist (keptSpans_sublist f)
  have hend := f.keptEnd?_eq
  rw [gapStart]
  rcases List.eq_nil_or_concat f.keptSpans with hnil | ⟨pre, last, hkept⟩
  · rw [hnil] at hs
    cases hs
  · rw [List.concat_eq_append] at hkept
    have hlast := h.nonempty last ((keptSpans_sublist f).mem (by rw [hkept]; simp))
    rw [hkept] at hs horder hend
    rw [hend, List.getLast?_concat]
    change s.stop ≤ last.stop
    rcases List.mem_append.1 hs with hs | hs
    · have hle := (List.pairwise_append.1 horder).2.2 s hs last (by simp)
      omega
    · rw [List.mem_singleton.1 hs]

/-- Names stand where the kept patterns stood. -/
theorem renames_within (h : f.Placed source) {slots : List (Param × String)}
    (hslots : slots.map (·.1) = f.keptPatterns) :
    Edit.Within source f.listStart f.gapStart (Edit.renames slots) := by
  have hsub : (slots.map (·.1.span)).Sublist f.keptSpans := by
    have hpatterns := keptPatterns_sublist f
    rwa [← hslots, List.map_map] at hpatterns
  have hmem : ∀ slot ∈ slots, slot.1.span ∈ f.keptSpans := fun slot hslot =>
    hsub.mem (List.mem_map.2 ⟨slot, hslot, rfl⟩)
  have helement : ∀ slot ∈ slots, slot.1.span ∈ f.elements := fun slot hslot =>
    (keptSpans_sublist f).mem (hmem slot hslot)
  refine ⟨?_, ?_, ?_⟩
  · have hpair := List.pairwise_map.1 (h.inOrder.sublist (hsub.trans (keptSpans_sublist f)))
    exact List.pairwise_map.2 hpair
  · intro e he
    obtain ⟨slot, hslot, rfl⟩ := List.mem_map.1 he
    obtain ⟨hstart, hstop⟩ := h.boundaries _ (helement slot hslot)
    exact ⟨Nat.le_of_lt (h.nonempty _ (helement slot hslot)), hstart, hstop⟩
  · intro e he
    obtain ⟨slot, hslot, rfl⟩ := List.mem_map.1 he
    exact ⟨h.listStart_le (helement slot hslot), h.nonempty _ (helement slot hslot),
      h.stop_le_gapStart (hmem slot hslot)⟩

end FunctionNode.Placed

/-! ### Order -/

/-- The statements of replacements, put in at one offset. -/
def Edit.prologues (anchor : Nat) (rs : List Replacement) : List Edit :=
  rs.map fun r => Edit.insertAt anchor r.prologue .prologue

theorem Edit.inOrder_replacements {anchor : Nat} {rs : List Replacement}
    (hchain : Chain (rs.map (·.removal)))
    (hbounds : ∀ r ∈ rs, r.removal.start < r.removal.stop ∧ r.removal.stop ≤ anchor) :
    inOrder (rs.flatMap (·.edits anchor)) = rs.map (·.removal) ++ prologues anchor rs := by
  induction rs with
  | nil => rfl
  | cons r rs ih =>
    obtain ⟨hr, hrs⟩ := List.pairwise_cons.1 hchain
    obtain ⟨⟨hlt, hle⟩, hbounds'⟩ := List.forall_mem_cons.1 hbounds
    change Sorting.insert _ (Edit.insertAt anchor r.prologue .prologue)
      (Sorting.insert _ r.removal (inOrder (rs.flatMap (·.edits anchor)))) = _
    rw [ih hrs hbounds']
    -- the removal goes to the front, the statement behind all removals
    have hremoval : ∀ e ∈ (rs.map (·.removal) ++ prologues anchor rs).head?,
        r.removal.span.precedes e.span = true := by
      intro e he
      have hstart : r.removal.stop ≤ e.start := by
        rcases List.mem_append.1 (List.mem_of_head? he) with he | he
        · exact hr e he
        · obtain ⟨q, -, rfl⟩ := List.mem_map.1 he
          exact hle
      exact Span.precedes_iff.2 (.inl (show r.removal.start < e.start by omega))
    have hbehind : ∀ e ∈ (r :: rs).map (·.removal),
        (Edit.insertAt anchor r.prologue .prologue).span.precedes e.span = false := by
      intro e he
      obtain ⟨q, hq, rfl⟩ := List.mem_map.1 he
      obtain ⟨hlt, hle⟩ := hbounds q hq
      refine eq_false_of_ne_true fun h => ?_
      have hcases := Span.precedes_iff.1 h
      simp only [span, insertAt] at hcases
      omega
    have hprologue : ∀ e ∈ (prologues anchor rs).head?,
        (Edit.insertAt anchor r.prologue .prologue).span.precedes e.span = true := by
      intro e he
      obtain ⟨q, -, rfl⟩ := List.mem_map.1 (List.mem_of_head? he)
      exact Span.precedes_iff.2 (.inr ⟨rfl, Nat.le_refl _⟩)
    have hfront : Sorting.insert (fun a b => a.span.precedes b.span) r.removal
        (rs.map (·.removal) ++ prologues anchor rs) =
          (r :: rs).map (·.removal) ++ prologues anchor rs := Sorting.insert_of_le hremoval
    have hback : Sorting.insert (fun a b => a.span.precedes b.span)
        (Edit.insertAt anchor r.prologue .prologue) (prologues anchor rs) =
          prologues anchor (r :: rs) := Sorting.insert_of_le hprologue
    rw [hfront, Sorting.insert_append hbehind, hback]

/-! ### Passes over one function -/

section Pass

variable {σ : Type} {cx : PassContext σ} {f : FunctionNode} {st st' : PassState σ} {o : Outcome}

theorem lowerFunction_succeeds (h : Succeeds (lowerFunction cx f) st o st') :
    ∃ layout, Layout.ofFunction f cx.source = .ok layout ∧
      ((f.isModern = false ∧ o = {}) ∨
        ∃ hoist rs, Succeeds (Lower.replacements cx ⟨f, layout, hoist⟩) st rs st' ∧
          o = .ofReplacements (Layout.anchorOf f) rs) := by
  obtain ⟨layout, u, hlayout, h⟩ := Succeeds.bind_iff.1 h
  obtain ⟨hok, rfl⟩ := Succeeds.ofExcept_iff.1 hlayout
  refine ⟨layout, hok, ?_⟩
  cases hmodern : f.isModern with
  | false =>
    rw [if_pos (by simp [hmodern])] at h
    exact .inl ⟨rfl, (Succeeds.pure_iff.1 h).1.symm⟩
  | true =>
    rw [if_neg (by simp [hmodern])] at h
    obtain ⟨a, v, hget, h⟩ := Succeeds.bind_iff.1 h
    obtain ⟨rfl, rfl⟩ := Succeeds.get_iff.1 hget
    have hanchor : layout.anchor = Layout.anchorOf f := by
      obtain ⟨-, -, -, rfl⟩ := ofFunction_eq_ok hok
      rfl
    split at h
    · exact absurd h (by simp)
    · rename_i scope hscope
      obtain ⟨rs, w, hrs, h⟩ := Succeeds.bind_iff.1 h
      obtain ⟨rfl, rfl⟩ := Succeeds.pure_iff.1 h
      exact .inr ⟨_, rs, hrs, by rw [hanchor]⟩

/-- What a pass does to a function with replacements: names for the kept patterns, deletions
that tile the gap, and a statement for each replaced element. -/
structure Lowered (cx : PassContext σ) (f : FunctionNode) (st st' : PassState σ)
    (names : List String) (gap : List Edit) (gapEnd : Nat) (rs : List Replacement) : Prop where
  count : names.length = f.keptPatterns.length
  endsAt : f.GapEnd cx.source gapEnd
  tiled : Edit.Tiled cx.source f.gapStart gap gapEnd
  boundary : Text.isBoundary cx.source gapEnd = true
  beforeBody : gapEnd ≤ f.body.span.start
  removals : rs.map (·.removal) = Edit.renames (f.keptPatterns.zip names) ++ gap
  declares : cx.extractor.Grows → NameSet.Drawn cx.options.stem st.names st'.names names ∧
    List.Forall₂ (fun el r =>
      Declares cx f.params.length (f.indent cx.source) st.names el r.prologue) f.replaced rs

theorem exists_lowered (hf : f.Placed cx.source) {layout : Layout} {hoist : ScopeId}
    (hlayout : Layout.ofFunction f cx.source = .ok layout) {rs : List Replacement}
    (h : Succeeds (Lower.replacements cx ⟨f, layout, hoist⟩) st rs st') :
    ∃ names gap gapEnd, Lowered cx f st st' names gap gapEnd rs := by
  obtain ⟨hcount, -, -, heq⟩ := ofFunction_eq_ok hlayout
  obtain ⟨names, hnames, hremovals, hdeclares⟩ :=
    Lower.replacements_succeeds hcount (by rw [heq])
      (fun d hd => Nat.le_of_lt (hf.default_stop_lt hd)) h
  obtain ⟨gapEnd, hgapEnd, htiled, hboundary, hle⟩ :=
    Subject.gap_tiled (s := ⟨f, layout, hoist⟩) hf hlayout
  refine ⟨names, _, gapEnd, hnames, hgapEnd, htiled, hboundary, hle, hremovals, ?_⟩
  intro hgrows
  obtain ⟨hdrawn, hall⟩ := hdeclares hgrows
  exact ⟨hdrawn, by rw [heq] at hall; exact hall⟩

namespace Lowered

variable {names : List String} {gap : List Edit} {gapEnd : Nat} {rs : List Replacement}

theorem slots_eq (h : Lowered cx f st st' names gap gapEnd rs) :
    (f.keptPatterns.zip names).map (·.1) = f.keptPatterns :=
  List.map_fst_zip (Nat.le_of_eq h.count.symm)

theorem within (h : Lowered cx f st st' names gap gapEnd rs) (hf : f.Placed cx.source) :
    Edit.Within cx.source f.listStart gapEnd (rs.map (·.removal)) := by
  obtain ⟨hstart, hle, -⟩ := hf.gapStart_cases
  rw [h.removals]
  exact (hf.renames_within h.slots_eq).append (h.tiled.within hstart) hle h.tiled.le

theorem inOrder (h : Lowered cx f st st' names gap gapEnd rs) (hf : f.Placed cx.source) :
    Edit.inOrder (Outcome.ofReplacements (Layout.anchorOf f) rs).edits =
      Edit.renames (f.keptPatterns.zip names) ++ gap ++ Edit.prologues (Layout.anchorOf f) rs := by
  have hwithin := h.within hf
  rw [← h.removals]
  refine Edit.inOrder_replacements hwithin.chain fun r hr => ?_
  have hbounds := hwithin.bounds _ (List.mem_map_of_mem (f := (·.removal)) hr)
  have hanchor := hf.brace_lt_anchor
  have hle := h.beforeBody
  exact ⟨hbounds.2.1, by omega⟩

/-- The edits of a function lie between its list and its anchor. -/
theorem confined (h : Lowered cx f st st' names gap gapEnd rs) (hf : f.Placed cx.source)
    (hanchor : Text.isBoundary cx.source (Layout.anchorOf f) = true) :
    Edit.Confined cx.source f.listStart (Layout.anchorOf f)
      (Outcome.ofReplacements (Layout.anchorOf f) rs).edits := by
  have hwithin := h.within hf
  have hlt := hf.brace_lt_anchor
  have hle := h.beforeBody
  obtain ⟨-, hstart⟩ := hf.listStart_cases
  have horder := h.inOrder hf
  rw [← h.removals] at horder
  have hplaces : ∀ e ∈ (Outcome.ofReplacements (Layout.anchorOf f) rs).edits,
      Edit.InText cx.source e ∧ f.listStart ≤ e.start ∧ e.stop ≤ Layout.anchorOf f := by
    intro e he
    replace he := (Edit.inOrder_perm _).mem_iff.2 he
    rw [horder] at he
    rcases List.mem_append.1 he with he | he
    · have hbounds := hwithin.bounds e he
      exact ⟨hwithin.inText e he, hbounds.1, by omega⟩
    · obtain ⟨r, -, rfl⟩ := List.mem_map.1 he
      refine ⟨⟨Nat.le_refl _, hanchor, hanchor⟩, ?_, Nat.le_refl _⟩
      change f.listStart ≤ Layout.anchorOf f
      omega
  refine ⟨fun e he => (hplaces e he).1, fun e he => (hplaces e he).2,
    (Edit.chain_inOrder_iff fun e he => (hplaces e he).1.inOrder).1 ?_⟩
  rw [horder]
  refine List.pairwise_append.2 ⟨hwithin.chain, ?_, ?_⟩
  · exact List.pairwise_map.2 (List.pairwise_of_forall fun _ _ => Nat.le_refl _)
  · intro a ha b hb
    obtain ⟨r, -, rfl⟩ := List.mem_map.1 hb
    have hbounds := hwithin.bounds a ha
    change a.stop ≤ Layout.anchorOf f
    omega

end Lowered

theorem lowerFunction_confined (hf : f.Placed cx.source)
    (h : Succeeds (lowerFunction cx f) st o st') :
    Edit.Confined cx.source f.listStart (Layout.anchorOf f) o.edits := by
  obtain ⟨layout, hlayout, ⟨-, rfl⟩ | ⟨hoist, rs, hrs, rfl⟩⟩ := lowerFunction_succeeds h
  · exact ⟨by simp, by simp, List.Pairwise.nil⟩
  · obtain ⟨names, gap, gapEnd, hlowered⟩ := exists_lowered hf hlayout hrs
    exact hlowered.confined hf (ofFunction_eq_ok hlayout).2.1

end Pass

end ParamLowering
