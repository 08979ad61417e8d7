import ParamLowering.Proofs.Merge
import ParamLowering.Proofs.Replacement
set_option autoImplicit false

/-!
The gap in a parameter list.

The removals of one list come from three places, each with its own idea of the element before.
In a list as a parser finds it they lie side by side, from the last kept element on.
-/

namespace ParamLowering

namespace FunctionNode

/-! ### Elements of a list -/

/-- The elements that keep their slots. -/
def keptSpans (f : FunctionNode) : List Span := f.thisParam.toList ++ f.kept.map (·.span)

/-- The elements after them. -/
def laterSpans (f : FunctionNode) : List Span :=
  f.dropped.map (·.span) ++ f.defaulted.flatMap (fun d => [d.1.span, d.2.span]) ++
    (f.rest.map (·.span)).toList

variable {f : FunctionNode}

theorem elements_eq (f : FunctionNode) : f.elements = f.keptSpans ++ f.laterSpans := by
  rw [elements, ← kept_append_dropped, keptSpans, laterSpans, List.map_append]
  simp only [List.append_assoc]

theorem keptEnd?_eq (f : FunctionNode) : f.keptEnd? = f.keptSpans.getLast?.map (·.stop) := by
  rw [keptEnd?, keptSpans, List.getLast?_append, List.getLast?_map, Option.map_or, Option.map_map]
  cases f.thisParam <;> rfl

theorem mem_removed {r : Span} : r ∈ f.removed ↔ (∃ p ∈ f.dropped, p.span = r) ∨
    (∃ d ∈ f.defaulted, ⟨d.1.span.start, d.2.span.stop⟩ = r) ∨ f.rest.map (·.span) = some r := by
  simp [removed]

theorem mem_elements_of_later {s : Span} (hs : s ∈ f.laterSpans) : s ∈ f.elements := by
  rw [elements_eq]
  exact List.mem_append_right _ hs

theorem span_of_mem_dropped {p : Param} (hp : p ∈ f.dropped) : p.span ∈ f.laterSpans :=
  List.mem_append_left _ (List.mem_append_left _ (List.mem_map_of_mem hp))

theorem spans_of_mem_defaulted {d : Param × DefaultValue} (hd : d ∈ f.defaulted) :
    d.1.span ∈ f.laterSpans ∧ d.2.span ∈ f.laterSpans := by
  have hmem : ∀ s ∈ [d.1.span, d.2.span], s ∈ f.laterSpans := fun s hs =>
    List.mem_append_left _ (List.mem_append_right _ (List.mem_flatMap.2 ⟨d, hd, hs⟩))
  exact ⟨hmem _ (by simp), hmem _ (by simp)⟩

theorem span_of_rest {r : Span} (hr : f.rest.map (·.span) = some r) : r ∈ f.laterSpans :=
  List.mem_append_right _ (by simp [hr])

/-- A removed range goes from the start of one later element to the end of another. -/
theorem exists_laterSpans_of_mem_removed {r : Span} (h : r ∈ f.removed) :
    ∃ a ∈ f.laterSpans, ∃ b ∈ f.laterSpans, a.start = r.start ∧ b.stop = r.stop := by
  rcases mem_removed.1 h with ⟨p, hp, rfl⟩ | ⟨d, hd, rfl⟩ | hrest
  · have hmem := span_of_mem_dropped hp
    exact ⟨p.span, hmem, p.span, hmem, rfl, rfl⟩
  · obtain ⟨hparam, hdefault⟩ := spans_of_mem_defaulted hd
    exact ⟨d.1.span, hparam, d.2.span, hdefault, rfl, rfl⟩
  · have hmem := span_of_rest hrest
    exact ⟨r, hmem, r, hmem, rfl, rfl⟩

theorem head?_removed (f : FunctionNode) :
    f.removed.head?.map (·.start) = f.laterSpans.head?.map (·.start) := by
  rw [removed, laterSpans]
  cases f.dropped with
  | cons p ps => rfl
  | nil => cases f.defaulted <;> rfl

/-- The last removed range ends where the list ends. -/
theorem lastEnd_eq_of_removed (hcount : f.defaults.length ≤ f.params.length) {last : Span}
    (h : f.removed.getLast? = some last) : Layout.lastEnd f = some last.stop := by
  have hparams := params_eq hcount
  have hdefaults := map_snd_defaulted hcount
  rw [removed, List.getLast?_append, List.getLast?_append, List.getLast?_map,
    List.getLast?_map] at h
  rw [Layout.lastEnd, ← hdefaults, List.getLast?_map]
  cases hrest : f.rest with
  | some rest =>
    rw [hrest] at h
    obtain rfl := Option.some.inj h
    rfl
  | none =>
    cases hdefault : f.defaulted.getLast? with
    | some d =>
      rw [hrest, hdefault] at h
      obtain rfl := Option.some.inj h
      rfl
    | none =>
      rw [hrest, hdefault] at h
      obtain ⟨p, hp, rfl⟩ := Option.map_eq_some_iff.1 (show f.dropped.getLast?.map _ = _ from h)
      rw [List.getLast?_eq_none_iff.1 hdefault, ← kept_append_dropped, List.map_nil,
        List.append_nil] at hparams
      rw [hparams, List.getLast?_append, hp]
      rfl

/-- The gap begins behind everything kept, and where the first removed range does if nothing
is kept. -/
theorem gapStart_eq {first : Span} (hfirst : f.removed.head? = some first) :
    f.gapStart = f.keptEnd?.getD first.start := by
  rw [gapStart]
  cases hkept : f.keptEnd? with
  | some stop => rfl
  | none =>
    rw [keptEnd?_eq] at hkept
    have hnil : f.keptSpans = [] := by simpa using hkept
    have hhead := head?_removed f
    rw [hfirst] at hhead
    change f.listStart = first.start
    rw [listStart, elements_eq, hnil, List.nil_append, ← hhead]
    rfl

namespace Placed

variable {source : List Char}

theorem listStart_le (h : f.Placed source) {s : Span} (hs : s ∈ f.elements) :
    f.listStart ≤ s.start := by
  have horder := h.inOrder
  have hne := h.nonempty
  rw [listStart]
  cases helements : f.elements with
  | nil => simp [helements] at hs
  | cons first others =>
    rw [helements] at hs horder hne
    rcases List.mem_cons.1 hs with rfl | hs
    · exact Nat.le_refl _
    · have hstop := (List.pairwise_cons.1 horder).1 s hs
      have hlt := hne first (by simp)
      change first.start ≤ s.start
      omega

theorem isBoundary_brace (h : f.Placed source) :
    Text.isBoundary source f.body.span.start = true := by
  obtain ⟨c, after, hafter, -, -⟩ := h.brace
  obtain ⟨before, hsource, hlength⟩ := Text.from?_eq_some_iff.1 hafter
  exact Text.isBoundary_iff.2 ⟨before, c :: after, hsource, hlength⟩

theorem brace_lt_anchor (h : f.Placed source) : f.body.span.start < Layout.anchorOf f := by
  rw [Layout.anchorOf]
  cases hfirst : f.body.firstStatement with
  | none => exact Nat.lt_succ_self _
  | some first => exact h.statement first hfirst

theorem listStart_cases (h : f.Placed source) :
    Text.isBoundary source f.listStart = true ∧ f.listStart ≤ f.body.span.start := by
  rw [listStart]
  cases helements : f.elements with
  | nil => exact ⟨h.isBoundary_brace, Nat.le_refl _⟩
  | cons first others =>
    have hmem : first ∈ f.elements := by simp [helements]
    have hlt := h.nonempty first hmem
    have hle := h.beforeBody first hmem
    refine ⟨(h.boundaries first hmem).1, ?_⟩
    change first.start ≤ f.body.span.start
    omega

/-- Kept elements come before later ones. -/
theorem kept_le_later (h : f.Placed source) {a b : Span} (ha : a ∈ f.keptSpans)
    (hb : b ∈ f.laterSpans) : a.stop ≤ b.start := by
  have horder := h.inOrder
  rw [elements_eq] at horder
  exact (List.pairwise_append.1 horder).2.2 a ha b hb

theorem later_inOrder (h : f.Placed source) :
    f.laterSpans.Pairwise fun a b => a.stop ≤ b.start := by
  have horder := h.inOrder
  rw [elements_eq] at horder
  exact (List.pairwise_append.1 horder).2.1

theorem default_inOrder (h : f.Placed source) {d : Param × DefaultValue} (hd : d ∈ f.defaulted) :
    d.1.span.stop ≤ d.2.span.start := by
  obtain ⟨hlater, -, -⟩ := List.pairwise_append.1 h.later_inOrder
  obtain ⟨-, hdefaults, -⟩ := List.pairwise_append.1 hlater
  have hpair := (List.pairwise_flatMap.1 hdefaults).1 d hd
  exact (List.pairwise_cons.1 hpair).1 _ (by simp)

theorem default_stop_lt (h : f.Placed source) {d : Param × DefaultValue} (hd : d ∈ f.defaulted) :
    d.1.span.stop < d.2.span.stop :=
  Nat.lt_of_le_of_lt (h.default_inOrder hd)
    (h.nonempty _ (mem_elements_of_later (spans_of_mem_defaulted hd).2))

theorem removed_nonempty (h : f.Placed source) {r : Span} (hr : r ∈ f.removed) :
    r.start < r.stop := by
  rcases mem_removed.1 hr with ⟨p, hp, rfl⟩ | ⟨d, hd, rfl⟩ | hrest
  · exact h.nonempty _ (mem_elements_of_later (span_of_mem_dropped hp))
  · have hparam := h.nonempty d.1.span (mem_elements_of_later (spans_of_mem_defaulted hd).1)
    exact Nat.lt_trans hparam (h.default_stop_lt hd)
  · exact h.nonempty _ (mem_elements_of_later (span_of_rest hrest))

theorem removed_inOrder (h : f.Placed source) :
    f.removed.Pairwise fun a b => a.stop ≤ b.start := by
  obtain ⟨hfront, -, hrest⟩ := List.pairwise_append.1 h.later_inOrder
  obtain ⟨hdropped, hdefaulted, hcross⟩ := List.pairwise_append.1 hfront
  have hmem : ∀ d ∈ f.defaulted, ∀ s ∈ [d.1.span, d.2.span],
      s ∈ f.defaulted.flatMap fun d => [d.1.span, d.2.span] :=
    fun d hd s hs => List.mem_flatMap.2 ⟨d, hd, hs⟩
  refine List.pairwise_append.2 ⟨List.pairwise_append.2 ⟨hdropped, ?_, ?_⟩, ?_, ?_⟩
  · refine List.pairwise_map.2 ((List.pairwise_flatMap.1 hdefaulted).2.imp ?_)
    intro d e hde
    exact hde d.2.span (by simp) e.1.span (by simp)
  · intro a ha b hb
    obtain ⟨d, hd, rfl⟩ := List.mem_map.1 hb
    exact hcross a ha d.1.span (hmem d hd _ (by simp))
  · cases f.rest <;> simp
  · intro a ha b hb
    rcases List.mem_append.1 ha with ha | ha
    · exact hrest a (List.mem_append_left _ ha) b hb
    · obtain ⟨d, hd, rfl⟩ := List.mem_map.1 ha
      exact hrest d.2.span (List.mem_append_right _ (hmem d hd _ (by simp))) b hb

theorem removed_boundaries (h : f.Placed source) {r : Span} (hr : r ∈ f.removed) :
    Text.isBoundary source r.start = true ∧ Text.isBoundary source r.stop = true := by
  obtain ⟨a, ha, b, hb, hstart, hstop⟩ := exists_laterSpans_of_mem_removed hr
  rw [← hstart, ← hstop]
  exact ⟨(h.boundaries a (mem_elements_of_later ha)).1,
    (h.boundaries b (mem_elements_of_later hb)).2⟩

theorem removed_le_brace (h : f.Placed source) {r : Span} (hr : r ∈ f.removed) :
    r.stop ≤ f.body.span.start := by
  obtain ⟨-, -, b, hb, -, hstop⟩ := exists_laterSpans_of_mem_removed hr
  rw [← hstop]
  exact h.beforeBody b (mem_elements_of_later hb)

theorem keptEnd?_le (h : f.Placed source) {stop : Nat} (hstop : f.keptEnd? = some stop)
    {r : Span} (hr : r ∈ f.removed) : stop ≤ r.start := by
  rw [keptEnd?_eq] at hstop
  obtain ⟨s, hs, rfl⟩ := Option.map_eq_some_iff.1 hstop
  obtain ⟨a, ha, -, -, hstart, -⟩ := exists_laterSpans_of_mem_removed hr
  rw [← hstart]
  exact h.kept_le_later (List.mem_of_getLast? hs) ha

theorem gapStart_le (h : f.Placed source) {r : Span} (hr : r ∈ f.removed) :
    f.gapStart ≤ r.start := by
  rw [gapStart]
  cases hkept : f.keptEnd? with
  | some stop => exact h.keptEnd?_le hkept hr
  | none =>
    obtain ⟨a, ha, -, -, hstart, -⟩ := exists_laterSpans_of_mem_removed hr
    rw [← hstart]
    exact h.listStart_le (mem_elements_of_later ha)

theorem gapStart_cases (h : f.Placed source) :
    Text.isBoundary source f.gapStart = true ∧ f.listStart ≤ f.gapStart ∧
      f.gapStart ≤ f.body.span.start := by
  rw [gapStart]
  cases hkept : f.keptEnd? with
  | none =>
    obtain ⟨hboundary, hle⟩ := h.listStart_cases
    exact ⟨hboundary, Nat.le_refl _, hle⟩
  | some stop =>
    rw [keptEnd?_eq] at hkept
    obtain ⟨s, hs, rfl⟩ := Option.map_eq_some_iff.1 hkept
    have hmem : s ∈ f.elements := by
      rw [elements_eq]
      exact List.mem_append_left _ (List.mem_of_getLast? hs)
    have hstart := h.listStart_le hmem
    have hlt := h.nonempty s hmem
    refine ⟨(h.boundaries s hmem).2, ?_, h.beforeBody s hmem⟩
    change f.listStart ≤ s.stop
    omega

end Placed

end FunctionNode

/-! ### Removals side by side -/

/-- Deletions without any text between them, from one offset to another. -/
def Edit.Tiled (source : List Char) : Nat → List Edit → Nat → Prop
  | start, [], stop => start = stop
  | start, e :: es, stop => e.start = start ∧ e.start < e.stop ∧
    Text.isBoundary source e.stop = true ∧ e.text = "" ∧ Tiled source e.stop es stop

namespace Edit.Tiled

variable {source : List Char} {start stop : Nat} {edits : List Edit}

theorem le (h : Tiled source start edits stop) : start ≤ stop := by
  induction edits generalizing start with
  | nil => exact Nat.le_of_eq h
  | cons e es ih =>
    obtain ⟨hstart, hlt, -, -, hes⟩ := h
    have hle := ih hes
    omega

theorem bounds (h : Tiled source start edits stop) {e : Edit} (he : e ∈ edits) :
    start ≤ e.start ∧ e.start < e.stop ∧ e.stop ≤ stop := by
  induction edits generalizing start with
  | nil => cases he
  | cons d ds ih =>
    obtain ⟨hstart, hlt, -, -, hds⟩ := h
    have hle := le hds
    rcases List.mem_cons.1 he with rfl | he
    · omega
    · have hbounds := ih hds he
      omega

theorem chain (h : Tiled source start edits stop) : Chain edits := by
  induction edits generalizing start with
  | nil => exact List.Pairwise.nil
  | cons e es ih =>
    obtain ⟨-, -, -, -, hes⟩ := h
    exact List.pairwise_cons.2 ⟨fun d hd => (bounds hes hd).1, ih hes⟩

theorem inText (h : Tiled source start edits stop) (hstart : Text.isBoundary source start = true) :
    ∀ e ∈ edits, InText source e := by
  induction edits generalizing start with
  | nil => simp
  | cons e es ih =>
    obtain ⟨rfl, hlt, hstop, -, hes⟩ := h
    exact List.forall_mem_cons.2 ⟨⟨Nat.le_of_lt hlt, hstart, hstop⟩, ih hes hstop⟩

end Edit.Tiled

namespace Subject

variable {s : Subject} {source : List Char}

/-- Where a removal up to `stop` ends. -/
def removalEnd (s : Subject) (stop : Nat) : Nat := (s.remove stop stop).stop

theorem remove_eq (s : Subject) (start stop : Nat) :
    s.remove start stop = ⟨start, s.removalEnd stop, "", .removal⟩ := rfl

theorem removalEnd_of_ne {stop : Nat} (h : s.layout.listEnd ≠ some stop) :
    s.removalEnd stop = stop := by
  unfold removalEnd remove
  cases s.layout.trailingComma with
  | none => rfl
  | some comma => exact if_neg h

/-- Ranges in order that end with the list are removed side by side. -/
theorem removesFrom_tiled {spans : List Span} {before : Option Nat} {start : Nat}
    (hstart : ∀ first ∈ spans.head?, before.getD first.start = start)
    (hbefore : ∀ r ∈ spans, start ≤ r.start)
    (hne : ∀ r ∈ spans, r.start < r.stop)
    (hpair : spans.Pairwise fun a b => a.stop ≤ b.start)
    (hboundary : ∀ r ∈ spans, Text.isBoundary source r.stop = true)
    (hlast : ∀ last ∈ spans.getLast?, s.layout.listEnd = some last.stop ∧
      last.stop ≤ s.removalEnd last.stop ∧
      Text.isBoundary source (s.removalEnd last.stop) = true) :
    Edit.Tiled source start (s.removesFrom before spans)
      ((spans.getLast?.map fun last => s.removalEnd last.stop).getD start) := by
  induction spans generalizing before start with
  | nil => rfl
  | cons r rs ih =>
    have hfirst := hstart r rfl
    obtain ⟨hr, hrs⟩ := List.forall_mem_cons.1 hne
    obtain ⟨hrb, hrsb⟩ := List.forall_mem_cons.1 hboundary
    obtain ⟨hnext, hpair'⟩ := List.pairwise_cons.1 hpair
    have hle := hbefore r (by simp)
    rw [removesFrom, hfirst, remove_eq]
    cases rs with
    | nil =>
      obtain ⟨-, hend, hendBoundary⟩ := hlast r rfl
      exact ⟨rfl, by change start < s.removalEnd r.stop; omega, hendBoundary, rfl, rfl⟩
    | cons q qs =>
      have hlast' : ∀ last ∈ (q :: qs).getLast?, s.layout.listEnd = some last.stop ∧
          last.stop ≤ s.removalEnd last.stop ∧
          Text.isBoundary source (s.removalEnd last.stop) = true := fun last h =>
        hlast last (by rwa [List.getLast?_cons_cons])
      -- the list ends after this range
      have hinner : s.removalEnd r.stop = r.stop := by
        refine removalEnd_of_ne fun heq => ?_
        obtain ⟨last, hmem⟩ := Option.isSome_iff_exists.1
          (List.getLast?_isSome.2 (List.cons_ne_nil q qs))
        have hend := (hlast' last hmem).1
        have hlt := hrs last (List.mem_of_getLast? hmem)
        have hnext' := hnext last (List.mem_of_getLast? hmem)
        rw [hend, Option.some.injEq] at heq
        omega
      have hfirst' : ∀ first ∈ (q :: qs).head?, (some r.stop).getD first.start = r.stop :=
        fun _ _ => rfl
      have htail := ih hfirst' hnext hrs hpair' hrsb hlast'
      have hend : (((r :: q :: qs).getLast?.map fun last => s.removalEnd last.stop).getD start) =
          ((q :: qs).getLast?.map fun last => s.removalEnd last.stop).getD r.stop := by
        rw [List.getLast?_cons_cons, List.getLast?_cons]
        rfl
      rw [hinner, hend]
      exact ⟨rfl, by change start < r.stop; omega, hrb, rfl, htail⟩

theorem removalEnd_eq (hlayout : Layout.ofFunction s.function source = .ok s.layout) {stop : Nat}
    (hend : Layout.lastEnd s.function = some stop) :
    s.removalEnd stop = ((Layout.commaAfter source stop).map (·.stop)).getD stop := by
  obtain ⟨-, -, -, heq⟩ := ofFunction_eq_ok hlayout
  have hcomma : s.layout.trailingComma = Layout.commaAfter source stop := by
    rw [heq]
    change (Layout.lastEnd s.function).bind _ = _
    rw [hend]
    rfl
  have hlist : s.layout.listEnd = some stop := by rw [heq]; exact hend
  unfold removalEnd remove
  rw [hcomma]
  cases Layout.commaAfter source stop with
  | none => rfl
  | some comma => exact if_pos hlist

/-- A removal up to the end of the list takes the comma after it, if one is there. -/
theorem removalEnd_cases (hlayout : Layout.ofFunction s.function source = .ok s.layout) {stop : Nat}
    (hend : Layout.lastEnd s.function = some stop) :
    CommaAfter source stop (s.removalEnd stop) ∨
      (s.removalEnd stop = stop ∧ ∀ n, ¬ CommaAfter source stop n) := by
  rw [removalEnd_eq hlayout hend]
  cases hcomma : Layout.commaAfter source stop with
  | none => exact .inr ⟨rfl, commaAfter_eq_none hcomma⟩
  | some comma => exact .inl (commaAfter_eq_some hcomma)

theorem removalEnd_bounds (h : s.function.Placed source)
    (hlayout : Layout.ofFunction s.function source = .ok s.layout) {last : Span}
    (hlast : s.function.removed.getLast? = some last) :
    last.stop ≤ s.removalEnd last.stop ∧
      Text.isBoundary source (s.removalEnd last.stop) = true ∧
      s.removalEnd last.stop ≤ s.function.body.span.start := by
  obtain ⟨hcount, -, -, -⟩ := ofFunction_eq_ok hlayout
  have hmem := List.mem_of_getLast? hlast
  have hbrace := h.removed_le_brace hmem
  rcases removalEnd_cases hlayout (FunctionNode.lastEnd_eq_of_removed hcount hlast) with
    hcomma | ⟨heq, -⟩
  · obtain ⟨c, after, hafter, hblank, hc⟩ := h.brace
    exact ⟨Nat.le_of_lt hcomma.lt, hcomma.isBoundary, hcomma.le_brace hbrace hafter hblank hc⟩
  · rw [heq]
    exact ⟨Nat.le_refl _, (h.removed_boundaries hmem).2, hbrace⟩

/-- The removals of a function tile its gap. -/
theorem gap_tiled (h : s.function.Placed source)
    (hlayout : Layout.ofFunction s.function source = .ok s.layout) :
    ∃ stop, s.function.GapEnd source stop ∧
      Edit.Tiled source s.function.gapStart
        (s.removesFrom s.function.keptEnd? s.function.removed) stop ∧
      Text.isBoundary source stop = true ∧ stop ≤ s.function.body.span.start := by
  obtain ⟨hcount, -, -, heq⟩ := ofFunction_eq_ok hlayout
  cases hremoved : s.function.removed.getLast? with
  | none =>
    obtain ⟨hstart, -, hbrace⟩ := h.gapStart_cases
    refine ⟨s.function.gapStart, ?_, ?_, hstart, hbrace⟩
    · rw [FunctionNode.GapEnd, hremoved]
    · rw [List.getLast?_eq_none_iff.1 hremoved]
      rfl
  | some last =>
    have hend := FunctionNode.lastEnd_eq_of_removed hcount hremoved
    obtain ⟨hle, hboundary, hbrace⟩ := removalEnd_bounds h hlayout hremoved
    have htiled : Edit.Tiled source s.function.gapStart
        (s.removesFrom s.function.keptEnd? s.function.removed)
        ((s.function.removed.getLast?.map fun r => s.removalEnd r.stop).getD
          s.function.gapStart) := by
      refine removesFrom_tiled (fun first hfirst => (FunctionNode.gapStart_eq hfirst).symm)
        (fun r => h.gapStart_le) (fun r => h.removed_nonempty) h.removed_inOrder
        (fun r hr => (h.removed_boundaries hr).2) fun r hr => ?_
      rw [hremoved] at hr
      obtain rfl := Option.some.inj hr
      exact ⟨by rw [heq]; exact hend, hle, hboundary⟩
    refine ⟨s.removalEnd last.stop, ?_, ?_, hboundary, hbrace⟩
    · rw [FunctionNode.GapEnd, hremoved]
      exact removalEnd_cases hlayout hend
    · rw [hremoved] at htiled
      exact htiled

end Subject

end ParamLowering
