import ParamLowering.Proofs.Calls
import ParamLowering.Proofs.NameHistory
set_option autoImplicit false

/-!
What the bindings of an extraction read.

A binding reads the source expression or a temporary that is bound before it, and a definition
reads a temporary. Extractions that share their names, some of which may fail, never bind the same
temporary twice.
-/

namespace ParamLowering

/-- The text that an initializer takes its value from. -/
def Initializer.base : Initializer → String
  | whole text => text
  | read base _ => base
  | guarded temporary _ => temporary
  | tail base _ => base

/-- A reference may be read anywhere. A compound expression is evaluated once, before all else. -/
def SourceExpr.ReadBy (source : SourceExpr) (before : List Binding) (init : Initializer) : Prop :=
  match source with
  | reference text => init.base = text
  | compound text => before = [] ∧ init = .whole text

/-- Each binding reads the source or a temporary that some binding before it holds. -/
def Binding.ReadInOrder (source : SourceExpr) (bs : List Binding) : Prop :=
  ∀ before b behind, bs = before ++ b :: behind →
    source.ReadBy before b.init ∨ ∃ t ∈ before, t.generated = true ∧ t.name = b.init.base

/-- Values flow from the source into temporaries and from there on; just the temporaries are set
to `null` again. -/
structure Extraction.Flows (x : Extraction) (source : SourceExpr) : Prop where
  cleanup : ∀ b ∈ x.bindings, b.needsCleanup = b.generated
  bindings : Binding.ReadInOrder source x.bindings
  definitions : ∀ d ∈ x.definitions, ∃ t ∈ x.bindings, t.generated = true ∧ t.name = d.temporary

/-! ### One binding more -/

theorem Binding.ReadInOrder.concat {source : SourceExpr} {bs : List Binding} {b : Binding}
    (h : ReadInOrder source bs)
    (hb : source.ReadBy bs b.init ∨ ∃ t ∈ bs, t.generated = true ∧ t.name = b.init.base) :
    ReadInOrder source (bs ++ [b]) := by
  intro before c behind heq
  rcases List.eq_nil_or_concat behind with rfl | ⟨behind, last, rfl⟩
  · obtain ⟨rfl, hcb⟩ := List.append_inj' heq rfl
    rw [← (List.cons.inj hcb).1]
    exact hb
  · rw [List.concat_eq_append, ← List.cons_append, ← List.append_assoc] at heq
    exact h before c behind (List.append_inj' heq rfl).1

namespace Extraction

theorem mem_temporaries {x : Extraction} {name : String} :
    name ∈ x.temporaries ↔ ∃ t ∈ x.bindings, t.generated = true ∧ t.name = name := by
  simp [temporaries, and_assoc]

/-- An extraction under way. What waits reads temporaries. -/
structure Flowing (x : Extraction) (source : SourceExpr) : Prop where
  simple : x.Simple
  cleanup : ∀ b ∈ x.ordered, b.needsCleanup = b.generated
  ordered : Binding.ReadInOrder source x.ordered
  definitions : ∀ d ∈ x.definitions, d.temporary ∈ x.temporaries

theorem flowing_empty (source : SourceExpr) : ({} : Extraction).Flowing source where
  simple := simple_bindings []
  cleanup := by simp [ordered_bindings]
  ordered := by
    intro before b behind heq
    cases before <;> cases heq
  definitions := by simp

variable {x : Extraction} {source : SourceExpr}

theorem exists_ordered_of_mem {name : String} (h : name ∈ x.temporaries) :
    ∃ t ∈ x.ordered, t.generated = true ∧ t.name = name := by
  obtain ⟨t, ht, hname⟩ := mem_temporaries.1 h
  exact ⟨t, List.mem_append_left _ ht, hname⟩

theorem Flowing.bind (h : x.Flowing source) {b : Binding}
    (hb : source.ReadBy x.ordered b.init ∨ b.init.base ∈ x.temporaries)
    (hcleanup : b.needsCleanup = b.generated) :
    Flowing { bindings := x.ordered ++ [b], definitions := [] } source where
  simple := simple_bindings _
  cleanup := by
    intro c hc
    rw [ordered_bindings] at hc
    rcases List.mem_append.1 hc with hc | hc
    · exact h.cleanup c hc
    · rw [List.mem_singleton.1 hc]; exact hcleanup
  ordered := by
    rw [ordered_bindings]
    exact h.ordered.concat (hb.imp_right exists_ordered_of_mem)
  definitions := by simp

theorem Flowing.defer (h : x.Flowing source) (name : String) (span : Span) {base : String}
    (hbase : base ∈ x.temporaries) (accessor : Accessor) :
    Flowing (x.defer ⟨.ident name span, base, accessor⟩) source where
  simple := simple_defer h.simple _ _ _ _
  cleanup := by
    intro c hc
    rw [ordered_defer] at hc
    rcases List.mem_append.1 hc with hc | hc
    · exact h.cleanup c hc
    · rw [List.mem_singleton.1 hc]
  ordered := by
    rw [ordered_defer]
    exact h.ordered.concat (.inr (exists_ordered_of_mem hbase))
  definitions := by
    intro d hd
    rcases List.mem_append.1 hd with hd | hd
    · exact h.definitions d hd
    · rw [List.mem_singleton.1 hd]; exact hbase

theorem Flowing.flows (h : x.Flowing source) : x.Flows source where
  cleanup b hb := h.cleanup b (List.mem_append_left _ hb)
  bindings := by
    intro before b behind heq
    refine h.ordered before b (behind ++ x.definitions.filterMap (·.binding?)) ?_
    rw [Extraction.ordered, heq, List.append_assoc, List.cons_append]
  definitions d hd := mem_temporaries.1 (h.definitions d hd)

end Extraction

/-! ### Steps of extraction -/

namespace Extracting

variable {α β : Type} {source : SourceExpr} {temps : List String}

/-- With some temporaries bound, a step that succeeds keeps them and the flow of values. -/
def Flows (source : SourceExpr) (temps : List String) (m : Extracting α) : Prop :=
  ∀ s a t, s.out.Flowing source → temps ⊆ s.out.temporaries → Succeeds m s a t →
    t.out.Flowing source ∧ s.out.temporaries ⊆ t.out.temporaries

/-- The text may be read again and again: it is the source or a temporary. -/
def Readable (source : SourceExpr) (temps : List String) (base : String) : Prop :=
  base ∈ temps ∨ source = .reference base

theorem Readable.mono {temps' : List String} {base : String} (h : Readable source temps base)
    (hsub : temps ⊆ temps') : Readable source temps' base := h.imp_left (hsub ·)

theorem Readable.readBy {init : Initializer} (h : Readable source temps init.base)
    (before : List Binding) : source.ReadBy before init ∨ init.base ∈ temps := by
  rcases h with h | rfl
  · exact .inr h
  · exact .inl rfl

theorem flows_pure (a : α) : Flows source temps (pure a : Extracting α) := by
  intro s b t hs _ hrun
  obtain ⟨-, rfl⟩ := Succeeds.pure_iff.1 hrun
  exact ⟨hs, List.Subset.refl _⟩

theorem flows_seq {m : Extracting α} {f : α → Extracting β} (hm : Flows source temps m)
    (hf : ∀ a, Flows source temps (f a)) : Flows source temps (m >>= f) := by
  intro s b u hs htemps hrun
  obtain ⟨a, t, hfirst, hsecond⟩ := Succeeds.bind_iff.1 hrun
  obtain ⟨ht, hgrows⟩ := hm s a t hs htemps hfirst
  obtain ⟨hu, hgrows'⟩ := hf a t b u ht (List.Subset.trans htemps hgrows) hsecond
  exact ⟨hu, List.Subset.trans hgrows hgrows'⟩

theorem flows_bind {name : String} {init : Initializer} (hinit : Readable source temps init.base) :
    Flows source temps (Extracting.bind { name, init }) := by
  intro s a t hs htemps hrun
  obtain rfl := (bind_succeeds hs.simple).1 hrun
  refine ⟨hs.bind ((hinit.mono htemps).readBy _) rfl, ?_⟩
  rw [Extraction.temporaries_ordered]
  exact List.subset_append_left _ _

theorem flows_defer {name : String} {span : Span} {base : String} {accessor : Accessor}
    (hbase : base ∈ temps) :
    Flows source temps (Extracting.defer ⟨.ident name span, base, accessor⟩) := by
  intro s a t hs htemps hrun
  obtain rfl := Succeeds.modify_iff.1 hrun
  exact ⟨hs.defer name span (htemps hbase) accessor, List.Subset.refl _⟩

theorem temporary_flowing {stem name : String} {init : Initializer} {s t : ExtractionState}
    (hs : s.out.Flowing source)
    (hinit : source.ReadBy s.out.ordered init ∨ init.base ∈ s.out.temporaries)
    (hrun : Succeeds (Extracting.temporary stem init) s name t) :
    t.out.Flowing source ∧ t.out.temporaries = s.out.temporaries ++ [name] := by
  obtain ⟨hname, rfl⟩ := Prod.mk.inj ((temporary_succeeds hs.simple stem init).symm.trans hrun)
  obtain rfl := Except.ok.inj hname
  exact ⟨hs.bind hinit rfl, Extraction.temporaries_ordered _ _⟩

/-- What follows a new temporary may read it. -/
theorem flows_temporary {stem : String} {init : Initializer} {f : String → Extracting β}
    (hinit : Readable source temps init.base) (hf : ∀ t, Flows source (t :: temps) (f t)) :
    Flows source temps (Extracting.temporary stem init >>= f) := by
  intro s b u hs htemps hrun
  obtain ⟨name, t, hfirst, hsecond⟩ := Succeeds.bind_iff.1 hrun
  obtain ⟨ht, hadded⟩ := temporary_flowing hs ((hinit.mono htemps).readBy _) hfirst
  have hgrows : s.out.temporaries ⊆ t.out.temporaries := by
    rw [hadded]
    exact List.subset_append_left _ _
  have hnew : name ∈ t.out.temporaries := by
    rw [hadded]
    exact List.mem_append_right _ (List.mem_singleton_self name)
  have htemps' : name :: temps ⊆ t.out.temporaries :=
    List.cons_subset.2 ⟨hnew, List.Subset.trans htemps hgrows⟩
  obtain ⟨hu, hgrows'⟩ := hf name t b u ht htemps' hsecond
  exact ⟨hu, List.Subset.trans hgrows hgrows'⟩

end Extracting

namespace ExtractionContext

open Extracting

variable (cx : ExtractionContext) {source : SourceExpr} {temps : List String}

theorem slice_flows (range : Span) : Flows source temps (cx.slice range) := by
  unfold slice
  cases range.textOrError cx.source with
  | ok text => exact flows_pure text
  | error e => exact fun s a t _ _ h => (Succeeds.throw_iff.1 h).elim

theorem accessorOf_flows (key : PropertyKey) : Flows source temps (cx.accessorOf key) := by
  cases key with
  | ident | str | num => exact flows_pure _
  | computed range => exact flows_seq (slice_flows cx range) fun _ => flows_pure _

/-- A pattern inside reads one of two temporaries, by whether it has a default. -/
theorem guarded_flows {t : String} (default : Option Span) {inside : String → Extracting Unit}
    (ht : t ∈ temps) (hinside : ∀ t' temps', t' ∈ temps' → Flows source temps' (inside t')) :
    Flows source temps (cx.guarded t default >>= inside) := by
  cases default with
  | none =>
    rw [guarded, pure_bind]
    exact hinside t temps ht
  | some range =>
    rw [guarded, bind_assoc]
    exact flows_seq (slice_flows cx range) fun text =>
      flows_temporary (.inl ht) fun t' => hinside t' (t' :: temps) List.mem_cons_self

/-- Below the top all is read from a temporary. -/
theorem element_flows {base : String} {top : Bool} (accessor : Accessor) (value : Pattern)
    (default : Option Span) {inside : String → Extracting Unit}
    (hbase : Readable source temps base) (hnested : top = false → base ∈ temps)
    (hinside : ∀ t temps', t ∈ temps' → Flows source temps' (inside t)) :
    Flows source temps (cx.element base top accessor value default inside) := by
  have hpattern : Flows source temps (do
      let t ← Extracting.temporary cx.stem (.read base accessor)
      inside (← cx.guarded t default)) :=
    flows_temporary hbase fun t => guarded_flows cx default List.mem_cons_self hinside
  cases value with
  | object span props => exact hpattern
  | array span elements rest => exact hpattern
  | ident name span =>
    cases default with
    | none =>
      cases top with
      | true => exact flows_bind hbase
      | false => exact flows_defer (hnested rfl)
    | some range =>
      exact flows_seq (slice_flows cx range) fun text =>
        flows_temporary hbase fun t => flows_bind (.inl List.mem_cons_self)

theorem remainder_flows {base : String} (count : Nat) (value : Pattern)
    {inside : String → Extracting Unit} (hbase : Readable source temps base)
    (hinside : ∀ t temps', t ∈ temps' → Flows source temps' (inside t)) :
    Flows source temps (cx.remainder base count value inside) := by
  cases value with
  | ident => exact flows_bind hbase
  | object span props =>
    exact flows_temporary hbase fun t => hinside t (t :: temps) List.mem_cons_self
  | array span elements rest =>
    exact flows_temporary hbase fun t => hinside t (t :: temps) List.mem_cons_self

mutual
theorem parts_flows {base : String} {top : Bool} {temps : List String}
    (hbase : Readable source temps base) (hnested : top = false → base ∈ temps) :
    ∀ p : Pattern, Flows source temps (cx.parts base top p)
  | .ident .. => flows_bind hbase
  | .object _ props => properties_flows hbase hnested props
  | .array _ elements none => items_flows hbase hnested 0 elements
  | .array _ elements (some rest) =>
    flows_seq (items_flows hbase hnested 0 elements) fun _ =>
      remainder_flows cx elements.length rest hbase fun _ _ ht =>
        parts_flows (.inl ht) (fun _ => ht) rest

theorem properties_flows {base : String} {top : Bool} {temps : List String}
    (hbase : Readable source temps base) (hnested : top = false → base ∈ temps) :
    ∀ props : List PatternProperty, Flows source temps (cx.properties base top props)
  | [] => flows_pure ()
  | .mk key value default :: props =>
    flows_seq (accessorOf_flows cx key) fun accessor =>
      flows_seq (element_flows cx accessor value default hbase hnested fun _ _ ht =>
        parts_flows (.inl ht) (fun _ => ht) value) fun _ => properties_flows hbase hnested props

theorem items_flows {base : String} {top : Bool} {temps : List String}
    (hbase : Readable source temps base) (hnested : top = false → base ∈ temps) :
    ∀ (index : Nat) (elements : List PatternElement),
      Flows source temps (cx.items base top index elements)
  | _, [] => flows_pure ()
  | index, .hole :: elements => items_flows hbase hnested (index + 1) elements
  | index, .item value default :: elements =>
    flows_seq (element_flows cx (.index index) value default hbase hnested fun _ _ ht =>
      parts_flows (.inl ht) (fun _ => ht) value) fun _ =>
        items_flows hbase hnested (index + 1) elements
end

theorem extract_flowing (pattern : Pattern) (source : SourceExpr) {s t : ExtractionState}
    {u : Unit} (hs : s.out = {}) (hrun : Succeeds (cx.extract pattern source) s u t) :
    t.out.Flowing source := by
  have hflowing : s.out.Flowing source := by
    rw [hs]
    exact Extraction.flowing_empty source
  obtain ⟨base, s', hbase, hparts⟩ := Succeeds.bind_iff.1 hrun
  cases source with
  | reference text =>
    obtain ⟨rfl, rfl⟩ := Succeeds.pure_iff.1 hbase
    have hreadable : Readable (.reference text) [] text := .inr rfl
    exact (parts_flows cx hreadable (by simp) pattern s u t hflowing (List.nil_subset _) hparts).1
  | compound text =>
    have hfirst : SourceExpr.ReadBy (.compound text) s.out.ordered (.whole text) := by
      rw [hs]
      exact ⟨rfl, rfl⟩
    obtain ⟨hs', hadded⟩ := temporary_flowing hflowing (.inl hfirst) hbase
    have hmem : base ∈ [base] := List.mem_singleton_self base
    refine (parts_flows cx (.inl hmem) (fun _ => hmem) pattern s' u t hs' ?_ hparts).1
    rw [hadded]
    exact List.subset_append_right _ _

end ExtractionContext

/-! ### Extractions that share their names -/

namespace NameSet

variable {stem : String} {s t : NameSet}

theorem History.drawn {names : List String} (h : History stem s (names.map .generated) t) :
    Drawn stem s t names := by
  induction names generalizing s with
  | nil =>
    cases h
    exact .none (List.Subset.refl _)
  | cons name names ih =>
    cases h with
    | generated more => exact (Drawn.one s stem).append (ih more)

/-- Some names are made up one after another, and nothing else is taken on the way. -/
def Allocates (stem : String) (s t : NameSet) (names : List String) : Prop :=
  ∀ earlier name later, names = earlier ++ name :: later → ∃ u,
    History stem s (earlier.map .generated) u ∧ (u.fresh stem).1 = name ∧ name ∉ u.taken ∧
      name ∈ (u.fresh stem).2.taken ∧ History stem (u.fresh stem).2 (later.map .generated) t

theorem History.allocates {names : List String} (h : History stem s (names.map .generated) t) :
    Allocates stem s t names := by
  rintro earlier name later rfl
  rw [List.map_append, List.map_cons] at h
  obtain ⟨u, hearlier, hmore⟩ := h.split
  cases hmore with
  | generated hlater =>
    exact ⟨u, hearlier, rfl, fresh_notMem u stem, List.mem_cons_self, hlater⟩

end NameSet

/-- One use of an extractor. Different ones may have different sources and stems. -/
structure ExtractionCall where
  context : ExtractionContext
  pattern : Pattern
  source : SourceExpr

namespace ExtractionCall

def perform (names : NameSet) (c : ExtractionCall) : Except LoweringError Extraction × NameSet :=
  let r := c.context.extractor.run c.pattern c.source names ()
  (r.1, r.2.1)

/-- The temporaries that an answer shows. -/
def shown : Except LoweringError Extraction → List String
  | .ok x => x.temporaries
  | .error _ => []

theorem perform_flows {names : NameSet} {c : ExtractionCall} {x : Extraction}
    (h : (perform names c).1 = .ok x) : x.Flows c.source := by
  obtain ⟨t, hrun, rfl⟩ := ExtractionContext.succeeds_of_answer h
  exact (c.context.extract_flowing c.pattern c.source rfl hrun).flows

theorem perform_allocates {names : NameSet} {c : ExtractionCall} {x : Extraction}
    (h : (perform names c).1 = .ok x) :
    NameSet.Allocates c.context.stem names (perform names c).2 x.temporaries := by
  obtain ⟨drawn, hhistory, hanswer⟩ :=
    c.context.extractor_records c.pattern c.source names ()
  rw [hanswer x h]
  exact hhistory.allocates

/-- A call that fails may take names, but shows none. -/
theorem perform_drawn (names : NameSet) (c : ExtractionCall) :
    NameSet.Drawn c.context.stem names (perform names c).2 (shown (perform names c).1) := by
  obtain ⟨drawn, hhistory, hanswer⟩ :=
    c.context.extractor_records c.pattern c.source names ()
  rcases hrun : (perform names c).1 with e | x
  · exact .none hhistory.drawn.subset
  · rw [shown, hanswer x hrun]
    exact hhistory.drawn

theorem shown_performAll (calls : List ExtractionCall) (names : NameSet) :
    ((performAll perform names calls).1.flatMap shown).Nodup ∧
      ∀ name ∈ (performAll perform names calls).1.flatMap shown, name ∉ names.taken := by
  induction calls generalizing names with
  | nil => simp [performAll]
  | cons c calls ih =>
    have hfirst := perform_drawn names c
    obtain ⟨hnodup, hnew⟩ := ih (perform names c).2
    rw [performAll, List.flatMap_cons]
    refine ⟨List.nodup_append.2 ⟨hfirst.nodup, hnodup, ?_⟩, fun name hname => ?_⟩
    · rintro name hname _ hlater rfl
      exact hnew name hlater (hfirst.taken name hname)
    · rcases List.mem_append.1 hname with hname | hname
      · exact hfirst.fresh name hname
      · exact fun hmem => hnew name hname (hfirst.subset hmem)

/-- Over any extractions that share their names, no temporary is bound twice. In the answer to each
that succeeds the values flow from its source, and each of its temporaries was a free name until
it was made up. -/
theorem extractions_flow (calls : List ExtractionCall) (names : NameSet) :
    ((performAll perform names calls).1.flatMap shown).Nodup ∧
      ∀ i c x, calls[i]? = some c → (performAll perform names calls).1[i]? = some (.ok x) →
        x.Flows c.source ∧
          NameSet.Allocates c.context.stem (performAll perform names (calls.take i)).2
            (performAll perform names (calls.take (i + 1))).2 x.temporaries := by
  refine ⟨(shown_performAll calls names).1, fun i c x hc hx => ?_⟩
  rw [getElem?_performAll perform names hc] at hx
  have hanswer := Option.some.inj hx
  rw [List.take_add_one, hc, Option.toList_some, performAll_concat]
  exact ⟨perform_flows hanswer, perform_allocates hanswer⟩

/-- `{a: {b} = d}`, an array pattern with a default that is no text, and `[[b]]`. -/
def sampleCalls : List ExtractionCall :=
  let context : ExtractionContext := ⟨['d'], "$D"⟩
  let place : Span := ⟨0, 0⟩
  let b : Pattern := .ident "b" place
  [⟨context, .object place [.mk (.ident "a")
      (.object place [.mk (.ident "b") b none]) (some ⟨0, 1⟩)], .compound "f()"⟩,
    ⟨context, .array place [.item (.array place [] none) (some ⟨0, 2⟩)] none, .argument 0⟩,
    ⟨context, .array place [.item (.array place [.item b none] none) none] none, .argument 1⟩]

/-- The call that fails leaves a temporary behind, and the call after it takes another one. -/
theorem extractions_flow_past_failure : ∃ x y,
    (performAll perform .empty sampleCalls).1 =
      [.ok x, .error (.invalidRange ⟨0, 2⟩), .ok y] ∧
    x.declaration "" true = .ok ("var $D0 = f(), $D1 = $D0.a, " ++
      "$D2 = $D1 === void 0 ? d : $D1, b = $D2.b;$D0 = null;$D1 = null;$D2 = null;") ∧
    y.declaration "" true = .ok "var $D4 = arguments[1][0], b = $D4[0];$D4 = null;" ∧
    (x.temporaries ++ y.temporaries).Nodup ∧
    x.Flows (.compound "f()") ∧ y.Flows (.argument 1) := by
  obtain ⟨hnodup, hflows⟩ := extractions_flow sampleCalls .empty
  refine ⟨_, _, rfl, rfl, rfl, hnodup, ?_, ?_⟩
  · exact (hflows 0 _ _ rfl rfl).1
  · exact (hflows 2 _ _ rfl rfl).1

end ExtractionCall

end ParamLowering
