import ParamLowering.Proofs.Emission
import ParamLowering.Proofs.ParameterList
import ParamLowering.Run
set_option autoImplicit false

/-!
Steps that always give a value.

Extraction reads the source only where a pattern has a default or a computed key. Where all of
these are text, nothing in a pass can fail but the look-up of the function's scope.
-/

namespace ParamLowering

/-- A range is in order, in bounds and on character boundaries. -/
def Span.IsText (source : List Char) (s : Span) : Prop := ∃ text, s.text? source = some text

/-- The expression of a computed key is text of the source. -/
def PropertyKey.Sliceable (source : List Char) : PropertyKey → Prop
  | .computed expr => expr.IsText source
  | .ident _ | .str _ | .num _ => True

mutual
/-- All defaults and computed keys of a pattern are text of the source. -/
def Pattern.Sliceable (source : List Char) : Pattern → Prop
  | .ident .. => True
  | .object _ props => PatternProperty.AllSliceable source props
  | .array _ elements none => PatternElement.AllSliceable source elements
  | .array _ elements (some rest) =>
    PatternElement.AllSliceable source elements ∧ rest.Sliceable source

def PatternProperty.AllSliceable (source : List Char) : List PatternProperty → Prop
  | [] => True
  | .mk key value default :: props => (key.Sliceable source ∧ value.Sliceable source ∧
      ∀ d ∈ default, d.IsText source) ∧ PatternProperty.AllSliceable source props

def PatternElement.AllSliceable (source : List Char) : List PatternElement → Prop
  | [] => True
  | .hole :: elements => PatternElement.AllSliceable source elements
  | .item value default :: elements => (value.Sliceable source ∧
      ∀ d ∈ default, d.IsText source) ∧ PatternElement.AllSliceable source elements
end

theorem Span.IsText.textOrError {source : List Char} {s : Span} (h : s.IsText source) :
    ∃ text, s.textOrError source = .ok text := by
  obtain ⟨text, htext⟩ := h
  exact ⟨String.ofList text, by simp [Span.textOrError, htext]⟩

/-! ### Extraction -/

namespace Extracting

/-- A step gives a value, and all that waits behind it are names. -/
abbrev Works {α : Type} (m : Extracting α) : Prop :=
  Gives (fun s : ExtractionState => s.out.Simple) (fun _ => True) m

theorem bind_works (b : Binding) : Works (Extracting.bind b) := by
  intro s hs
  exact ⟨(), _, (bind_succeeds hs).2 rfl, trivial, Extraction.simple_bindings _⟩

theorem defer_works (name : String) (span : Span) (temporary : String) (accessor : Accessor) :
    Works (Extracting.defer ⟨.ident name span, temporary, accessor⟩) :=
  gives_modify fun _ hs => Extraction.simple_defer hs name span temporary accessor

theorem temporary_works (stem : String) (init : Initializer) :
    Works (Extracting.temporary stem init) := by
  refine gives_get_bind fun s hs => ?_
  have hbind : Works (do
      Extracting.bind { name := (s.names.fresh stem).1, init, needsCleanup := true, generated := true }
      return (s.names.fresh stem).1) := gives_bind (bind_works _) fun _ _ => gives_pure trivial
  obtain ⟨a, t, hrun, ha, ht⟩ := hbind { s with names := (s.names.fresh stem).2 } hs
  exact ⟨a, t, Succeeds.bind_iff.2 ⟨(), _, Succeeds.set_iff.2 rfl, hrun⟩, ha, ht⟩

end Extracting

namespace ExtractionContext

open Extracting

variable (cx : ExtractionContext)

theorem slice_works {range : Span} (h : range.IsText cx.source) : Works (cx.slice range) := by
  obtain ⟨text, htext⟩ := h.textOrError
  rw [slice, htext]
  exact gives_pure trivial

theorem accessorOf_works {key : PropertyKey} (h : key.Sliceable cx.source) :
    Works (cx.accessorOf key) := by
  cases key with
  | ident | str | num => exact gives_pure trivial
  | computed expr => exact gives_bind (cx.slice_works h) fun _ _ => gives_pure trivial

theorem guarded_works (t : String) {default : Option Span} (h : ∀ d ∈ default, d.IsText cx.source) :
    Works (cx.guarded t default) := by
  cases default with
  | none => exact gives_pure trivial
  | some range => exact gives_bind (cx.slice_works (h range rfl)) fun _ _ => temporary_works _ _

theorem element_works (base : String) (top : Bool) (accessor : Accessor) (value : Pattern)
    {default : Option Span} (h : ∀ d ∈ default, d.IsText cx.source)
    {inside : String → Extracting Unit} (hinside : ∀ t, Works (inside t)) :
    Works (cx.element base top accessor value default inside) := by
  have htemporary : Works (do
      let t ← Extracting.temporary cx.stem (.read base accessor)
      inside (← cx.guarded t default)) :=
    gives_bind (temporary_works _ _) fun t _ => gives_bind (cx.guarded_works t h) fun t _ => hinside t
  cases value with
  | object span props => exact htemporary
  | array span elements rest => exact htemporary
  | ident name span =>
    cases default with
    | none =>
      cases top with
      | true => exact bind_works _
      | false => exact defer_works _ _ _ _
    | some range =>
      exact gives_bind (cx.slice_works (h range rfl)) fun _ _ =>
        gives_bind (temporary_works _ _) fun _ _ => bind_works _

theorem remainder_works (base : String) (count : Nat) (value : Pattern)
    {inside : String → Extracting Unit} (hinside : ∀ t, Works (inside t)) :
    Works (cx.remainder base count value inside) := by
  cases value with
  | ident => exact bind_works _
  | object span props => exact gives_bind (temporary_works _ _) fun t _ => hinside t
  | array span elements rest => exact gives_bind (temporary_works _ _) fun t _ => hinside t

mutual
theorem parts_works (base : String) (top : Bool) : ∀ p : Pattern, p.Sliceable cx.source →
    Works (cx.parts base top p)
  | .ident .., _ => bind_works _
  | .object _ props, h => properties_works base top props h
  | .array _ elements none, h => items_works base top 0 elements h
  | .array _ elements (some rest), h =>
    gives_bind (items_works base top 0 elements h.1) fun _ _ =>
      cx.remainder_works base elements.length rest fun t => parts_works t false rest h.2

theorem properties_works (base : String) (top : Bool) : ∀ props : List PatternProperty,
    PatternProperty.AllSliceable cx.source props → Works (cx.properties base top props)
  | [], _ => gives_pure trivial
  | .mk _ value _ :: props, ⟨⟨hkey, hvalue, hdefault⟩, hprops⟩ =>
    gives_bind (cx.accessorOf_works hkey) fun accessor _ =>
      gives_bind (cx.element_works base top accessor value hdefault fun t =>
        parts_works t false value hvalue) fun _ _ => properties_works base top props hprops

theorem items_works (base : String) (top : Bool) : ∀ (index : Nat) (elements : List PatternElement),
    PatternElement.AllSliceable cx.source elements → Works (cx.items base top index elements)
  | _, [], _ => gives_pure trivial
  | index, .hole :: elements, h => items_works base top (index + 1) elements h
  | index, .item value _ :: elements, ⟨⟨hvalue, hdefault⟩, helements⟩ =>
    gives_bind (cx.element_works base top (.index index) value hdefault fun t =>
      parts_works t false value hvalue) fun _ _ => items_works base top (index + 1) elements helements
end

theorem extract_works {pattern : Pattern} (h : pattern.Sliceable cx.source) (source : SourceExpr) :
    Works (cx.extract pattern source) := by
  have hbase : Works (cx.baseOf source) := by
    cases source with
    | reference text => exact gives_pure trivial
    | compound text => exact temporary_works _ _
  exact gives_bind hbase fun base _ => cx.parts_works base true pattern h

end ExtractionContext

/-- The extractor takes a pattern apart, whatever it is read from. -/
def Extractor.Answers {σ : Type} (e : Extractor σ) (pattern : Pattern) : Prop :=
  ∀ source names state, ∃ x names' state',
    e.run pattern source names state = (.ok x, names', state') ∧ x.Simple

theorem ExtractionContext.extractor_answers (cx : ExtractionContext) {pattern : Pattern}
    (h : pattern.Sliceable cx.source) : cx.extractor.Answers pattern := by
  intro source names state
  obtain ⟨a, t, hrun, -, ht⟩ := cx.extract_works h source { names }
    (Extraction.simple_bindings [])
  refine ⟨t.out, t.names, (), ?_, ht⟩
  have hrun' : (cx.extract pattern source).run.run { names } = (.ok a, t) := hrun
  simp only [ExtractionContext.extractor, hrun']

/-! ### Passes -/

namespace Lower

variable {σ : Type} {cx : PassContext σ} {owners : List (FunctionId × ScopeId)}

/-- A step gives a value and takes no function its scope. -/
abbrev Works (owners : List (FunctionId × ScopeId)) {α : Type} (Q : α → Prop) (m : Lower σ α) :
    Prop :=
  Gives (fun st : PassState σ => st.scopes.owners = owners) Q m

theorem register_works (hoist : ScopeId) (origin : Span) (position : Position) (name : String) :
    Works owners (fun _ => True) (register (σ := σ) hoist origin position name) :=
  gives_modify fun _ h => h

theorem registerAll_works (hoist : ScopeId) (origin : Span) (position : Position)
    (names : List String) :
    Works owners (fun _ => True) (registerAll (σ := σ) hoist origin position names) := by
  induction names with
  | nil => exact gives_pure trivial
  | cons name names ih => exact gives_bind (register_works _ _ _ _) fun _ _ => ih

theorem warn_works (line : Nat) (kind : WarningKind) :
    Works owners (fun _ => True) (warn (σ := σ) line kind) := gives_modify fun _ h => h

theorem extract_works {pattern : Pattern} (h : cx.extractor.Answers pattern) (source : SourceExpr) :
    Works owners Extraction.Simple (Lower.extract cx pattern source) := by
  refine gives_get_bind fun st hst => ?_
  obtain ⟨x, names, state, hrun, hx⟩ := h source st.names st.extractor
  refine ⟨x, { st with names, extractor := state }, ?_, hx, hst⟩
  simp only [hrun]
  exact Succeeds.bind_iff.2 ⟨⟨⟩, _, Succeeds.set_iff.2 rfl, Succeeds.ofExcept_iff.2 ⟨rfl, rfl⟩⟩

theorem placeholder_works (hoist : ScopeId) (origin : Span) (index : Nat) :
    Works owners (fun _ => True) (placeholder cx hoist origin index) := by
  refine gives_get_bind fun st hst => ?_
  exact ⟨_, _, Succeeds.bind_iff.2 ⟨⟨⟩, _, Succeeds.set_iff.2 rfl, Succeeds.pure_iff.2 ⟨rfl, rfl⟩⟩,
    trivial, hst⟩

theorem declaration_works {x : Extraction} (h : x.Simple) (indent : String) (cleanup : Bool) :
    Works (σ := σ) owners (fun _ => True) (MonadExcept.ofExcept (x.declaration indent cleanup)) :=
  gives_ofExcept (Extraction.declaration_eq h indent cleanup) trivial

theorem destructured_works (s : Subject) (index : Nat) {param : Param}
    (h : cx.extractor.Answers param.pattern) :
    Works owners (fun _ => True) (destructured cx s index param) := by
  have hremoval : Works owners (fun _ => True) (destructuredRemoval cx s index param) := by
    rw [destructuredRemoval]
    split
    · exact gives_bind (placeholder_works _ _ _) fun _ _ => gives_pure trivial
    · exact gives_pure trivial
  exact gives_bind (extract_works h _) fun x hx => gives_bind (declaration_works hx _ _) fun _ _ =>
    gives_bind (registerAll_works _ _ _ _) fun _ _ => gives_bind hremoval fun _ _ =>
      gives_pure trivial

theorem destructuredFrom_works (s : Subject) {ps : List Param} (index : Nat)
    (h : ∀ p ∈ ps, cx.extractor.Answers p.pattern) :
    Works owners (fun _ => True) (destructuredFrom cx s index ps) := by
  induction ps generalizing index with
  | nil => exact gives_pure trivial
  | cons p ps ih =>
    obtain ⟨hp, hps⟩ := List.forall_mem_cons.1 h
    rw [destructuredFrom]
    split
    · exact gives_bind (destructured_works s index hp) fun _ _ =>
        gives_bind (ih (index + 1) hps) fun _ _ => gives_pure trivial
    · exact ih (index + 1) hps

theorem defaultedPrologue_works (s : Subject) (index : Nat) {param : Param}
    {default : DefaultValue} (hdefault : default.span.IsText cx.source)
    (h : cx.extractor.Answers param.pattern) :
    Works owners (fun _ => True) (defaultedPrologue cx s index param default) := by
  obtain ⟨text, htext⟩ := hdefault.textOrError
  refine gives_bind (gives_ofExcept (P := fun _ => True) htext trivial) fun text _ => ?_
  have hpattern : Works owners (fun _ => True) (do
      let x ← Lower.extract cx param.pattern (.defaultedArgument index text)
      registerAll s.hoist default.span (.index index) x.leafNames
      let prologue ← MonadExcept.ofExcept (x.declaration s.layout.indent cx.options.cleanup)
      return (prologue, x.leafNames)) :=
    gives_bind (extract_works h _) fun x hx => gives_bind (registerAll_works _ _ _ _) fun _ _ =>
      gives_bind (declaration_works hx _ _) fun _ _ => gives_pure trivial
  obtain ⟨pattern, span⟩ := param
  cases pattern with
  | object => exact hpattern
  | array => exact hpattern
  | ident name nameSpan =>
    by_cases hself : default.ident = some name
    · simp only [hself, ↓reduceIte]
      exact gives_bind (warn_works _ _) fun _ _ => gives_bind (register_works _ _ _ _)
        fun _ _ => gives_pure trivial
    · simp only [hself, ↓reduceIte]
      exact gives_bind (register_works _ _ _ _) fun _ _ => gives_pure trivial

theorem defaultedFrom_works (s : Subject) {ds : List (Param × DefaultValue)} (index : Nat)
    (previousDefault : Option Nat)
    (h : ∀ d ∈ ds, d.2.span.IsText cx.source ∧ cx.extractor.Answers d.1.pattern) :
    Works owners (fun _ => True) (defaultedFrom cx s index previousDefault ds) := by
  induction ds generalizing index previousDefault with
  | nil => exact gives_pure trivial
  | cons d ds ih =>
    obtain ⟨⟨hdefault, hpattern⟩, hds⟩ := List.forall_mem_cons.1 h
    have hone : Works owners (fun _ => True) (defaulted cx s index d.1 d.2 previousDefault) :=
      gives_bind (defaultedPrologue_works s index hdefault hpattern) fun _ _ => gives_pure trivial
    exact gives_bind hone fun _ _ => gives_bind (ih _ _ hds) fun _ _ => gives_pure trivial

theorem restReplacement_works (s : Subject) :
    Works owners (fun _ => True) (restReplacement (σ := σ) s) := by
  rw [restReplacement]
  cases s.function.rest with
  | none => exact gives_pure trivial
  | some rest => exact gives_bind (register_works _ _ _ _) fun _ _ => gives_pure trivial

theorem replacements_works (s : Subject)
    (hpatterns : ∀ p ∈ s.function.params, cx.extractor.Answers p.pattern)
    (hdefaults : ∀ d ∈ s.function.defaults, d.span.IsText cx.source) :
    Works owners (fun _ => True) (replacements cx s) := by
  refine gives_bind (destructuredFrom_works s 0 fun p hp => hpatterns p (List.mem_of_mem_take hp))
    fun _ _ => gives_bind (defaultedFrom_works s _ none fun d hd => ?_) fun _ _ =>
      gives_bind (restReplacement_works s) fun _ _ => gives_pure trivial
  obtain ⟨hparam, hdefault⟩ := List.of_mem_zip (a := d.1) (b := d.2) hd
  exact ⟨hdefaults d.2 hdefault, hpatterns d.1 (List.mem_of_mem_drop hparam)⟩

end Lower

/-- What a pass asks of a function: a layout, a scope, and text wherever it reads some. -/
structure FunctionNode.Ready {σ : Type} (f : FunctionNode) (cx : PassContext σ)
    (owners : List (FunctionId × ScopeId)) : Prop where
  layout : ∃ layout, Layout.ofFunction f cx.source = .ok layout
  scope : ∃ scope, owners.lookup f.id = some scope
  patterns : ∀ p ∈ f.params, cx.extractor.Answers p.pattern
  defaults : ∀ d ∈ f.defaults, d.span.IsText cx.source

/-- A pass over a function that is ready gives an outcome. -/
theorem lowerFunction_works {σ : Type} {cx : PassContext σ}
    {owners : List (FunctionId × ScopeId)} {f : FunctionNode} (h : f.Ready cx owners) :
    Lower.Works owners (fun _ => True) (lowerFunction cx f) := by
  obtain ⟨layout, hlayout⟩ := h.layout
  refine gives_bind (gives_ofExcept (P := fun _ => True) hlayout trivial) fun layout _ => ?_
  by_cases hmodern : f.isModern = true
  · simp only [hmodern, Bool.not_true, Bool.false_eq_true, ↓reduceIte]
    refine gives_get_bind fun st hst => ?_
    obtain ⟨scope, hscope⟩ := h.scope
    have hfound : st.scopes.scopeOf? f.id = some scope := by
      rw [ScopeRegistry.scopeOf?, hst, hscope]
    simp only [hfound]
    exact gives_bind (Lower.replacements_works _ h.patterns h.defaults)
      (fun _ _ => gives_pure trivial) st hst
  · simp only [hmodern, Bool.not_false, ↓reduceIte]
    exact gives_pure trivial

/-- Functions that are ready are lowered one after another. -/
theorem Run.lowerEach_works {cx : PassContext Unit} {file : String}
    {owners : List (FunctionId × ScopeId)} {fs : List FunctionNode}
    (hfs : ∀ f ∈ fs, f.Ready cx owners) {st : PassState Unit} (hst : st.scopes.owners = owners) :
    ∃ outcomes st', lowerEach cx file fs st = (.ok outcomes, st') := by
  induction fs generalizing st with
  | nil => exact ⟨[], st, rfl⟩
  | cons f fs ih =>
    obtain ⟨hf, hfs⟩ := List.forall_mem_cons.1 hfs
    obtain ⟨o, u, hrun, -, hu⟩ := lowerFunction_works hf st hst
    obtain ⟨os, v, hmore⟩ := ih hfs hu
    have hrun' : (lowerFunction cx f).run.run st = (.ok o, u) := hrun
    exact ⟨o :: os, v, by simp only [lowerEach, hrun', hmore]⟩

end ParamLowering
