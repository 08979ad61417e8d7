import ParamLowering.Lowering.Pass
import ParamLowering.Proofs.Success
set_option autoImplicit false

/-!
Whole extractions and whole passes by their steps.

A relation between states that the few steps which change a state keep, whether they succeed or
fail, is kept by every extraction and by every pass.
-/

namespace ParamLowering

/-! ### Extraction -/

/-- A relation that the steps of extraction keep. Only names ever wait as definitions. -/
structure Extracting.StepsKeep (stem : String) (R : ExtractionState → ExtractionState → Prop) :
    Prop where
  refl : ∀ s, R s s
  trans : ∀ s t u, R s t → R t u → R s u
  bind : ∀ b : Binding, b.generated = false → Keeps R (Extracting.bind b)
  defer : ∀ name span temporary accessor,
    Keeps R (Extracting.defer ⟨.ident name span, temporary, accessor⟩)
  temporary : ∀ init, Keeps R (Extracting.temporary stem init)

namespace ExtractionContext

open Extracting

variable {cx : ExtractionContext} {R : ExtractionState → ExtractionState → Prop}

section

variable (h : StepsKeep cx.stem R)

include h

theorem keeps_seq {α β : Type} {m : Extracting α} {f : α → Extracting β} (hm : Keeps R m)
    (hf : ∀ a, Keeps R (f a)) : Keeps R (m >>= f) := keeps_bind h.trans hm hf

theorem slice_keeps (range : Span) : Keeps R (cx.slice range) := by
  unfold slice
  cases range.textOrError cx.source with
  | ok text => exact keeps_pure h.refl text
  | error e => exact keeps_throw h.refl e

theorem accessorOf_keeps (key : PropertyKey) : Keeps R (cx.accessorOf key) := by
  cases key with
  | ident | str | num => exact keeps_pure h.refl _
  | computed range => exact keeps_seq h (slice_keeps h range) fun text => keeps_pure h.refl _

theorem guarded_keeps (t : String) (default : Option Span) : Keeps R (cx.guarded t default) := by
  cases default with
  | none => exact keeps_pure h.refl t
  | some range => exact keeps_seq h (slice_keeps h range) fun text => h.temporary _

theorem element_keeps (base : String) (top : Bool) (accessor : Accessor) (value : Pattern)
    (default : Option Span) {inside : String → Extracting Unit}
    (hinside : ∀ t, Keeps R (inside t)) :
    Keeps R (cx.element base top accessor value default inside) := by
  have htemporary : Keeps R (do
      let t ← Extracting.temporary cx.stem (.read base accessor)
      inside (← cx.guarded t default)) :=
    keeps_seq h (h.temporary _) fun t => keeps_seq h (guarded_keeps h t default) hinside
  cases value with
  | object span props => exact htemporary
  | array span elements rest => exact htemporary
  | ident name span =>
    cases default with
    | none =>
      cases top with
      | true => exact h.bind _ rfl
      | false => exact h.defer _ _ _ _
    | some range =>
      exact keeps_seq h (slice_keeps h range) fun text =>
        keeps_seq h (h.temporary _) fun t => h.bind _ rfl

theorem remainder_keeps (base : String) (count : Nat) (value : Pattern)
    {inside : String → Extracting Unit} (hinside : ∀ t, Keeps R (inside t)) :
    Keeps R (cx.remainder base count value inside) := by
  cases value with
  | ident => exact h.bind _ rfl
  | object span props => exact keeps_seq h (h.temporary _) hinside
  | array span elements rest => exact keeps_seq h (h.temporary _) hinside

end

mutual
theorem parts_keeps (h : StepsKeep cx.stem R) (base : String) (top : Bool) :
    ∀ p : Pattern, Keeps R (cx.parts base top p)
  | .ident .. => h.bind _ rfl
  | .object _ props => properties_keeps h base top props
  | .array _ elements none => items_keeps h base top 0 elements
  | .array _ elements (some rest) =>
    keeps_seq h (items_keeps h base top 0 elements) fun _ =>
      remainder_keeps h base elements.length rest fun t => parts_keeps h t false rest

theorem properties_keeps (h : StepsKeep cx.stem R) (base : String) (top : Bool) :
    ∀ props : List PatternProperty, Keeps R (cx.properties base top props)
  | [] => keeps_pure h.refl ()
  | .mk key value default :: props =>
    keeps_seq h (accessorOf_keeps h key) fun accessor =>
      keeps_seq h (element_keeps h base top accessor value default fun t =>
        parts_keeps h t false value) fun _ => properties_keeps h base top props

theorem items_keeps (h : StepsKeep cx.stem R) (base : String) (top : Bool) :
    ∀ (index : Nat) (elements : List PatternElement), Keeps R (cx.items base top index elements)
  | _, [] => keeps_pure h.refl ()
  | index, .hole :: elements => items_keeps h base top (index + 1) elements
  | index, .item value default :: elements =>
    keeps_seq h (element_keeps h base top (.index index) value default fun t =>
      parts_keeps h t false value) fun _ => items_keeps h base top (index + 1) elements
end

theorem extract_keeps (h : StepsKeep cx.stem R) (pattern : Pattern) (source : SourceExpr) :
    Keeps R (cx.extract pattern source) := by
  have hbase : Keeps R (cx.baseOf source) := by
    cases source with
    | reference text => exact keeps_pure h.refl text
    | compound text => exact h.temporary _
  exact keeps_seq h hbase fun base => parts_keeps h base true pattern

theorem succeeds_of_answer {pattern : Pattern} {source : SourceExpr} {names : NameSet}
    {x : Extraction} (h : (cx.extractor.run pattern source names ()).1 = .ok x) :
    ∃ t, Succeeds (cx.extract pattern source) { names } () t ∧ t.out = x := by
  simp only [ExtractionContext.extractor] at h
  rcases hrun : (cx.extract pattern source).run.run { names } with ⟨_ | ⟨⟩, t⟩
  · rw [hrun] at h
    cases h
  · rw [hrun] at h
    exact ⟨t, hrun, Except.ok.inj h⟩

end ExtractionContext

/-! ### Passes -/

namespace Lower

variable {σ : Type}

/-- A relation that the steps of a pass keep, with the names of a function declared in `hoist`. -/
structure StepsKeep (cx : PassContext σ) (hoist : ScopeId)
    (R : PassState σ → PassState σ → Prop) : Prop where
  refl : ∀ a, R a a
  trans : ∀ a b c, R a b → R b c → R a c
  register : ∀ origin position name, Keeps R (register hoist origin position name)
  warn : ∀ line kind, Keeps R (warn line kind)
  extract : ∀ pattern source, Keeps R (extract cx pattern source)
  placeholder : ∀ origin index, Keeps R (placeholder cx hoist origin index)

variable {cx : PassContext σ} {s : Subject} {R : PassState σ → PassState σ → Prop}
  (h : StepsKeep cx s.hoist R)

include h

theorem keeps_seq {α β : Type} {m : Lower σ α} {f : α → Lower σ β} (hm : Keeps R m)
    (hf : ∀ a, Keeps R (f a)) : Keeps R (m >>= f) := keeps_bind h.trans hm hf

theorem ofExcept_keeps {α : Type} (x : Except LoweringError α) :
    Keeps R (MonadExcept.ofExcept x : Lower σ α) := by
  cases x with
  | ok a => exact keeps_pure h.refl a
  | error e => exact keeps_throw h.refl e

theorem registerAll_keeps (origin : Span) (position : Position) (names : List String) :
    Keeps R (registerAll s.hoist origin position names) := by
  induction names with
  | nil => exact keeps_pure h.refl _
  | cons name names ih => exact keeps_seq h (h.register origin position name) fun _ => ih

theorem destructured_keeps (index : Nat) (param : Param) :
    Keeps R (destructured cx s index param) := by
  have hremoval : Keeps R (destructuredRemoval cx s index param) := by
    rw [destructuredRemoval]
    split
    · exact keeps_seq h (h.placeholder _ _) fun _ => keeps_pure h.refl _
    · exact keeps_pure h.refl _
  exact keeps_seq h (h.extract _ _) fun x => keeps_seq h (ofExcept_keeps h _) fun _ =>
    keeps_seq h (registerAll_keeps h _ _ _) fun _ => keeps_seq h hremoval fun _ =>
      keeps_pure h.refl _

theorem destructuredFrom_keeps (index : Nat) (ps : List Param) :
    Keeps R (destructuredFrom cx s index ps) := by
  induction ps generalizing index with
  | nil => exact keeps_pure h.refl _
  | cons p ps ih =>
    rw [destructuredFrom]
    split
    · exact keeps_seq h (destructured_keeps h index p) fun _ =>
        keeps_seq h (ih (index + 1)) fun _ => keeps_pure h.refl _
    · exact ih (index + 1)

theorem defaultedPrologue_keeps (index : Nat) (param : Param) (default : DefaultValue) :
    Keeps R (defaultedPrologue cx s index param default) := by
  refine keeps_seq h (ofExcept_keeps h _) fun text => ?_
  have hpattern : Keeps R (do
      let x ← Lower.extract cx param.pattern (.defaultedArgument index text)
      registerAll s.hoist default.span (.index index) x.leafNames
      let prologue ← MonadExcept.ofExcept (x.declaration s.layout.indent cx.options.cleanup)
      return (prologue, x.leafNames)) :=
    keeps_seq h (h.extract _ _) fun x => keeps_seq h (registerAll_keeps h _ _ _) fun _ =>
      keeps_seq h (ofExcept_keeps h _) fun _ => keeps_pure h.refl _
  obtain ⟨pattern, span⟩ := param
  cases pattern with
  | object => exact hpattern
  | array => exact hpattern
  | ident name nameSpan =>
    by_cases hself : default.ident = some name
    · simp only [hself, ↓reduceIte]
      exact keeps_seq h (h.warn _ _) fun _ => keeps_seq h (h.register _ _ _) fun _ =>
        keeps_pure h.refl _
    · simp only [hself, ↓reduceIte]
      exact keeps_seq h (h.register _ _ _) fun _ => keeps_pure h.refl _

theorem defaultedFrom_keeps (index : Nat) (previousDefault : Option Nat)
    (ds : List (Param × DefaultValue)) : Keeps R (defaultedFrom cx s index previousDefault ds) := by
  induction ds generalizing index previousDefault with
  | nil => exact keeps_pure h.refl _
  | cons d ds ih =>
    have hone : Keeps R (defaulted cx s index d.1 d.2 previousDefault) :=
      keeps_seq h (defaultedPrologue_keeps h index d.1 d.2) fun _ => keeps_pure h.refl _
    exact keeps_seq h hone fun _ => keeps_seq h (ih _ _) fun _ => keeps_pure h.refl _

theorem restReplacement_keeps : Keeps R (restReplacement (σ := σ) s) := by
  rw [restReplacement]
  cases s.function.rest with
  | none => exact keeps_pure h.refl _
  | some rest => exact keeps_seq h (h.register _ _ _) fun _ => keeps_pure h.refl _

theorem replacements_keeps : Keeps R (replacements cx s) :=
  keeps_seq h (destructuredFrom_keeps h _ _) fun _ => keeps_seq h (defaultedFrom_keeps h _ _ _)
    fun _ => keeps_seq h (restReplacement_keeps h) fun _ => keeps_pure h.refl _

end Lower

section

variable {σ : Type} {cx : PassContext σ} {f : FunctionNode} {st : PassState σ}

/-- A pass is a check of the layout, and then the replacements in the scope where the variables
of the function come to rest. -/
theorem lowerFunction_run (cx : PassContext σ) (f : FunctionNode) (st : PassState σ) :
    (lowerFunction cx f).run.run st = match Layout.ofFunction f cx.source with
      | .error e => (.error e, st)
      | .ok layout =>
        if f.isModern then match st.scopes.scopeOf? f.id with
          | none => (.error (.missingScope f.line), st)
          | some scope =>
            match (Lower.replacements cx ⟨f, layout, st.scopes.closestHoist scope⟩).run.run st with
            | (.ok rs, st') => (.ok (.ofReplacements layout.anchor rs), st')
            | (.error e, st') => (.error e, st')
        else (.ok {}, st) := by
  rw [lowerFunction, run_bind, run_ofExcept]
  cases Layout.ofFunction f cx.source with
  | error e => rfl
  | ok layout =>
    dsimp only
    cases f.isModern with
    | false => rfl
    | true =>
      rw [if_neg (by simp), if_pos rfl, run_get_bind]
      cases st.scopes.scopeOf? f.id with
      | none => rfl
      | some scope =>
        dsimp only
        rw [run_bind]
        rcases (Lower.replacements cx _).run.run st with ⟨_ | _, _⟩ <;> rfl

theorem lowerFunction_state_of_none (h : st.scopes.scopeOf? f.id = none) :
    ((lowerFunction cx f).run.run st).2 = st := by
  rw [lowerFunction_run, h]
  cases Layout.ofFunction f cx.source with
  | error e => rfl
  | ok layout => cases f.isModern <;> rfl

/-- What the steps of a pass keep, the pass keeps, whether it succeeds or fails. -/
theorem lowerFunction_keeps {R : PassState σ → PassState σ → Prop} {scope : ScopeId}
    (hscope : st.scopes.scopeOf? f.id = some scope)
    (h : Lower.StepsKeep cx (st.scopes.closestHoist scope) R) :
    R st ((lowerFunction cx f).run.run st).2 := by
  rw [lowerFunction_run, hscope]
  cases Layout.ofFunction f cx.source with
  | error e => exact h.refl st
  | ok layout =>
    cases f.isModern with
    | false => exact h.refl st
    | true =>
      have hpass := Lower.replacements_keeps (s := ⟨f, layout, st.scopes.closestHoist scope⟩) h st
      simp only [↓reduceIte]
      rcases hrun : (Lower.replacements cx _).run.run st with ⟨_ | _, u⟩
      all_goals
        rw [hrun] at hpass
        exact hpass

end

end ParamLowering
