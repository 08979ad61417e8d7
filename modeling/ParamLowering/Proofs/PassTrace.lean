import ParamLowering.Proofs.FunctionEdits
set_option autoImplicit false

/-!
The run of a pass, element by element.

A pass that succeeds takes one step for each element that it replaces, in the order of the list
and each from the state that the step before left.
-/

namespace ParamLowering

/-! ### Steps in turn -/

/-- One step for each member of a list, each from the state that the step before left. -/
inductive InTurn {S A B : Type} (step : A → S → B → S → Prop) : List A → S → List B → S → Prop where
  | nil (s : S) : InTurn step [] s [] s
  | cons {a : A} {as : List A} {s t u : S} {b : B} {bs : List B} (first : step a s b t)
      (rest : InTurn step as t bs u) : InTurn step (a :: as) s (b :: bs) u

namespace InTurn

variable {S A B C : Type} {step : A → S → B → S → Prop} {as as' : List A} {bs bs' : List B}
  {s t u : S}

theorem append (h : InTurn step as s bs t) (h' : InTurn step as' t bs' u) :
    InTurn step (as ++ as') s (bs ++ bs') u := by
  induction h with
  | nil s => exact h'
  | cons first rest ih => exact .cons first (ih h')

/-- What every step does besides, with an answer made from its own. -/
theorem map {step' : A → S → C → S → Prop} {f : B → C}
    (hstep : ∀ a s b t, step a s b t → step' a s (f b) t) (h : InTurn step as s bs t) :
    InTurn step' as s (bs.map f) t := by
  induction h with
  | nil s => exact .nil s
  | cons first rest ih => exact .cons (hstep _ _ _ _ first) ih

theorem length_eq (h : InTurn step as s bs t) : as.length = bs.length := by
  induction h with
  | nil s => rfl
  | cons first rest ih => rw [List.length_cons, List.length_cons, ih]

theorem forall₂ {P : A → B → Prop} (hstep : ∀ a s b t, step a s b t → P a b)
    (h : InTurn step as s bs t) : List.Forall₂ P as bs := by
  induction h with
  | nil s => exact .nil
  | cons first rest ih => exact .cons (hstep _ _ _ _ first) ih

end InTurn

/-! ### The steps of a pass -/

namespace Replaced

/-- What an element is declared from: its pattern, its default or all of it. -/
def origin : Replaced → Span
  | .pattern _ p => p.span
  | .defaulted _ _ d => d.span
  | .rest r => r.span

/-- Where in the list an element gets its value. -/
def position : Replaced → Position
  | .pattern i _ | .defaulted i _ _ => .index i
  | .rest _ => .rest

end Replaced

namespace Lower

variable {σ : Type} {cx : PassContext σ} {s : Subject} {st st' : PassState σ}
  {rs : List Replacement}

/-- The step that replaces one element. -/
inductive Replaces (cx : PassContext σ) (s : Subject) :
    Replaced → PassState σ → Replacement → PassState σ → Prop where
  | pattern {index : Nat} {p : Param} {st st' : PassState σ} {r : Replacement}
      (h : Succeeds (destructured cx s index p) st r st') :
      Replaces cx s (.pattern index p) st r st'
  | defaulted {index : Nat} {p : Param} {d : DefaultValue} {previousDefault : Option Nat}
      {st st' : PassState σ} {r : Replacement}
      (h : Succeeds (Lower.defaulted cx s index p d previousDefault) st r st') :
      Replaces cx s (.defaulted index p d) st r st'
  | rest {p : RestParam} {st st' : PassState σ} {r : Replacement} (hrest : s.function.rest = some p)
      (h : Succeeds (restReplacement s) st [r] st') : Replaces cx s (.rest p) st r st'

theorem destructuredFrom_inTurn {index : Nat} {ps : List Param}
    (h : Succeeds (destructuredFrom cx s index ps) st rs st') :
    InTurn (Replaces cx s) (Replaced.patternsFrom index ps) st rs st' := by
  induction ps generalizing index st rs with
  | nil =>
    obtain ⟨rfl, rfl⟩ := Succeeds.pure_iff.1 h
    exact .nil st
  | cons p ps ih =>
    rw [Replaced.patternsFrom]
    cases hp : p.pattern.isDestructuring with
    | true =>
      obtain ⟨r, u, rest, hr, hrest, rfl⟩ := destructuredFrom_cons hp h
      exact .cons (.pattern hr) (ih hrest)
    | false => exact ih (destructuredFrom_cons_of_name hp h)

theorem defaultedFrom_inTurn {index : Nat} {previousDefault : Option Nat}
    {ds : List (Param × DefaultValue)}
    (h : Succeeds (defaultedFrom cx s index previousDefault ds) st rs st') :
    InTurn (Replaces cx s) (Replaced.defaultsFrom index ds) st rs st' := by
  induction ds generalizing index previousDefault st rs with
  | nil =>
    obtain ⟨rfl, rfl⟩ := Succeeds.pure_iff.1 h
    exact .nil st
  | cons d ds ih =>
    obtain ⟨r, u, hr, h⟩ := Succeeds.bind_iff.1 h
    obtain ⟨rest, v, hrest, h⟩ := Succeeds.bind_iff.1 h
    obtain ⟨rfl, rfl⟩ := Succeeds.pure_iff.1 h
    exact .cons (.defaulted hr) (ih hrest)

theorem restReplacement_inTurn (h : Succeeds (restReplacement s) st rs st') :
    InTurn (Replaces cx s) (s.function.rest.map Replaced.rest).toList st rs st' := by
  have hrun := h
  unfold restReplacement at h
  split at h
  · rename_i hrest
    obtain ⟨rfl, rfl⟩ := Succeeds.pure_iff.1 h
    rw [hrest]
    exact .nil st
  · rename_i p hrest
    obtain ⟨_, u, -, h⟩ := Succeeds.bind_iff.1 h
    obtain ⟨rfl, rfl⟩ := Succeeds.pure_iff.1 h
    rw [hrest]
    exact .cons (.rest hrest hrun) (.nil _)

theorem replacements_inTurn
    (hfirst : s.layout.firstDefault = s.function.params.length - s.function.defaults.length)
    (h : Succeeds (replacements cx s) st rs st') :
    InTurn (Replaces cx s) s.function.replaced st rs st' := by
  rw [replacements_eq hfirst] at h
  obtain ⟨first, u, hpatterns, h⟩ := Succeeds.bind_iff.1 h
  obtain ⟨second, v, hdefaults, h⟩ := Succeeds.bind_iff.1 h
  obtain ⟨third, w, hrest, h⟩ := Succeeds.bind_iff.1 h
  obtain ⟨rfl, rfl⟩ := Succeeds.pure_iff.1 h
  exact ((destructuredFrom_inTurn hpatterns).append (defaultedFrom_inTurn hdefaults)).append
    (restReplacement_inTurn hrest)

/-! ### What a step does -/

theorem registerAll_singleton {hoist : ScopeId} {origin : Span} {position : Position}
    {name : String} {u : Unit} (h : Succeeds (register hoist origin position name) st u st') :
    Succeeds (registerAll hoist origin position [name]) st () st' :=
  Succeeds.bind_iff.2 ⟨u, st', h, Succeeds.pure_iff.2 ⟨rfl, rfl⟩⟩

/-- The names that an element is found to bind, and the state behind the question. -/
def Asks (cx : PassContext σ) : Replaced → PassState σ → List String → PassState σ → Prop
  | .pattern i p, a, names, b =>
    ∃ x, Succeeds (extract cx p.pattern (.argument i)) a x b ∧ names = x.leafNames
  | .defaulted i p d, a, names, b => match p.pattern with
    | .ident name _ => names = [name] ∧ ∃ warnings, b = { a with warnings }
    | .object .. | .array .. => ∃ text x, d.span.textOrError cx.source = .ok text ∧
      Succeeds (extract cx p.pattern (.defaultedArgument i text)) a x b ∧ names = x.leafNames
  | .rest r, a, names, b => names = [r.name] ∧ b = a

theorem extract_scopes {pattern : Pattern} {source : SourceExpr} {x : Extraction}
    (h : Succeeds (Lower.extract cx pattern source) st x st') : st'.scopes = st.scopes := by
  obtain ⟨a, st₁, hget, h⟩ := Succeeds.bind_iff.1 h
  obtain ⟨rfl, rfl⟩ := Succeeds.get_iff.1 hget
  obtain ⟨_, st₂, hset, h⟩ := Succeeds.bind_iff.1 h
  obtain rfl := Succeeds.set_iff.1 hset
  obtain ⟨-, rfl⟩ := Succeeds.ofExcept_iff.1 h
  rfl

/-- The question leaves the scopes alone, and no name is given back. -/
theorem Asks.keeps (hgrows : cx.extractor.Grows) {el : Replaced} {names : List String}
    (h : Asks cx el st names st') :
    st'.scopes = st.scopes ∧ st.names.taken ⊆ st'.names.taken := by
  cases el with
  | pattern i p =>
    obtain ⟨x, hextract, -⟩ := h
    exact ⟨extract_scopes hextract, extract_grows hgrows hextract⟩
  | defaulted i p d =>
    obtain ⟨pattern, span⟩ := p
    cases pattern with
    | ident name nameSpan =>
      obtain ⟨-, warnings, rfl⟩ := h
      exact ⟨rfl, List.Subset.refl _⟩
    | object | array =>
      obtain ⟨text, x, -, hextract, -⟩ := h
      exact ⟨extract_scopes hextract, extract_grows hgrows hextract⟩
  | rest r =>
    obtain ⟨-, rfl⟩ := h
    exact ⟨rfl, List.Subset.refl _⟩

theorem defaultedPrologue_steps {index : Nat} {p : Param} {d : DefaultValue}
    {answer : String × List String}
    (h : Succeeds (defaultedPrologue cx s index p d) st answer st') :
    ∃ u, Asks cx (.defaulted index p d) st answer.2 u ∧
      Succeeds (registerAll s.hoist d.span (.index index) answer.2) u () st' := by
  obtain ⟨text, st₁, htext, h⟩ := Succeeds.bind_iff.1 h
  obtain ⟨hok, rfl⟩ := Succeeds.ofExcept_iff.1 htext
  have hpattern : Succeeds (do
      let x ← Lower.extract cx p.pattern (.defaultedArgument index text)
      registerAll s.hoist d.span (.index index) x.leafNames
      let prologue ← MonadExcept.ofExcept (x.declaration s.layout.indent cx.options.cleanup)
      return (prologue, x.leafNames)) st answer st' →
      ∃ u, (∃ text x, d.span.textOrError cx.source = .ok text ∧
          Succeeds (extract cx p.pattern (.defaultedArgument index text)) st x u ∧
          answer.2 = x.leafNames) ∧
        Succeeds (registerAll s.hoist d.span (.index index) answer.2) u () st' := by
    intro h
    obtain ⟨x, u, hextract, h⟩ := Succeeds.bind_iff.1 h
    obtain ⟨_, v, hregister, h⟩ := Succeeds.bind_iff.1 h
    obtain ⟨prologue, w, hprologue, h⟩ := Succeeds.bind_iff.1 h
    obtain ⟨-, rfl⟩ := Succeeds.ofExcept_iff.1 hprologue
    obtain ⟨rfl, rfl⟩ := Succeeds.pure_iff.1 h
    exact ⟨u, ⟨text, x, hok, hextract, rfl⟩, hregister⟩
  obtain ⟨pattern, span⟩ := p
  cases pattern with
  | object => exact hpattern h
  | array => exact hpattern h
  | ident name nameSpan =>
    have hname : ∀ {u : PassState σ}, Succeeds (do
        register s.hoist d.span (.index index) name
        return (guardedName name index text s.layout.indent, [name])) u answer st' →
        answer.2 = [name] ∧
          Succeeds (registerAll s.hoist d.span (.index index) [name]) u () st' := by
      intro u h
      obtain ⟨_, v, hregister, h⟩ := Succeeds.bind_iff.1 h
      obtain ⟨rfl, rfl⟩ := Succeeds.pure_iff.1 h
      exact ⟨rfl, registerAll_singleton hregister⟩
    by_cases hself : d.ident = some name
    · simp only [hself, ↓reduceIte] at h
      obtain ⟨_, u, hwarn, h⟩ := Succeeds.bind_iff.1 h
      obtain rfl := Succeeds.modify_iff.1 hwarn
      obtain ⟨hnames, hregister⟩ := hname h
      exact ⟨_, ⟨hnames, _, rfl⟩, hnames ▸ hregister⟩
    · simp only [hself, ↓reduceIte] at h
      obtain ⟨hnames, hregister⟩ := hname h
      exact ⟨st, ⟨hnames, st.warnings, rfl⟩, hnames ▸ hregister⟩

/-- The step for an element asks for its names, registers them, and may draw a placeholder. -/
theorem Replaces.steps {el : Replaced} {r : Replacement} (h : Replaces cx s el st r st') :
    r.position = el.position ∧ ∃ u v, Asks cx el st r.registered u ∧
      Succeeds (registerAll s.hoist el.origin el.position r.registered) u () v ∧
      (v = st' ∨ ∃ origin index name,
        Succeeds (placeholder cx s.hoist origin index) v name st') := by
  cases h with
  | pattern h =>
    obtain ⟨x, u, hextract, h⟩ := Succeeds.bind_iff.1 h
    obtain ⟨prologue, st₂, hprologue, h⟩ := Succeeds.bind_iff.1 h
    obtain ⟨-, rfl⟩ := Succeeds.ofExcept_iff.1 hprologue
    obtain ⟨_, v, hregister, h⟩ := Succeeds.bind_iff.1 h
    obtain ⟨removal, w, hremoval, h⟩ := Succeeds.bind_iff.1 h
    obtain ⟨rfl, rfl⟩ := Succeeds.pure_iff.1 h
    refine ⟨rfl, u, v, ⟨x, hextract, rfl⟩, hregister, ?_⟩
    rw [destructuredRemoval] at hremoval
    split at hremoval
    · obtain ⟨name, st₅, hname, hremoval⟩ := Succeeds.bind_iff.1 hremoval
      obtain ⟨-, rfl⟩ := Succeeds.pure_iff.1 hremoval
      exact .inr ⟨_, _, name, hname⟩
    · obtain ⟨-, rfl⟩ := Succeeds.pure_iff.1 hremoval
      exact .inl rfl
  | defaulted h =>
    obtain ⟨answer, v, hprologue, h⟩ := Succeeds.bind_iff.1 h
    obtain ⟨rfl, rfl⟩ := Succeeds.pure_iff.1 h
    obtain ⟨u, hasks, hregister⟩ := defaultedPrologue_steps hprologue
    exact ⟨rfl, u, v, hasks, hregister, .inl rfl⟩
  | rest hrest h =>
    simp only [restReplacement, hrest] at h
    obtain ⟨_, v, hregister, h⟩ := Succeeds.bind_iff.1 h
    obtain ⟨hr, rfl⟩ := Succeeds.pure_iff.1 h
    obtain ⟨rfl, -⟩ := List.cons.inj hr
    exact ⟨rfl, st, v, ⟨rfl, rfl⟩, registerAll_singleton hregister, .inl rfl⟩

end Lower

/-! ### Plain lists -/

theorem Replaced.patternsFrom_eq_nil_iff {index : Nat} {ps : List Param} :
    patternsFrom index ps = [] ↔ ∀ p ∈ ps, p.pattern.isDestructuring = false := by
  induction ps generalizing index with
  | nil => simp [patternsFrom]
  | cons p ps ih =>
    rw [patternsFrom]
    cases hp : p.pattern.isDestructuring with
    | true => simp [hp]
    | false => simp [hp, ih]

theorem Replaced.defaultsFrom_eq_nil_iff {index : Nat} {ds : List (Param × DefaultValue)} :
    defaultsFrom index ds = [] ↔ ds = [] := by
  cases ds <;> simp [defaultsFrom]

/-- Nothing is replaced in a list without patterns, defaults and a rest parameter. -/
theorem FunctionNode.replaced_eq_nil_iff {f : FunctionNode}
    (h : f.defaults.length ≤ f.params.length) : f.replaced = [] ↔ f.isModern = false := by
  have hdefaults := map_snd_defaulted h
  rw [replaced, List.append_eq_nil_iff, List.append_eq_nil_iff, Replaced.patternsFrom_eq_nil_iff,
    Replaced.defaultsFrom_eq_nil_iff]
  constructor
  · rintro ⟨⟨hplain, hnone⟩, hrest⟩
    rw [hnone, List.map_nil] at hdefaults
    have hall : f.plain = f.params := by
      rw [plain, ← hdefaults]
      exact List.take_of_length_le (by simp)
    rw [hall] at hplain
    have hrest : f.rest = none := by simpa using hrest
    have hparams : f.params.any (·.pattern.isDestructuring) = false :=
      List.any_eq_false.2 fun p hp => by simp [hplain p hp]
    simp [isModern, hrest, ← hdefaults, hparams]
  · intro hmodern
    simp only [isModern, Bool.or_eq_false_iff, Bool.not_eq_false', List.isEmpty_iff,
      Option.isSome_eq_false_iff, Option.isNone_iff_eq_none] at hmodern
    obtain ⟨⟨hrest, hnone⟩, hparams⟩ := hmodern
    rw [hnone] at hdefaults
    refine ⟨⟨fun p hp => ?_, List.map_eq_nil_iff.1 hdefaults⟩, by simp [hrest]⟩
    simpa using List.any_eq_false.1 hparams p (List.mem_of_mem_take hp)

/-! ### Passes -/

section

variable {σ : Type} {cx : PassContext σ} {f : FunctionNode} {st st' : PassState σ}

/-- A pass that succeeds replaces the elements of its function in turn. -/
theorem lowerFunction_inTurn {o : Outcome} (h : Succeeds (lowerFunction cx f) st o st') :
    ∃ layout hoist rs, Layout.ofFunction f cx.source = .ok layout ∧
      (∀ scope, st.scopes.scopeOf? f.id = some scope → hoist = st.scopes.closestHoist scope) ∧
      InTurn (Lower.Replaces cx ⟨f, layout, hoist⟩) f.replaced st rs st' ∧
      o = .ofReplacements layout.anchor rs := by
  have hrun := lowerFunction_run cx f st
  rw [h] at hrun
  cases hlayout : Layout.ofFunction f cx.source with
  | error e =>
    rw [hlayout] at hrun
    cases hrun
  | ok layout =>
    obtain ⟨hcount, -, -, heq⟩ := ofFunction_eq_ok hlayout
    simp only [hlayout] at hrun
    cases hmodern : f.isModern with
    | false =>
      rw [hmodern, if_neg (by simp)] at hrun
      obtain ⟨ho, rfl⟩ := Prod.mk.inj hrun
      -- nothing is replaced, so the scope has no part in it
      have hnone := (FunctionNode.replaced_eq_nil_iff hcount).2 hmodern
      refine ⟨layout, (st'.scopes.scopeOf? f.id).elim 0 st'.scopes.closestHoist, [], rfl, ?_, ?_,
        Except.ok.inj ho⟩
      · intro scope hscope
        rw [hscope]
        rfl
      · rw [hnone]
        exact .nil _
    | true =>
      rw [hmodern, if_pos rfl] at hrun
      cases hscope : st.scopes.scopeOf? f.id with
      | none =>
        rw [hscope] at hrun
        cases hrun
      | some scope =>
        simp only [hscope] at hrun
        split at hrun
        · rename_i rs u hrs
          obtain ⟨ho, rfl⟩ := Prod.mk.inj hrun
          refine ⟨layout, st.scopes.closestHoist scope, rs, rfl, ?_, ?_, Except.ok.inj ho⟩
          · rintro _ ⟨⟩
            rfl
          · exact Lower.replacements_inTurn (by rw [heq]) hrs
        · cases hrun

end

end ParamLowering
