import ParamLowering.Proofs.ListShape
import ParamLowering.Proofs.Registration
set_option autoImplicit false

/-!
The frame of a pass.

Whether a pass succeeds or fails, it adds declarations to one scope, behind those that are there,
and nothing else about the scopes changes. The names that it reports are declared there.
-/

namespace ParamLowering

/-! ### Scopes -/

theorem Scope.declare_added (s : Scope) (name : String) (d : Declaration) :
    ∃ added, s.declare name d = { s with bindings := s.bindings ++ added } := by
  rw [declare]
  split
  · exact ⟨[], by rw [List.append_nil]⟩
  · exact ⟨[(name, d)], rfl⟩

namespace ScopeRegistry

variable {r : ScopeRegistry}

theorem lt_size_of_mem_chainUpTo {steps : Nat} {id other : ScopeId}
    (h : other ∈ r.chainUpTo steps id) : other < r.size := by
  induction steps generalizing id with
  | zero => cases h
  | succ steps ih =>
    rw [chainUpTo] at h
    cases hs : r.scopes[id]? with
    | none =>
      rw [hs] at h
      cases h
    | some s =>
      simp only [hs, List.mem_cons] at h
      rcases h with rfl | h
      · exact (List.getElem?_eq_some_iff.1 hs).1
      · cases hparent : s.parent with
        | none =>
          rw [hparent] at h
          cases h
        | some parent =>
          rw [hparent] at h
          exact ih h

theorem closestHoist_lt_size (h : 0 < r.size) (id : ScopeId) : r.closestHoist id < r.size := by
  rw [closestHoist]
  cases hfind : (r.chain id).find? r.isHoist with
  | none => exact h
  | some found => exact lt_size_of_mem_chainUpTo (List.mem_of_find?_eq_some hfind)

end ScopeRegistry

/-! ### States -/

variable {σ : Type}

/-- Nothing changes but one scope, which gets more declarations behind those that it has, and the
names taken, of which none is given back. -/
structure OnlyAdds (hoist : ScopeId) (a b : PassState σ) : Prop where
  size : b.scopes.size = a.scopes.size
  owners : b.scopes.owners = a.scopes.owners
  others : ∀ id, id ≠ hoist → b.scopes.scopes[id]? = a.scopes.scopes[id]?
  behind : ∀ s, a.scopes.scopes[hoist]? = some s → ∃ added,
    b.scopes.scopes[hoist]? = some { s with bindings := s.bindings ++ added }
  names : a.names.taken ⊆ b.names.taken

/-- A name is declared in a scope, and it is taken. -/
def PassState.Registered (st : PassState σ) (hoist : ScopeId) (n : String) : Prop :=
  (st.scopes.get? hoist n).isSome ∧ n ∈ st.names.taken

namespace OnlyAdds

variable {hoist : ScopeId} {a b c : PassState σ}

theorem of_eq (h : b.scopes = a.scopes) (hnames : a.names.taken ⊆ b.names.taken) :
    OnlyAdds hoist a b :=
  ⟨by rw [h], by rw [h], fun _ _ => by rw [h], fun s hs => ⟨[], by rw [h, hs, List.append_nil]⟩,
    hnames⟩

theorem trans (h : OnlyAdds hoist a b) (h' : OnlyAdds hoist b c) : OnlyAdds hoist a c where
  size := h'.size.trans h.size
  owners := h'.owners.trans h.owners
  others id hid := (h'.others id hid).trans (h.others id hid)
  behind s hs := by
    obtain ⟨first, hb⟩ := h.behind s hs
    obtain ⟨second, hc⟩ := h'.behind _ hb
    exact ⟨first ++ second, by rw [hc, List.append_assoc]⟩
  names := List.Subset.trans h.names h'.names

theorem of_declare {name : String} {d : Declaration}
    (h : b.scopes = (a.scopes.declare hoist name d).2) (hnames : a.names.taken ⊆ b.names.taken) :
    OnlyAdds hoist a b where
  size := by rw [h]; exact List.length_modify _ _ _
  owners := by rw [h]; rfl
  others id hid := by
    rw [h, ScopeRegistry.getElem?_declare]
    simp [hid.symm]
  behind s hs := by
    obtain ⟨added, hadded⟩ := s.declare_added name d
    exact ⟨added, by rw [h, ScopeRegistry.getElem?_declare, hs, ← hadded]; simp⟩
  names := hnames

theorem stepsKeep (cx : PassContext σ) (hgrows : cx.extractor.Grows) (hoist : ScopeId) :
    Lower.StepsKeep cx hoist (OnlyAdds hoist) where
  refl _ := .of_eq rfl (List.Subset.refl _)
  trans _ _ _ h h' := h.trans h'
  register _ _ name := keeps_modify fun a =>
    .of_declare rfl fun n hn => NameSet.mem_add_taken.2 (.inr hn)
  warn _ _ := keeps_modify fun _ => .of_eq rfl (List.Subset.refl _)
  extract pattern source := keeps_get_bind fun st => by
    have hsub := hgrows pattern source st.names st.extractor
    match cx.extractor.run pattern source st.names st.extractor, hsub with
    | (.ok x, names, state), hsub => exact .of_eq rfl hsub
    | (.error e, names, state), hsub => exact .of_eq rfl hsub
  placeholder _ _ := keeps_get_bind fun _ => .of_declare rfl (List.subset_cons_self _ _)

theorem registered (h : OnlyAdds hoist a b) {n : String} (hn : a.Registered hoist n) :
    b.Registered hoist n := by
  refine ⟨?_, h.names hn.2⟩
  have hsome := hn.1
  rw [ScopeRegistry.get?] at hsome ⊢
  cases hs : a.scopes.scopes[hoist]? with
  | none =>
    rw [hs] at hsome
    cases hsome
  | some s =>
    obtain ⟨added, hb⟩ := h.behind s hs
    simp only [hs, Option.bind_some, Scope.get?] at hsome
    obtain ⟨d, hd⟩ := Option.isSome_iff_exists.1 hsome
    simp [hb, Scope.get?, List.lookup_append, hd]

end OnlyAdds

/-! ### The steps of a pass -/

namespace Lower

variable {cx : PassContext σ} {s : Subject} {st st' : PassState σ}

variable (hgrows : cx.extractor.Grows)

include hgrows

theorem Replaces.onlyAdds {el : Replaced} {r : Replacement} (h : Replaces cx s el st r st') :
    OnlyAdds s.hoist st st' := by
  have hsteps := OnlyAdds.stepsKeep cx hgrows s.hoist
  cases h with
  | pattern h => exact (destructured_keeps hsteps _ _).of_succeeds h
  | defaulted h =>
    obtain ⟨answer, u, hprologue, h⟩ := Succeeds.bind_iff.1 h
    obtain ⟨-, rfl⟩ := Succeeds.pure_iff.1 h
    exact (defaultedPrologue_keeps hsteps _ _ _).of_succeeds hprologue
  | rest hrest h => exact (restReplacement_keeps hsteps).of_succeeds h

theorem inTurn_onlyAdds {els : List Replaced} {rs : List Replacement}
    (h : InTurn (Replaces cx s) els st rs st') : OnlyAdds s.hoist st st' := by
  induction h with
  | nil a => exact .of_eq rfl (List.Subset.refl _)
  | cons first rest ih => exact (first.onlyAdds hgrows).trans ih

theorem registerAll_registered {origin : Span} {position : Position} {names : List String}
    {u : Unit} (h : Succeeds (registerAll s.hoist origin position names) st u st')
    (hhoist : s.hoist < st.scopes.size) : ∀ n ∈ names, st'.Registered s.hoist n := by
  induction names generalizing st with
  | nil => exact List.forall_mem_nil _
  | cons name names ih =>
    obtain ⟨_, v, hfirst, hmore⟩ := Succeeds.bind_iff.1 h
    have hsteps := OnlyAdds.stepsKeep cx hgrows s.hoist
    have hone := (hsteps.register origin position name).of_succeeds hfirst
    have hrest := (registerAll_keeps hsteps origin position names).of_succeeds hmore
    obtain rfl := Succeeds.modify_iff.1 hfirst
    refine List.forall_mem_cons.2 ⟨hrest.registered ⟨?_, ?_⟩, ih hmore (hone.size ▸ hhoist)⟩
    · exact ScopeRegistry.isSome_get?_declare hhoist
    · exact NameSet.mem_add_taken.2 (.inl rfl)

/-- The names of a replacement are registered behind its step. -/
theorem Replaces.registered {el : Replaced} {r : Replacement} (h : Replaces cx s el st r st')
    (hhoist : s.hoist < st.scopes.size) : ∀ n ∈ r.registered, st'.Registered s.hoist n := by
  obtain ⟨-, u, v, hasks, hregister, hslot⟩ := h.steps
  obtain ⟨hscopes, -⟩ := hasks.keeps hgrows
  -- a placeholder comes behind the names and takes none of them away
  have hplaceholder : OnlyAdds s.hoist v st' := by
    rcases hslot with rfl | ⟨origin, index, name, hname⟩
    · exact .of_eq rfl (List.Subset.refl _)
    · exact ((OnlyAdds.stepsKeep cx hgrows s.hoist).placeholder _ _).of_succeeds hname
  intro n hn
  exact hplaceholder.registered
    (registerAll_registered hgrows hregister (hscopes ▸ hhoist) n hn)

theorem inTurn_registered {els : List Replaced} {rs : List Replacement}
    (h : InTurn (Replaces cx s) els st rs st') (hhoist : s.hoist < st.scopes.size) :
    ∀ n ∈ rs.flatMap (·.registered), st'.Registered s.hoist n := by
  induction h with
  | nil a => exact List.forall_mem_nil _
  | cons first rest ih =>
    have hone := first.onlyAdds hgrows
    have hrest := inTurn_onlyAdds hgrows rest
    rw [List.flatMap_cons, List.forall_mem_append]
    exact ⟨fun n hn => hrest.registered (first.registered hgrows hhoist n hn),
      ih (hone.size ▸ hhoist)⟩

omit hgrows in
/-- A faithful extractor finds the names that an element binds. -/
theorem inTurn_bound (hfaithful : cx.extractor.Faithful) {els : List Replaced}
    {rs : List Replacement} (h : InTurn (Replaces cx s) els st rs st') :
    rs.flatMap (·.registered) = (els.flatMap (·.bound)).map (·.1) := by
  induction h with
  | nil a => rfl
  | @cons el els a b c r rs first rest ih =>
    obtain ⟨-, u, v, hasks, -⟩ := first.steps
    have hone : r.registered = el.bound.map (·.1) := by
      rw [← hasks.bound hfaithful, List.map_map]
      exact (List.map_id _).symm
    rw [List.flatMap_cons, List.flatMap_cons, List.map_append, ih, hone]

omit hgrows in
/-- The step for an element, with the names that were found for it. -/
def Finds (cx : PassContext σ) (s : Subject) (el : Replaced) (a : PassState σ)
    (names : List String) (b : PassState σ) : Prop :=
  ∃ r u, Replaces cx s el a r b ∧ r.registered = names ∧ Asks cx el a names u

end Lower

/-! ### Passes -/

/-- Under an extractor that gives no name back, and with a module scope, a pass that succeeds or
fails only adds: to the scope where the variables of its function come to rest, behind the
declarations there, and to the names taken. If it succeeds, the names that it reports are those
found for each element that it replaces, in the order of the list, and they are declared and
taken. -/
theorem lowerFunction_onlyAdds {cx : PassContext σ} (hgrows : cx.extractor.Grows)
    (f : FunctionNode) {st : PassState σ} (hmodule : 0 < st.scopes.size) :
    (st.scopes.scopeOf? f.id = none → ((lowerFunction cx f).run.run st).2 = st) ∧
    (∀ scope, st.scopes.scopeOf? f.id = some scope →
      OnlyAdds (st.scopes.closestHoist scope) st ((lowerFunction cx f).run.run st).2) ∧
    ∀ o st', Succeeds (lowerFunction cx f) st o st' →
      (∀ scope, st.scopes.scopeOf? f.id = some scope →
        ∀ n ∈ o.registered, st'.Registered (st.scopes.closestHoist scope) n) ∧
      (∃ layout hoist names, Layout.ofFunction f cx.source = .ok layout ∧
        (∀ scope, st.scopes.scopeOf? f.id = some scope → hoist = st.scopes.closestHoist scope) ∧
        InTurn (Lower.Finds cx ⟨f, layout, hoist⟩) f.replaced st names st' ∧
        o.registered = names.flatten) ∧
      (cx.extractor.Faithful →
        o.registered = (f.replaced.flatMap (·.bound)).map (·.1)) := by
  refine ⟨lowerFunction_state_of_none, fun scope hscope =>
    lowerFunction_keeps hscope (OnlyAdds.stepsKeep cx hgrows _), fun o st' h => ?_⟩
  obtain ⟨layout, hoist, rs, hlayout, hhoist, hturn, rfl⟩ := lowerFunction_inTurn h
  refine ⟨fun scope hscope => ?_,
    ⟨layout, hoist, rs.map Replacement.registered, hlayout, hhoist, ?_, List.flatMap_def⟩,
    fun hfaithful => Lower.inTurn_bound hfaithful hturn⟩
  · obtain rfl := hhoist scope hscope
    exact Lower.inTurn_registered hgrows hturn (ScopeRegistry.closestHoist_lt_size hmodule scope)
  · refine hturn.map fun el a r b hr => ?_
    obtain ⟨-, u, v, hasks, -⟩ := hr.steps
    exact ⟨r, u, hr, rfl, hasks⟩

/-- The function belongs to a block; the function scope around it has a declaration of `a`. -/
def blockState : PassState Unit where
  scopes := ⟨[⟨.module, none, []⟩,
    ⟨.function, some 0, [("a", ⟨.letBinding, ⟨26, 27⟩, none⟩)]⟩, ⟨.block, some 1, []⟩], [(⟨0, 0⟩, 2)]⟩
  names := sampleState.names
  warnings := []
  extractor := ()

theorem lowerFunction_onlyAdds_block : ∃ o st',
    Succeeds (lowerFunction (Run.passContext {} sampleSource) sampleFunction) blockState o st' ∧
    OnlyAdds 1 blockState st' ∧ (∀ n ∈ o.registered, st'.Registered 1 n) ∧
    o.registered = ["a", "c"] := by
  obtain ⟨o, st', h⟩ : ∃ o st',
      Succeeds (lowerFunction (Run.passContext {} sampleSource) sampleFunction) blockState o st' :=
    exists_succeeds (by decide +kernel)
  obtain ⟨-, hadds, hpass⟩ := @lowerFunction_onlyAdds _ (Run.passContext {} sampleSource)
    (ExtractionContext.extractor_grows _) sampleFunction blockState (by decide)
  have hone := hadds 2 rfl
  rw [h] at hone
  obtain ⟨hregistered, -, hfound⟩ := hpass o st' h
  exact ⟨o, st', h, hone, hregistered 2 rfl, hfound (ExtractionContext.extractor_faithful _)⟩

end ParamLowering
