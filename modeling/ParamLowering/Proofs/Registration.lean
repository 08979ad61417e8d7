import ParamLowering.Proofs.LeafNames
import ParamLowering.Proofs.ScopeTree
import ParamLowering.Proofs.Unchanged
set_option autoImplicit false

/-!
What passes declare, and where.

A pass declares names in the scope of its function only, and what is declared stays. If it
succeeds, the names of all replaced elements are declared there; a name that was not declared
before and is none of its placeholders has the position of an element that binds it.
-/

namespace ParamLowering

/-! ### Registries -/

theorem Scope.get?_declare (s : Scope) (name n : String) (d : Declaration) :
    (s.declare name d).get? n = if n = name then some ((s.get? name).getD d) else s.get? n := by
  rw [declare]
  cases hname : s.get? name with
  | some e =>
    by_cases hn : n = name
    · simp [hn, hname]
    · simp [hn]
  | none =>
    have hlookup : s.bindings.lookup name = none := hname
    by_cases hn : n = name
    · simp [hn, Scope.get?, List.lookup_append, hlookup]
    · have hne : (n == name) = false := by simpa using hn
      simp [hn, hne, Scope.get?, List.lookup_append, List.lookup_cons]

namespace ScopeRegistry

variable (r : ScopeRegistry) (id other : ScopeId) (name n : String) (d : Declaration)

theorem get?_declare : (r.declare id name d).2.get? other n =
    if id = other ∧ other < r.size ∧ n = name then some ((r.get? other name).getD d)
    else r.get? other n := by
  rw [ScopeRegistry.get?, getElem?_declare, ScopeRegistry.get?, ScopeRegistry.get?]
  cases hs : r.scopes[other]? with
  | none =>
    have hge : r.size ≤ other := List.getElem?_eq_none_iff.1 hs
    simp only [Option.map_none, Option.bind_none, Option.getD_none]
    rw [if_neg fun h => Nat.not_lt.2 hge h.2.1]
  | some s =>
    have hlt : other < r.size := (List.getElem?_eq_some_iff.1 hs).1
    by_cases hid : id = other
    · simp [hid, hlt, Scope.get?_declare]
    · simp [hid]

theorem get?_declare_of_ne {id other : ScopeId} (h : id ≠ other) :
    (r.declare id name d).2.get? other n = r.get? other n := by
  rw [get?_declare, if_neg fun hall => h hall.1]

variable {r id other name n d}

/-- The first declaration of a name stays. -/
theorem get?_declare_of_some {e : Declaration} (h : r.get? other n = some e) :
    (r.declare id name d).2.get? other n = some e := by
  rw [get?_declare]
  split
  · rename_i hall
    rw [← hall.2.2, h, Option.getD_some]
  · exact h

theorem isSome_get?_declare (hid : id < r.size) :
    ((r.declare id name d).2.get? id name).isSome := by
  rw [get?_declare, if_pos ⟨rfl, hid, rfl⟩]
  rfl

/-- What is declared is the new declaration, or was there before. -/
theorem get?_declare_cases {e : Declaration} (h : (r.declare id name d).2.get? other n = some e) :
    r.get? other n = some e ∨ (id = other ∧ n = name ∧ e = d) := by
  rw [get?_declare] at h
  split at h
  · rename_i hall
    obtain ⟨hid, -, rfl⟩ := hall
    cases hn : r.get? other n with
    | none =>
      rw [hn] at h
      exact .inr ⟨hid, rfl, (Option.some.inj h).symm⟩
    | some old =>
      rw [hn] at h
      exact .inl h
  · exact .inl h

end ScopeRegistry

/-! ### Steps of a pass -/

section

variable {σ : Type} {hoist : ScopeId} {a b c : PassState σ}

/-- Declarations are added to one scope, behind those that it has, and no name is given back. -/
structure DeclaresIn (hoist : ScopeId) (a b : PassState σ) : Prop extends
    ScopesKept hoist a b where
  others : ∀ s n, s ≠ hoist → b.scopes.get? s n = a.scopes.get? s n
  stays : ∀ n d, a.scopes.get? hoist n = some d → b.scopes.get? hoist n = some d
  names : a.names.taken ⊆ b.names.taken

theorem DeclaresIn.of_eq (h : b.scopes = a.scopes) (hnames : a.names.taken ⊆ b.names.taken) :
    DeclaresIn hoist a b :=
  ⟨.of_eq h, fun s n _ => by rw [h], fun n d hd => by rw [h]; exact hd, hnames⟩

theorem DeclaresIn.trans (h : DeclaresIn hoist a b) (h' : DeclaresIn hoist b c) :
    DeclaresIn hoist a c where
  toScopesKept := h.toScopesKept.trans h'.toScopesKept
  others s n hs := (h'.others s n hs).trans (h.others s n hs)
  stays n d hd := h'.stays n d (h.stays n d hd)
  names := List.Subset.trans h.names h'.names

theorem DeclaresIn.of_declare {name : String} {d : Declaration}
    (h : b.scopes = (a.scopes.declare hoist name d).2) (hnames : a.names.taken ⊆ b.names.taken) :
    DeclaresIn hoist a b where
  toScopesKept := .of_declare h
  others s n hs := by rw [h, ScopeRegistry.get?_declare_of_ne _ _ _ _ hs.symm]
  stays n e he := by rw [h]; exact ScopeRegistry.get?_declare_of_some he
  names := hnames

theorem DeclaresIn.stepsKeep (cx : PassContext σ) (hgrows : cx.extractor.Grows) (hoist : ScopeId) :
    Lower.StepsKeep cx hoist (DeclaresIn hoist) where
  refl _ := .of_eq rfl (List.Subset.refl _)
  trans _ _ _ h h' := h.trans h'
  register _ _ name := keeps_modify fun a =>
    .of_declare rfl fun n hn => NameSet.mem_add_taken.2 (.inr hn)
  warn _ _ := keeps_modify fun _ => .of_eq rfl (List.Subset.refl _)
  extract pattern source := keeps_get_bind fun st => by
    have hsub := hgrows pattern source st.names st.extractor
    match cx.extractor.run pattern source st.names st.extractor, hsub with
    | (.ok x, names, state), hsub => exact .of_eq rfl hsub
    | (.error e, names, state), hsub => exact .of_eq rfl hsub
  placeholder _ _ := keeps_get_bind fun _ => .of_declare rfl (List.subset_cons_self _ _)

/-! ### Bound names -/

/-- The names that a replaced element binds, with the position of each. -/
def Replaced.bound : Replaced → List (String × Position)
  | .pattern i p | .defaulted i p _ => p.pattern.leaves.map (·, .index i)
  | .rest r => [(r.name, .rest)]

/-- A step that declares names, each with its position; whatever else it declares was a free
name before. -/
structure Registers (hoist : ScopeId) (bs : List (String × Position)) (a b : PassState σ) :
    Prop extends DeclaresIn hoist a b where
  declared : a.scopes.kindAt hoist = some .function → ∀ p ∈ bs, (b.scopes.get? hoist p.1).isSome
  positions : ∀ n ∈ a.names.taken, ∀ d, b.scopes.get? hoist n = some d →
    a.scopes.get? hoist n = some d ∨ ∃ p, (n, p) ∈ bs ∧ d.position = some p

namespace Registers

variable {xs ys : List (String × Position)}

theorem of_eq (h : b.scopes = a.scopes) (hnames : a.names.taken ⊆ b.names.taken) :
    Registers hoist [] a b :=
  ⟨.of_eq h hnames, by simp, fun n _ d hd => .inl (h ▸ hd)⟩

theorem append (hx : Registers hoist xs a b) (hy : Registers hoist ys b c) :
    Registers hoist (xs ++ ys) a c where
  toDeclaresIn := hx.toDeclaresIn.trans hy.toDeclaresIn
  declared hhoist p hp := by
    rcases List.mem_append.1 hp with hp | hp
    · obtain ⟨d, hd⟩ := Option.isSome_iff_exists.1 (hx.declared hhoist p hp)
      exact Option.isSome_iff_exists.2 ⟨d, hy.stays p.1 d hd⟩
    · exact hy.declared ((hx.kinds hoist).trans hhoist) p hp
  positions n hn d hd := by
    rcases hy.positions n (hx.names hn) d hd with hd | ⟨p, hp, hpos⟩
    · rcases hx.positions n hn d hd with hd | ⟨p, hp, hpos⟩
      · exact .inl hd
      · exact .inr ⟨p, List.mem_append_left _ hp, hpos⟩
    · exact .inr ⟨p, List.mem_append_right _ hp, hpos⟩

theorem of_declare {name : String} {d : Declaration} {p : Position}
    (h : b.scopes = (a.scopes.declare hoist name d).2) (hnames : a.names.taken ⊆ b.names.taken)
    (hd : d.position = some p) : Registers hoist [(name, p)] a b where
  toDeclaresIn := .of_declare h hnames
  declared hhoist q hq := by
    rw [List.mem_singleton.1 hq, h]
    exact ScopeRegistry.isSome_get?_declare (ScopeRegistry.lt_size_of_kindAt hhoist)
  positions n _ e he := by
    rw [h] at he
    rcases ScopeRegistry.get?_declare_cases he with he | ⟨-, rfl, rfl⟩
    · exact .inl he
    · exact .inr ⟨p, by simp, hd⟩

end Registers

end

/-! ### Passes -/

namespace Lower

variable {σ : Type} {cx : PassContext σ} {s : Subject} {st st' : PassState σ}

theorem register_registers {hoist : ScopeId} {origin : Span} {position : Position} {name : String}
    {u : Unit} (h : Succeeds (register (σ := σ) hoist origin position name) st u st') :
    Registers hoist [(name, position)] st st' := by
  obtain rfl := Succeeds.modify_iff.1 h
  exact .of_declare rfl (fun n hn => NameSet.mem_add_taken.2 (.inr hn)) rfl

theorem registerAll_registers {hoist : ScopeId} {origin : Span} {position : Position}
    {names : List String} {u : Unit}
    (h : Succeeds (registerAll (σ := σ) hoist origin position names) st u st') :
    Registers hoist (names.map (·, position)) st st' := by
  induction names generalizing st with
  | nil =>
    obtain ⟨-, rfl⟩ := Succeeds.pure_iff.1 h
    exact .of_eq rfl (List.Subset.refl _)
  | cons name names ih =>
    obtain ⟨_, v, hfirst, hmore⟩ := Succeeds.bind_iff.1 h
    exact (register_registers hfirst).append (ih hmore)

theorem placeholder_registers {hoist : ScopeId} {origin : Span} {index : Nat} {name : String}
    (h : Succeeds (placeholder cx hoist origin index) st name st') :
    Registers hoist [] st st' := by
  obtain ⟨a, st₁, hget, h⟩ := Succeeds.bind_iff.1 h
  obtain ⟨rfl, rfl⟩ := Succeeds.get_iff.1 hget
  obtain ⟨_, st₂, hset, h⟩ := Succeeds.bind_iff.1 h
  obtain rfl := Succeeds.set_iff.1 hset
  obtain ⟨rfl, rfl⟩ := Succeeds.pure_iff.1 h
  refine ⟨.of_declare rfl (List.subset_cons_self _ _), by simp, fun n hn d hd => ?_⟩
  rcases ScopeRegistry.get?_declare_cases hd with hd | ⟨-, rfl, -⟩
  · exact .inl hd
  · -- a placeholder is none of the names taken before
    exact absurd hn (NameSet.fresh_notMem _ _)

variable (hfaithful : cx.extractor.Faithful)

include hfaithful

theorem leafNames_of_extract {pattern : Pattern} {source : SourceExpr} {x : Extraction}
    (h : Succeeds (Lower.extract cx pattern source) st x st') : x.leafNames = pattern.leaves :=
  hfaithful _ _ _ _ _ _ _ (extract_succeeds h)

/-- The names that an element is found to bind are those that it binds. -/
theorem Asks.bound {el : Replaced} {names : List String} (h : Asks cx el st names st') :
    names.map (·, el.position) = el.bound := by
  cases el with
  | pattern i p =>
    obtain ⟨x, hextract, rfl⟩ := h
    rw [leafNames_of_extract hfaithful hextract]
    rfl
  | defaulted i p d =>
    obtain ⟨pattern, span⟩ := p
    cases pattern with
    | ident name nameSpan =>
      obtain ⟨rfl, -⟩ := h
      rfl
    | object | array =>
      obtain ⟨text, x, -, hextract, rfl⟩ := h
      rw [leafNames_of_extract hfaithful hextract]
      rfl
  | rest r =>
    obtain ⟨rfl, -⟩ := h
    rfl

variable (hgrows : cx.extractor.Grows)

include hgrows

theorem Replaces.registers {el : Replaced} {r : Replacement} (h : Replaces cx s el st r st') :
    Registers s.hoist el.bound st st' := by
  obtain ⟨-, u, v, hasks, hregister, hslot⟩ := h.steps
  have hnames := registerAll_registers hregister
  rw [hasks.bound hfaithful] at hnames
  have hplaceholder : Registers s.hoist [] v st' := by
    rcases hslot with rfl | ⟨origin, index, name, hname⟩
    · exact .of_eq rfl (List.Subset.refl _)
    · exact placeholder_registers hname
  obtain ⟨hscopes, hsub⟩ := hasks.keeps hgrows
  have hasked : Registers s.hoist [] st u := .of_eq hscopes hsub
  simpa using (hasked.append hnames).append hplaceholder

/-- A pass that succeeds declares the names of all elements that it replaces. -/
theorem inTurn_registers {els : List Replaced} {rs : List Replacement}
    (h : InTurn (Replaces cx s) els st rs st') :
    Registers s.hoist (els.flatMap (·.bound)) st st' := by
  induction h with
  | nil a => exact .of_eq rfl (List.Subset.refl _)
  | cons first rest ih => exact (first.registers hfaithful hgrows).append ih

end Lower

section

variable {σ : Type} {cx : PassContext σ} {f : FunctionNode} {scope : ScopeId}
  {st st' : PassState σ}

/-- A pass declares names in the scope of its function only, also if it fails. -/
theorem lowerFunction_declaresIn (hgrows : cx.extractor.Grows) (f : FunctionNode)
    (scope : ScopeId) : Keeps (fun a b => a.scopes.scopeOf? f.id = some scope →
      a.scopes.kindAt scope = some .function → DeclaresIn scope a b) (lowerFunction cx f) := by
  intro a hscope hkind
  have hpass := lowerFunction_keeps hscope (DeclaresIn.stepsKeep cx hgrows _)
  rwa [ScopeRegistry.closestHoist_function hkind] at hpass

theorem lowerFunction_registers (hgrows : cx.extractor.Grows) (hfaithful : cx.extractor.Faithful)
    (hscope : st.scopes.scopeOf? f.id = some scope)
    (hkind : st.scopes.kindAt scope = some .function) {o : Outcome}
    (h : Succeeds (lowerFunction cx f) st o st') :
    Registers scope (f.replaced.flatMap (·.bound)) st st' := by
  obtain ⟨layout, hoist, rs, -, hhoist, hturn, -⟩ := lowerFunction_inTurn h
  obtain rfl : hoist = scope :=
    (hhoist scope hscope).trans (ScopeRegistry.closestHoist_function hkind)
  exact Lower.inTurn_registers hfaithful hgrows hturn

/-- What passes over other functions leave of a scope: all of it. -/
structure LeavesScope (scope : ScopeId) (a b : PassState σ) : Prop where
  owners : b.scopes.owners = a.scopes.owners
  kinds : ∀ id, b.scopes.kindAt id = a.scopes.kindAt id
  same : ∀ n, b.scopes.get? scope n = a.scopes.get? scope n
  names : a.names.taken ⊆ b.names.taken

theorem LeavesScope.refl (scope : ScopeId) (a : PassState σ) : LeavesScope scope a a :=
  ⟨rfl, fun _ => rfl, fun _ => rfl, List.Subset.refl _⟩

theorem LeavesScope.trans {a b c : PassState σ} (h : LeavesScope scope a b)
    (h' : LeavesScope scope b c) : LeavesScope scope a c :=
  ⟨h'.owners.trans h.owners, fun id => (h'.kinds id).trans (h.kinds id),
    fun n => (h'.same n).trans (h.same n), List.Subset.trans h.names h'.names⟩

/-- A function that has a function scope, and not this one. -/
def ScopeRegistry.Elsewhere (r : ScopeRegistry) (scope : ScopeId) (f : FunctionNode) : Prop :=
  ∃ other, r.scopeOf? f.id = some other ∧ r.kindAt other = some .function ∧ other ≠ scope

theorem Lower.passes_leavesScope (hgrows : cx.extractor.Grows) {fs : List FunctionNode}
    (h : ∀ f ∈ fs, st.scopes.Elsewhere scope f) : LeavesScope scope st (Lower.passes cx fs st) := by
  induction fs generalizing st with
  | nil => exact .refl scope st
  | cons f fs ih =>
    obtain ⟨⟨other, hother, hkind, hne⟩, hfs⟩ := List.forall_mem_cons.1 h
    have hpass := lowerFunction_declaresIn hgrows f other st hother hkind
    have hone : LeavesScope scope st ((lowerFunction cx f).run.run st).2 :=
      ⟨hpass.owners, hpass.kinds, fun n => hpass.others scope n hne.symm, hpass.names⟩
    refine hone.trans (ih fun g hg => ?_)
    obtain ⟨t, ht, htkind, htne⟩ := hfs g hg
    exact ⟨t, by rw [ScopeRegistry.scopeOf?, hone.owners]; exact ht, (hone.kinds t).trans htkind, htne⟩

/-- What no pass takes back: every declaration, and which scopes there are. -/
structure KeepsDeclared (a b : PassState σ) : Prop where
  owners : b.scopes.owners = a.scopes.owners
  kinds : ∀ id, b.scopes.kindAt id = a.scopes.kindAt id
  stays : ∀ s n d, a.scopes.get? s n = some d → b.scopes.get? s n = some d

theorem KeepsDeclared.refl (a : PassState σ) : KeepsDeclared a a :=
  ⟨rfl, fun _ => rfl, fun _ _ _ hd => hd⟩

theorem KeepsDeclared.trans {a b c : PassState σ} (h : KeepsDeclared a b)
    (h' : KeepsDeclared b c) : KeepsDeclared a c :=
  ⟨h'.owners.trans h.owners, fun id => (h'.kinds id).trans (h.kinds id),
    fun s n d hd => h'.stays s n d (h.stays s n d hd)⟩

theorem KeepsDeclared.scopeOf? {a b : PassState σ} (h : KeepsDeclared a b) {id : FunctionId}
    (hs : a.scopes.scopeOf? id = some scope) : b.scopes.scopeOf? id = some scope := by
  rw [ScopeRegistry.scopeOf?, h.owners]
  exact hs

theorem DeclaresIn.keepsDeclared {a b : PassState σ} (h : DeclaresIn scope a b) :
    KeepsDeclared a b where
  owners := h.owners
  kinds := h.kinds
  stays s n d hd := by
    by_cases hs : s = scope
    · subst hs
      exact h.stays n d hd
    · rw [h.others s n hs, hd]

theorem Lower.passes_keepsDeclared (hgrows : cx.extractor.Grows) {fs : List FunctionNode}
    (h : ∀ f ∈ fs, ∃ s, st.scopes.scopeOf? f.id = some s ∧ st.scopes.kindAt s = some .function) :
    KeepsDeclared st (Lower.passes cx fs st) := by
  induction fs generalizing st with
  | nil => exact .refl st
  | cons f fs ih =>
    obtain ⟨⟨s, hs, hkind⟩, hfs⟩ := List.forall_mem_cons.1 h
    have hone := (lowerFunction_declaresIn hgrows f s st hs hkind).keepsDeclared
    refine hone.trans (ih fun g hg => ?_)
    obtain ⟨t, ht, htkind⟩ := hfs g hg
    exact ⟨t, hone.scopeOf? ht, (hone.kinds t).trans htkind⟩

end

/-- If all passes succeed, the state is that after passes that may fail. -/
theorem Run.lowerEach_passes {cx : PassContext Unit} {file : String} {fs : List FunctionNode}
    {st st' : PassState Unit} {outcomes : List Outcome}
    (h : Run.lowerEach cx file fs st = (.ok outcomes, st')) : st' = Lower.passes cx fs st := by
  induction fs generalizing st outcomes with
  | nil => exact (Prod.mk.inj h).2.symm
  | cons g fs ih =>
    unfold Run.lowerEach at h
    split at h
    · cases h
    · rename_i o u ho
      split at h
      · cases h
      · rename_i os v hos
        obtain ⟨-, rfl⟩ := Prod.mk.inj h
        rw [ih hos, Lower.passes, Lower.passes, List.foldl_cons, ho]

/-- One of several passes that all succeed, with those before it and those after it. -/
theorem Run.lowerEach_at {cx : PassContext Unit} {file : String} {fs : List FunctionNode}
    {f : FunctionNode} (hf : f ∈ fs) {st st' : PassState Unit} {outcomes : List Outcome}
    (h : Run.lowerEach cx file fs st = (.ok outcomes, st')) :
    ∃ before after o u, fs = before ++ f :: after ∧
      Succeeds (lowerFunction cx f) (Lower.passes cx before st) o u ∧
      st' = Lower.passes cx after u := by
  induction fs generalizing st outcomes with
  | nil => cases hf
  | cons g fs ih =>
    unfold Run.lowerEach at h
    split at h
    · cases h
    · rename_i o u ho
      split at h
      · cases h
      · rename_i os v hos
        obtain ⟨-, rfl⟩ := Prod.mk.inj h
        rcases List.mem_cons.1 hf with rfl | hf
        · exact ⟨[], fs, o, u, rfl, ho, Run.lowerEach_passes hos⟩
        · obtain ⟨before, after, o', u', rfl, hsucceeds, rfl⟩ := ih hf hos
          refine ⟨g :: before, after, o', u', rfl, ?_, rfl⟩
          rw [Lower.passes, List.foldl_cons, ho]
          exact hsucceeds

end ParamLowering
