import ParamLowering.Proofs.ParameterSlots
set_option autoImplicit false

/-!
The edits of a pass come in pairs.

Each replaced element gives a statement at the anchor and a removal from the list, in the order
of the list. No parameter is replaced twice: the numbers of those replaced increase.
-/

namespace ParamLowering

/-! ### Numbers of parameters -/

namespace Replaced

theorem patternsFrom_indices (index : Nat) (ps : List Param) :
    ((patternsFrom index ps).filterMap (·.position.index?)).Sublist
      (List.range' index ps.length) := by
  induction ps generalizing index with
  | nil => exact .slnil
  | cons p ps ih =>
    rw [patternsFrom, List.length_cons, List.range'_succ]
    cases p.pattern.isDestructuring with
    | true => exact (ih (index + 1)).cons_cons index
    | false => exact (ih (index + 1)).cons index

theorem defaultsFrom_indices (index : Nat) (ds : List (Param × DefaultValue)) :
    (defaultsFrom index ds).filterMap (·.position.index?) = List.range' index ds.length := by
  induction ds generalizing index with
  | nil => rfl
  | cons d ds ih =>
    rw [defaultsFrom, List.length_cons, List.range'_succ, ← ih (index + 1)]
    rfl

theorem patternsFrom_positions (index : Nat) (ps : List Param) :
    (patternsFrom index ps).map (·.position) =
      ((patternsFrom index ps).filterMap (·.position.index?)).map .index := by
  induction ps generalizing index with
  | nil => rfl
  | cons p ps ih =>
    rw [patternsFrom]
    cases p.pattern.isDestructuring with
    | true => exact congrArg _ (ih (index + 1))
    | false => exact ih (index + 1)

theorem defaultsFrom_positions (index : Nat) (ds : List (Param × DefaultValue)) :
    (defaultsFrom index ds).map (·.position) =
      ((defaultsFrom index ds).filterMap (·.position.index?)).map .index := by
  induction ds generalizing index with
  | nil => rfl
  | cons d ds ih => exact congrArg _ (ih (index + 1))

end Replaced

namespace FunctionNode

variable (f : FunctionNode)

/-- The numbers of the positional parameters that are replaced, in order. -/
def replacedIndices : List Nat := f.replaced.filterMap (·.position.index?)

theorem replacedIndices_eq : f.replacedIndices =
    (Replaced.patternsFrom 0 f.plain).filterMap (·.position.index?) ++
      (Replaced.defaultsFrom f.plain.length f.defaulted).filterMap (·.position.index?) := by
  rw [replacedIndices, replaced, List.filterMap_append, List.filterMap_append]
  cases f.rest <;> simp [Replaced.position, Position.index?]

theorem replaced_positions : f.replaced.map (·.position) =
    f.replacedIndices.map .index ++ (f.rest.map fun _ => Position.rest).toList := by
  rw [replacedIndices_eq, replaced, List.map_append, List.map_append, List.map_append,
    Replaced.patternsFrom_positions, Replaced.defaultsFrom_positions]
  cases f.rest <;> rfl

theorem replacedIndices_increasing : f.replacedIndices.Pairwise (· < ·) := by
  have hsub : f.replacedIndices.Sublist (List.range' 0 (f.plain.length + f.defaulted.length)) := by
    rw [replacedIndices_eq, Replaced.defaultsFrom_indices, ← List.range'_append_1, Nat.zero_add]
    exact (Replaced.patternsFrom_indices 0 f.plain).append (.refl _)
  exact List.Pairwise.sublist hsub List.pairwise_lt_range'

variable {f}

/-- The replaced parameters are the patterns without a default and all with one. -/
theorem mem_replacedIndices (hcount : f.defaults.length ≤ f.params.length) {i : Nat} :
    i ∈ f.replacedIndices ↔
      (i < f.params.length - f.defaults.length ∧
        ∃ p, f.params[i]? = some p ∧ p.pattern.isDestructuring = true) ∨
      (f.params.length - f.defaults.length ≤ i ∧ i < f.params.length) := by
  have hplain : f.plain.length = f.params.length - f.defaults.length := by
    rw [plain, List.length_take]
    omega
  have hdefaulted : f.defaulted.length = f.defaults.length := by
    rw [← map_snd_defaulted hcount, List.length_map]
  rw [replacedIndices_eq, List.mem_append, Replaced.defaultsFrom_indices, List.mem_range'_1,
    hplain, hdefaulted]
  -- what has a default is replaced whatever it is
  refine or_congr ?_ (by omega)
  simp only [List.mem_filterMap, Replaced.mem_patternsFrom, plain, List.getElem?_take]
  constructor
  · rintro ⟨el, ⟨j, p, hp, hpattern, rfl⟩, hj⟩
    obtain rfl := Option.some.inj hj
    rw [Nat.zero_add]
    split at hp
    · rename_i hlt
      exact ⟨hlt, p, hp, hpattern⟩
    · cases hp
  · rintro ⟨hlt, p, hp, hpattern⟩
    exact ⟨_, ⟨i, p, by rw [if_pos hlt, hp], hpattern, rfl⟩, by rw [Nat.zero_add]; rfl⟩

end FunctionNode

/-! ### Pairs -/

variable {σ : Type}

/-- What takes an element out of the list: a name in its place, or a deletion that ends behind it
or behind the comma that follows it. -/
def Replaced.RemovedBy (s : Subject) : Replaced → Edit → Prop
  | .pattern _ p, e => (∃ name, e = .replace p.span name .removal) ∨
    ∃ start, e = s.remove start p.span.stop
  | .defaulted _ _ d, e => ∃ start, e = s.remove start d.span.stop
  | .rest r, e => ∃ start, e = s.remove start r.span.stop

theorem Replaced.RemovedBy.kind {s : Subject} {el : Replaced} {e : Edit} (h : el.RemovedBy s e) :
    e.kind = .removal := by
  cases el with
  | pattern i p => obtain ⟨name, rfl⟩ | ⟨start, rfl⟩ := h <;> rfl
  | defaulted i p d => obtain ⟨start, rfl⟩ := h; rfl
  | rest r => obtain ⟨start, rfl⟩ := h; rfl

/-- The statement and the removal that replace an element. -/
structure Replaced.PairedBy (cx : PassContext σ) (s : Subject) (el : Replaced)
    (pair : String × Edit) : Prop where
  statement : Declares cx s.layout.paramCount s.layout.indent {} el pair.1
  kind : pair.2.kind = .removal
  removed : el.RemovedBy s pair.2

/-- The edits of pairs, with all statements at one place. -/
def Edit.ofPairs (anchor : Nat) (pairs : List (String × Edit)) : List Edit :=
  pairs.flatMap fun p => [.insertAt anchor p.1 .prologue, p.2]

theorem Edit.length_ofPairs (anchor : Nat) (pairs : List (String × Edit)) :
    (ofPairs anchor pairs).length = 2 * pairs.length := by
  induction pairs with
  | nil => rfl
  | cons p pairs ih =>
    rw [ofPairs, List.flatMap_cons, List.length_append, ← ofPairs, ih]
    simp only [List.length_cons, List.length_nil]
    omega

/-- The outcome of a pass that succeeds. -/
structure Outcome.Paired (cx : PassContext σ) (s : Subject) (o : Outcome) : Prop where
  /-- One pair for each replaced element. -/
  edits : ∃ pairs, o.edits = Edit.ofPairs s.layout.anchor pairs ∧
    List.Forall₂ (Replaced.PairedBy cx s) s.function.replaced pairs
  /-- First the elements for the numbers reported, then the rest parameter. -/
  elements : s.function.replaced.map (·.position) =
    o.replaced.map .index ++ if o.restReplaced then [.rest] else []
  increasing : o.replaced.Pairwise (· < ·)
  mem_replaced : ∀ i, i ∈ o.replaced ↔
    (i < s.function.params.length - s.function.defaults.length ∧
      ∃ p, s.function.params[i]? = some p ∧ p.pattern.isDestructuring = true) ∨
    (s.function.params.length - s.function.defaults.length ≤ i ∧ i < s.function.params.length)
  restReplaced : o.restReplaced = s.function.rest.isSome
  count : o.edits.length = 2 * (o.replaced.length + if o.restReplaced then 1 else 0)

namespace Lower

variable {cx : PassContext σ} {s : Subject} {st st' : PassState σ}

theorem Replaces.paired {el : Replaced} {r : Replacement} (h : Replaces cx s el st r st') :
    el.PairedBy cx s (r.prologue, r.removal) := by
  have hnone : ({} : NameSet).taken ⊆ st.names.taken := List.nil_subset _
  have hpair : Declares cx s.layout.paramCount s.layout.indent {} el r.prologue →
      el.RemovedBy s r.removal → el.PairedBy cx s (r.prologue, r.removal) :=
    fun hstatement hremoved => ⟨hstatement, hremoved.kind, hremoved⟩
  cases h with
  | @pattern index p _ _ _ h =>
    obtain ⟨hstatement, hslot, hgap⟩ := destructured_succeeds h
    refine hpair (hstatement.mono hnone) ?_
    cases hkeeps : s.keepsSlot index with
    | true =>
      obtain ⟨name, hname, -⟩ := hslot hkeeps
      exact .inl ⟨name, hname⟩
    | false => exact .inr ⟨_, (hgap hkeeps).1⟩
  | defaulted h =>
    obtain ⟨answer, u, hprologue, h⟩ := Succeeds.bind_iff.1 h
    obtain ⟨rfl, rfl⟩ := Succeeds.pure_iff.1 h
    exact hpair ((defaultedPrologue_succeeds hprologue).1.mono hnone) ⟨_, rfl⟩
  | rest hrest h =>
    simp only [restReplacement, hrest] at h
    obtain ⟨_, v, hregister, h⟩ := Succeeds.bind_iff.1 h
    obtain ⟨hr, -⟩ := Succeeds.pure_iff.1 h
    obtain ⟨rfl, -⟩ := List.cons.inj hr
    exact hpair rfl ⟨_, rfl⟩

theorem inTurn_positions {els : List Replaced} {rs : List Replacement}
    (h : InTurn (Replaces cx s) els st rs st') :
    rs.map (·.position) = els.map (·.position) := by
  induction h with
  | nil a => rfl
  | cons first rest ih => rw [List.map_cons, List.map_cons, ih, first.steps.1]

end Lower

section

variable {anchor : Nat} {rs : List Replacement} {f : FunctionNode}

theorem Outcome.ofReplacements_replaced
    (h : rs.map (·.position) = f.replaced.map (·.position)) :
    (ofReplacements anchor rs).replaced = f.replacedIndices := by
  have hindices := congrArg (List.filterMap Position.index?) h
  rwa [List.filterMap_map, List.filterMap_map] at hindices

theorem Outcome.ofReplacements_restReplaced
    (h : rs.map (·.position) = f.replaced.map (·.position)) :
    (ofReplacements anchor rs).restReplaced = f.rest.isSome := by
  have hrest := congrArg (List.any · (· == .rest)) h
  rw [f.replaced_positions, List.any_map, List.any_append, List.any_map] at hrest
  refine hrest.trans ?_
  cases f.rest <;> simp [Function.comp_def]

end

/-- The edits of a pass that succeeds are pairs, one for each element that it replaces. -/
theorem lowerFunction_pairs {cx : PassContext σ} {f : FunctionNode} {st st' : PassState σ}
    {o : Outcome} (h : Succeeds (lowerFunction cx f) st o st') :
    ∃ layout hoist, Layout.ofFunction f cx.source = .ok layout ∧
      o.Paired cx ⟨f, layout, hoist⟩ := by
  obtain ⟨layout, hoist, rs, hlayout, -, hturn, rfl⟩ := lowerFunction_inTurn h
  obtain ⟨hcount, -, -, -⟩ := ofFunction_eq_ok hlayout
  have hpositions := Lower.inTurn_positions hturn
  have hreplaced : (Outcome.ofReplacements layout.anchor rs).replaced = f.replacedIndices :=
    Outcome.ofReplacements_replaced hpositions
  have hrest : (Outcome.ofReplacements layout.anchor rs).restReplaced = f.rest.isSome :=
    Outcome.ofReplacements_restReplaced hpositions
  have hpairs : List.Forall₂ (Replaced.PairedBy cx ⟨f, layout, hoist⟩) f.replaced
      (rs.map fun r => (r.prologue, r.removal)) :=
    List.forall₂_map_right_iff.2 (hturn.forall₂ fun _ _ _ _ hr => hr.paired)
  have hedits : (Outcome.ofReplacements layout.anchor rs).edits =
      Edit.ofPairs layout.anchor (rs.map fun r => (r.prologue, r.removal)) := by
    rw [Edit.ofPairs, List.flatMap_map]
    rfl
  have helements : f.replaced.map (·.position) = f.replacedIndices.map .index ++
      if f.rest.isSome then [.rest] else [] := by
    rw [f.replaced_positions]
    cases f.rest <;> rfl
  refine ⟨layout, hoist, hlayout, ⟨_, hedits, hpairs⟩, ?_, ?_, ?_, hrest, ?_⟩
  · rw [hreplaced, hrest]
    exact helements
  · rw [hreplaced]
    exact f.replacedIndices_increasing
  · intro i
    rw [hreplaced]
    exact FunctionNode.mem_replacedIndices hcount
  · have hlength := congrArg List.length helements
    rw [List.length_map, List.length_append, List.length_map] at hlength
    rw [hedits, Edit.length_ofPairs, ← hpairs.length_eq, hreplaced, hrest, hlength]
    cases f.rest <;> rfl

end ParamLowering
