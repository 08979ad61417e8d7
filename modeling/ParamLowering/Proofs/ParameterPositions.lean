import ParamLowering.Proofs.DeclaredParameters
set_option autoImplicit false

/-!
The positions of parameters after a pass.

A parameter that the pass replaces is counted by argument slots, a plain name by its place in the
list as it is written. The two counts agree up to the first parameter that takes no slot, a
parameter `this` or a rest element.
-/

namespace ParamLowering

open ParamLowering.Tree

namespace Tree

/-- Whether a parameter takes an argument slot, wherever it stands. -/
def Target.takesSlot : Target → Bool
  | .name id .. => id.name ≠ "this"
  | .rest .. => false
  | .object .. | .array .. | .withDefault .. | .undeclared _ => true

theorem Target.slotsFrom_getElem? {place : Nat} {ts : List Target} {i j : Nat} {t : Target}
    (h : (Target.slotsFrom place ts)[i]? = some (t, j))
    (hslots : ∀ u ∈ ts.take (j - place), u.isRest = false) : j = place + i := by
  induction ts generalizing place i with
  | nil => cases h
  | cons u ts ih =>
    rw [slotsFrom] at h
    split at h
    · -- a rest element in front is not among those before the slot
      rename_i hu
      obtain ⟨-, m, hm, -⟩ := mem_slotsFrom (List.mem_of_getElem? h)
      have hfirst : u ∈ (u :: ts).take (j - place) := by
        rw [hm, Nat.add_assoc, Nat.add_sub_cancel_left, Nat.add_comm, List.take_succ_cons]
        exact List.mem_cons_self
      rw [hslots u hfirst] at hu
      cases hu
    · cases i with
      | zero =>
        obtain ⟨-, rfl⟩ := Prod.mk.inj (Option.some.inj h)
        rfl
      | succ i =>
        rw [List.getElem?_cons_succ] at h
        obtain ⟨-, m, hm, -⟩ := mem_slotsFrom (List.mem_of_getElem? h)
        rw [ih h fun v hv => hslots v ?_]
        · omega
        · have hcount : j - place = j - (place + 1) + 1 := by omega
          rw [hcount, List.take_succ_cons]
          exact List.mem_cons_of_mem u hv

/-- A slot has the number of its parameter if every parameter before it takes one. -/
theorem Target.slots_getElem? {ts : List Target} {i j : Nat} {t : Target}
    (h : (Target.slots ts)[i]? = some (t, j)) (hslots : ∀ u ∈ ts.take j, u.takesSlot = true) :
    j = i := by
  have hrest : ∀ u ∈ ts.take j, u.isRest = false := by
    intro u hu
    have htakes := hslots u hu
    cases u with
    | rest => cases htakes
    | name | object | array | withDefault | undeclared => rfl
  have hbehind : ∀ {u us i}, ts = u :: us → (Target.slotsFrom 1 us)[i]? = some (t, j) →
      u ∈ ts.take j ∧ j = i + 1 := by
    rintro u us i rfl h
    obtain ⟨-, m, rfl, -⟩ := mem_slotsFrom (List.mem_of_getElem? h)
    rw [Nat.add_comm 1 m, List.take_succ_cons] at hrest ⊢
    have hplace := slotsFrom_getElem? h fun v hv => hrest v (List.mem_cons_of_mem u (by
      rwa [Nat.add_sub_cancel_left] at hv))
    exact ⟨List.mem_cons_self, by omega⟩
  unfold slots at h
  split at h
  · rename_i id span notes us
    split at h
    · rename_i hthis
      have hfirst := hslots _ (hbehind rfl h).1
      simp [takesSlot, hthis] at hfirst
    · cases i with
      | zero =>
        obtain ⟨-, rfl⟩ := Prod.mk.inj (Option.some.inj h)
        rfl
      | succ i => exact (hbehind rfl h).2
  · rw [slotsFrom_getElem? h hrest, Nat.zero_add]

/-- The place of a slot tells its number. -/
theorem Target.slots_injective {ts : List Target} {i i' j : Nat} {t t' : Target}
    (h : (Target.slots ts)[i]? = some (t, j)) (h' : (Target.slots ts)[i']? = some (t', j)) :
    i = i' := by
  obtain ⟨hi, heq⟩ := List.getElem?_eq_some_iff.1 h
  obtain ⟨hi', heq'⟩ := List.getElem?_eq_some_iff.1 h'
  have hplaces := List.pairwise_iff_getElem.1 (Target.slots_places ts)
  rcases Nat.lt_trichotomy i i' with hlt | rfl | hlt
  · have hless := hplaces i i' hi hi' hlt
    rw [heq, heq'] at hless
    exact absurd hless (Nat.lt_irrefl j)
  · rfl
  · have hless := hplaces i' i hi' hi hlt
    rw [heq, heq'] at hless
    exact absurd hless (Nat.lt_irrefl j)

end Tree

/-! ### Names that one parameter binds -/

section

variable {params : List Target} {n : String} {j : Nat} {t : Target}

/-- Of a name that the parameter at place `j` alone binds, the walk declares this parameter, and
only if it is kept. -/
theorem FunctionScope.position_of_only {file : Nat} {lineAt : Nat → Nat} {name : Option String}
    {span bodySpan : Span} {body : List Node} {scope : ScopeId} {lowered : Bool} {st : Findings}
    (h : FunctionScope file lineAt name span params bodySpan body scope lowered st)
    (ht : params[j]? = some t) (hrest : t.isRest = false)
    (honly : ∀ j' t', params[j']? = some t' → n ∈ t'.names → j' = j) {e : Declaration}
    (he : st.scopes.get? scope n = some e) (hpos : e.position.isSome = true) :
    (!lowered || t.isName) = true ∧ e.position = some (.index j) := by
  obtain ⟨j', t', ht', hkept, hn, hposition⟩ := h.positions n e he hpos
  obtain rfl := honly j' t' ht' hn
  obtain rfl := Option.some.inj (ht.symm.trans ht')
  refine ⟨hkept, ?_⟩
  rw [hposition, Target.position, hrest]
  rfl

/-- A pass declares such a name with the number of its slot. -/
theorem FunctionNode.ReadsList.position_of_only {f : FunctionNode} (h : f.ReadsList params)
    {i : Nat} (hslot : (Target.slots params)[i]? = some (t, j))
    (honly : ∀ j' t', params[j']? = some t' → n ∈ t'.names → j' = j) {position : Position}
    (hbound : (n, position) ∈ f.replaced.flatMap (·.bound)) : position = .index i := by
  obtain ⟨hrest, ht⟩ := Target.mem_slots (List.mem_of_getElem? hslot)
  rcases (mem_bound h.count).1 hbound with ⟨i', p, hp, -, hn, rfl⟩ | ⟨r, hr, rfl, rfl⟩
  · obtain ⟨⟨t', j'⟩, hslot', hpattern⟩ := h.slot_of_param hp
    obtain ⟨-, ht'⟩ := Target.mem_slots (List.mem_of_getElem? hslot')
    obtain rfl := honly j' t' ht' ((Target.leaves_bare hpattern).1 hn)
    rw [Target.slots_injective hslot hslot']
  · obtain ⟨j', t', ht', hrest', hn⟩ := h.restRead r hr
    obtain rfl := honly j' t' ht' hn
    obtain rfl := Option.some.inj (ht.symm.trans ht')
    rw [hrest] at hrest'
    cases hrest'

end

theorem FunctionNode.isModern_of_bound {f : FunctionNode}
    (hcount : f.defaults.length ≤ f.params.length) {bound : String × Position}
    (h : bound ∈ f.replaced.flatMap (·.bound)) : f.isModern = true := by
  by_contra hplain
  rw [(replaced_eq_nil_iff hcount).2 (by simpa using hplain)] at h
  cases h

/-! ### Names taken -/

theorem NameSet.mem_addAll_taken {s : NameSet} {ids : List Ident} {id : Ident} (h : id ∈ ids) :
    id.name ∈ (s.addAll ids).taken := by
  rw [(addAll_history "" s ids).mem_taken_iff]
  exact .inr ⟨.mentioned id.name, List.mem_map_of_mem h, rfl⟩

namespace Discovery

variable {file : Nat} {lineAt : Nat → Nat} {statements : List Node} {k : Nat}
  {name : Option String} {span : Span} {params : List Target} {bodySpan : Span}
  {body : List Node}

/-- The names that a function binds in its list are taken after the walk. -/
theorem parameter_taken (names : NameSet)
    (hk : (openers (Node.nodesAll statements))[k]? =
      some (.function name span params bodySpan body)) {t : Target} (ht : t ∈ params) {n : String}
    (hn : n ∈ t.names) : n ∈ (ofStatements file lineAt statements names).names.taken := by
  obtain ⟨id, hid, rfl⟩ := List.mem_map.1 hn
  have hfunction : Node.function name span params bodySpan body ∈ Node.nodesAll statements :=
    List.mem_of_mem_filter (List.mem_of_getElem? hk)
  have hmentioned : id ∈ Target.identifiersAll params := Target.bound_subset_of_mem ht hid
  rw [names_ofStatements]
  exact NameSet.mem_addAll_taken (Node.identifiersAll_subset _ _ hfunction
    (List.mem_append_left _ hmentioned))

/-- A pass over a function behind passes over others finds in the scope of the function what the
walk left there. -/
theorem pass_registers {names : NameSet} {options : LoweringOptions} {source : List Char}
    {f : FunctionNode}
    (hscope : (ofStatements file lineAt statements names).scopes.scopeOf? f.id = some (k + 1))
    (hkind : (ofStatements file lineAt statements names).scopes.kindAt (k + 1) = some .function)
    {others : List FunctionNode}
    (hothers : ∀ g ∈ others, g ∈ (ofStatements file lineAt statements names).functions ∧
      (ofStatements file lineAt statements names).scopes.scopeOf? g.id ≠ some (k + 1))
    {o : Outcome} {st : PassState Unit}
    (h : Succeeds (lowerFunction (Run.passContext options source) f)
      (Lower.passes (Run.passContext options source) others
        (Run.passState (ofStatements file lineAt statements names))) o st) :
    ∃ mid : PassState Unit,
      LeavesScope (k + 1) (Run.passState (ofStatements file lineAt statements names)) mid ∧
      mid.scopes.kindAt (k + 1) = some .function ∧
      Registers (k + 1) (f.replaced.flatMap (·.bound)) mid st := by
  have hgrows : (Run.passContext options source).extractor.Grows :=
    ExtractionContext.extractor_grows _
  have hmid : LeavesScope (k + 1) (Run.passState (ofStatements file lineAt statements names)) _ :=
    Lower.passes_leavesScope hgrows fun g hg => by
      obtain ⟨hmem, hne⟩ := hothers g hg
      obtain ⟨s, hs, hskind⟩ := functions_scoped file lineAt statements names hmem
      exact ⟨s, hs, hskind, fun heq => hne (heq ▸ hs)⟩
  have hkind' := (hmid.kinds (k + 1)).trans hkind
  refine ⟨_, hmid, hkind', lowerFunction_registers hgrows (ExtractionContext.extractor_faithful _)
    ?_ hkind' h⟩
  rw [ScopeRegistry.scopeOf?, hmid.owners]
  exact hscope

/-- After its pass, what a function binds in one parameter only has a position. A plain name has its
place in the list as it is written, any other name the number of its slot; both are the number of
the slot if every parameter before takes one. -/
theorem parameter_position {names : NameSet} {options : LoweringOptions} {source : List Char}
    {f : FunctionNode} (hf : f ∈ (ofStatements file lineAt statements names).functions)
    (hk : (openers (Node.nodesAll statements))[k]? =
      some (.function name span params bodySpan body))
    (hscope : (ofStatements file lineAt statements names).scopes.scopeOf? f.id = some (k + 1))
    {others : List FunctionNode}
    (hothers : ∀ g ∈ others, g ∈ (ofStatements file lineAt statements names).functions ∧
      (ofStatements file lineAt statements names).scopes.scopeOf? g.id ≠ some (k + 1))
    {o : Outcome} {st : PassState Unit}
    (h : Succeeds (lowerFunction (Run.passContext options source) f)
      (Lower.passes (Run.passContext options source) others
        (Run.passState (ofStatements file lineAt statements names))) o st)
    {i j : Nat} {p : Param} {t : Target} {n : String} (hp : f.params[i]? = some p)
    (hslot : (Target.slots params)[i]? = some (t, j)) (hn : n ∈ p.pattern.leaves)
    (honly : ∀ j' t', params[j']? = some t' → n ∈ t'.names → j' = j)
    (hparam : ∀ e, (ofStatements file lineAt statements names).scopes.get? (k + 1) n = some e →
      e.position.isSome = true) :
    ∃ e, st.scopes.get? (k + 1) n = some e ∧
      e.position = some (.index (if t.isName then j else i)) ∧
      ((∀ u ∈ params.take j, u.takesSlot = true) → e.position = some (.index i)) := by
  obtain ⟨lowered, hfunction, hlowered, hread⟩ := function_read hf hk hscope
  have hlist : f.ReadsList params := (FunctionNode.readsList hread).renumber f.id
  obtain ⟨p', hp', hpattern⟩ := hlist.slot hslot
  obtain rfl : p = p' := Option.some.inj (hp.symm.trans hp')
  have hname : n ∈ t.names := (Target.leaves_bare hpattern).1 hn
  obtain ⟨hrest, ht⟩ := Target.mem_slots (List.mem_of_getElem? hslot)
  obtain ⟨mid, hmid, hkind, hregisters⟩ :=
    pass_registers hscope (kindAt_function file lineAt names hk) hothers h
  -- what is there before the pass comes from the walk
  have hwalk : ∀ e, mid.scopes.get? (k + 1) n = some e →
      (!lowered || t.isName) = true ∧ e.position = some (.index j) := by
    intro e he
    have hd := (hmid.same n).symm.trans he
    have hpos := hparam e hd
    have hwalked := (get?_ofStatements ..).symm.trans hd
    exact hfunction.position_of_only ht hrest honly hwalked hpos
  have hplace : (∀ u ∈ params.take j, u.takesSlot = true) → j = i := Target.slots_getElem? hslot
  suffices hposition : ∃ e, st.scopes.get? (k + 1) n = some e ∧
      e.position = some (.index (if t.isName then j else i)) by
    obtain ⟨e, he, hpos⟩ := hposition
    refine ⟨e, he, hpos, fun hslots => ?_⟩
    rw [hpos, hplace hslots, ite_self]
  cases hkept : t.isName with
  | true =>
    have hdeclared := hfunction.declared t (List.mem_of_getElem? ht) (by simp [hkept]) n hname
    rw [← get?_ofStatements] at hdeclared
    obtain ⟨e, he⟩ := Option.isSome_iff_exists.1 hdeclared
    have he' := (hmid.same n).trans he
    exact ⟨e, hregisters.stays n e he', (hwalk e he').2⟩
  | false =>
    have hbound := hlist.mem_bound_of_slot hslot hp hpattern hkept hn
    have htrue : lowered = true :=
      hlowered.trans (FunctionNode.isModern_of_bound hlist.count hbound)
    obtain ⟨e, he⟩ := Option.isSome_iff_exists.1 (hregisters.declared hkind _ hbound)
    have htaken := hmid.names (parameter_taken names hk (List.mem_of_getElem? ht) hname)
    refine ⟨e, he, ?_⟩
    rcases hregisters.positions n htaken e he with hold | ⟨position, hposition, hpos⟩
    · have hnot := (hwalk e hold).1
      rw [htrue, hkept] at hnot
      cases hnot
    · rw [hpos, hlist.position_of_only hslot honly hposition]
      rfl

end Discovery

/-- The list and the text of `function f(a, {b}, c, d = 1) {}` -/
def mixedParameters : List Target :=
  [.name ⟨"a", ⟨11, 12⟩⟩ ⟨11, 12⟩ [], .object ⟨14, 17⟩ [.shorthand ⟨"b", ⟨15, 16⟩⟩ none] [],
    .name ⟨"c", ⟨19, 20⟩⟩ ⟨19, 20⟩ [],
    .withDefault (.name ⟨"d", ⟨22, 23⟩⟩ ⟨22, 23⟩ []) (.group ⟨26, 27⟩ [])]

def mixedSource : List Char := "function f(a, \x7bb\x7d, c, d = 1) \x7b\x7d".toList

def mixedStatements : List Node :=
  [.group ⟨0, 31⟩ [.functionName ⟨"f", ⟨9, 10⟩⟩,
    .function (some "f") ⟨0, 31⟩ mixedParameters ⟨29, 31⟩ []]]

/-- The function as it is read. -/
def mixedFunction : FunctionNode where
  id := ⟨0, 0⟩
  name := some "f"
  span := ⟨0, 31⟩
  line := 1
  params := [⟨.ident "a" ⟨11, 12⟩, ⟨11, 12⟩⟩,
    ⟨.object ⟨14, 17⟩ [.mk (.ident "b") (.ident "b" ⟨15, 16⟩) none], ⟨14, 17⟩⟩,
    ⟨.ident "c" ⟨19, 20⟩, ⟨19, 20⟩⟩, ⟨.ident "d" ⟨22, 23⟩, ⟨22, 23⟩⟩]
  defaults := [⟨⟨26, 27⟩, none⟩]
  rest := none
  thisParam := none
  body := ⟨⟨29, 31⟩, none⟩

/-- The pattern, which a placeholder replaces, keeps the number of its slot. -/
theorem Discovery.parameter_position_mixed : ∃ o st,
    Succeeds (lowerFunction (Run.passContext {} mixedSource) mixedFunction)
      (Run.passState (ofStatements 0 (fun _ => 1) mixedStatements {})) o st ∧
    ∃ e, st.scopes.get? 1 "b" = some e ∧ e.position = some (.index 1) := by
  have hok : ((lowerFunction (Run.passContext {} mixedSource) mixedFunction).run.run
      (Run.passState (ofStatements 0 (fun _ => 1) mixedStatements {}))).1.isOk = true := by
    decide +kernel
  match h : (lowerFunction (Run.passContext {} mixedSource) mixedFunction).run.run
      (Run.passState (ofStatements 0 (fun _ => 1) mixedStatements {})), hok with
  | (.ok o, st), _ =>
    have honly : ∀ (j : Nat) (t : Target), mixedParameters[j]? = some t → "b" ∈ t.names → j = 1 := by
      rintro (_ | _ | _ | _ | j) t ht hn
      case succ.succ.succ.succ => cases ht
      all_goals
        obtain rfl := Option.some.inj ht
        revert hn
        decide
    have hnone : (ofStatements 0 (fun _ => 1) mixedStatements {}).scopes.get? 1 "b" = none := by
      decide +kernel
    obtain ⟨e, he, hpos, -⟩ := Discovery.parameter_position (k := 0) (n := "b") (i := 1)
      (List.mem_of_getElem? (i := 0) rfl) rfl rfl (List.forall_mem_nil _) h rfl rfl (by decide)
      honly (fun e he => by rw [hnone] at he; cases he)
    exact ⟨o, st, h, e, he, hpos⟩

/-- `function f(this: any, a, {b}) {}` -/
def countedSource : List Char := "function f(this: any, a, \x7bb\x7d) \x7b\x7d".toList

/-- The parameter `this` takes no slot, but the walk counts it: the kept name `a`, of slot 0, has
the position of `b`, of slot 1. -/
theorem Run.discover_counts_this :
    (Run.discover 0 "a.ts" countedSource NameSet.empty).map (fun d =>
      d.functions.map (·.params.map (·.pattern.leaves))) = some [[["a"], ["b"]]] ∧
    (Run.discover 0 "a.ts" countedSource NameSet.empty).map (fun d =>
      let answer := lowerEach (passContext {} countedSource) "a.ts" d.functions (passState d)
      (answer.1.isOk, answer.2.scopes.scopes.map (·.bindings.map fun b => (b.1, b.2.position)))) =
      some (true, [[("f", none)],
        [("this", some (.index 0)), ("a", some (.index 1)), ("b", some (.index 1))]]) := by
  decide +kernel

end ParamLowering
