import ParamLowering.Lowering.Declaration
import ParamLowering.Proofs.Fresh
import ParamLowering.Proofs.Success
set_option autoImplicit false

/-!
Extraction as plain emission.

Waiting definitions are read where they stand, so a step of extraction only appends bindings to
those before it. The declaration that is written has the bindings in that same order.
-/

namespace ParamLowering

/-- A declaration as a straight-line program: assignments in order, then names set to `null`. -/
structure Program where
  assignments : List (String × Initializer)
  cleared : List String

def Program.render (p : Program) : String :=
  (if p.assignments.isEmpty then ""
    else "var " ++ ", ".intercalate (p.assignments.map fun a => s!"{a.1} = {a.2.render}") ++ ";") ++
    String.join (p.cleared.map fun name => s!"{name} = null;")

def Definition.binding? (d : Definition) : Option Binding :=
  d.target.name?.map fun name => { name, init := .read d.temporary d.accessor }

namespace Extraction

/-- Every definition fills a name. -/
def Simple (x : Extraction) : Prop := ∀ d ∈ x.definitions, d.target.name?.isSome

/-- The bindings, then the definitions as bindings. -/
def ordered (x : Extraction) : List Binding :=
  x.bindings ++ x.definitions.filterMap (·.binding?)

def program (x : Extraction) (cleanup : Bool) : Program where
  assignments := x.ordered.map fun b => (b.name, b.init)
  cleared := if cleanup then (x.bindings.filter (·.needsCleanup)).map (·.name) else []

theorem simple_bindings (bs : List Binding) : Simple ⟨bs, []⟩ := by simp [Simple]

@[simp] theorem ordered_bindings (bs : List Binding) : ordered ⟨bs, []⟩ = bs := by simp [ordered]

theorem settled_eq {ds : List Definition} (h : ∀ d ∈ ds, d.target.name?.isSome) :
    settled ds = .ok (ds.filterMap (·.binding?)) := by
  induction ds with
  | nil => rfl
  | cons d ds ih =>
    obtain ⟨hd, hds⟩ := List.forall_mem_cons.1 h
    obtain ⟨target, temporary, accessor⟩ := d
    cases target with
    | ident name span => simp [settled, simpleTarget, ih hds, Definition.binding?, Pattern.name?]
    | object span props => simp [Pattern.name?] at hd
    | array span elements rest => simp [Pattern.name?] at hd

/-- A binding goes behind everything, however it was waiting. -/
theorem bind_eq {x : Extraction} (h : x.Simple) (b : Binding) :
    x.bind b = .ok { bindings := x.ordered ++ [b], definitions := [] } := by
  rw [Extraction.bind, settled_eq h]
  rfl

theorem simple_defer {x : Extraction} (h : x.Simple) (name : String) (span : Span)
    (temporary : String) (accessor : Accessor) :
    (x.defer ⟨.ident name span, temporary, accessor⟩).Simple := by
  intro d hd
  rcases List.mem_append.1 hd with hd | hd
  · exact h d hd
  · rw [List.mem_singleton.1 hd]; rfl

theorem ordered_defer (x : Extraction) (name : String) (span : Span) (temporary : String)
    (accessor : Accessor) :
    (x.defer ⟨.ident name span, temporary, accessor⟩).ordered =
      x.ordered ++ [{ name, init := .read temporary accessor }] := by
  simp [defer, ordered, Definition.binding?, Pattern.name?]

theorem definitionItem_ident (name : String) (span : Span) (temporary : String)
    (accessor : Accessor) :
    definitionItem ⟨.ident name span, temporary, accessor⟩ =
      .ok (bindingItem { name, init := .read temporary accessor }) := by
  change Except.ok (name ++ " = " ++ temporary ++ accessor.render) =
    Except.ok (name ++ " = " ++ (temporary ++ accessor.render))
  rw [String.append_assoc]

theorem mapM_definitionItem {ds : List Definition} (h : ∀ d ∈ ds, d.target.name?.isSome) :
    ds.mapM definitionItem = .ok ((ds.filterMap (·.binding?)).map bindingItem) := by
  induction ds with
  | nil => rfl
  | cons d ds ih =>
    obtain ⟨hd, hds⟩ := List.forall_mem_cons.1 h
    obtain ⟨target, temporary, accessor⟩ := d
    cases target with
    | ident name span =>
      rw [List.mapM_cons, ih hds, definitionItem_ident]
      rfl
    | object span props => simp [Pattern.name?] at hd
    | array span elements rest => simp [Pattern.name?] at hd

theorem items_eq {x : Extraction} (h : x.Simple) : x.items = .ok (x.ordered.map bindingItem) := by
  rw [items, mapM_definitionItem h, ordered, List.map_append]
  rfl

/-- The declaration is the text of its program. -/
theorem declaration_eq {x : Extraction} (h : x.Simple) (indent : String) (cleanup : Bool) :
    x.declaration indent cleanup = .ok ((x.program cleanup).render ++ indent) := by
  have hrender : x.declaration indent cleanup = .ok
      ((if (x.ordered.map bindingItem).isEmpty then ""
        else "var " ++ ", ".intercalate (x.ordered.map bindingItem) ++ ";") ++
      String.join ((if cleanup then x.bindings.filter (·.needsCleanup) else []).map
        fun b => s!"{b.name} = null;") ++ indent) := by
    rw [declaration, items_eq h]
    rfl
  have hitem : bindingItem = fun b => s!"{b.name} = {b.init.render}" := rfl
  rw [hrender, program, Program.render]
  cases cleanup <;> simp [Function.comp_def, hitem]

end Extraction

/-- A run of extraction from one state to another appends bindings. Each fills a leaf of the
pattern or a temporary that was free before. -/
structure Emission (leaves : List String) (s t : ExtractionState) (bs : List Binding) : Prop where
  simple : t.out.Simple
  ordered : t.out.ordered = s.out.ordered ++ bs
  grows : s.names.taken ⊆ t.names.taken
  named : ∀ b ∈ bs, (b.needsCleanup = false ∧ b.name ∈ leaves) ∨
    (b.needsCleanup = true ∧ b.name ∉ s.names.taken ∧ b.name ∈ t.names.taken)

namespace Emission

variable {leaves : List String} {s t u : ExtractionState} {xs ys : List Binding}

theorem nil (h : s.out.Simple) : Emission leaves s s [] :=
  ⟨h, by simp, List.Subset.refl _, by simp⟩

theorem append (hx : Emission leaves s t xs) (hy : Emission leaves t u ys) :
    Emission leaves s u (xs ++ ys) where
  simple := hy.simple
  ordered := by rw [hy.ordered, hx.ordered, List.append_assoc]
  grows := List.Subset.trans hx.grows hy.grows
  named := by
    intro b hb
    rcases List.mem_append.1 hb with hb | hb
    · exact (hx.named b hb).imp_right fun h => ⟨h.1, h.2.1, hy.grows h.2.2⟩
    · exact (hy.named b hb).imp_right fun h => ⟨h.1, fun hmem => h.2.1 (hx.grows hmem), h.2.2⟩

end Emission

namespace Extracting

variable {leaves : List String} {s t : ExtractionState}

theorem bind_succeeds (h : s.out.Simple) {b : Binding} {u : Unit} :
    Succeeds (Extracting.bind b) s u t ↔
      { s with out := { bindings := s.out.ordered ++ [b], definitions := [] } } = t := by
  rw [Extracting.bind, Succeeds.bind_iff]
  constructor
  · rintro ⟨a, s', hget, hset⟩
    obtain ⟨rfl, rfl⟩ := Succeeds.get_iff.1 hget
    rw [Extraction.bind_eq h] at hset
    exact Succeeds.set_iff.1 hset
  · rintro rfl
    refine ⟨s, s, Succeeds.get_iff.2 ⟨rfl, rfl⟩, ?_⟩
    rw [Extraction.bind_eq h]
    exact Succeeds.set_iff.2 rfl

theorem temporary_succeeds (h : s.out.Simple) (stem : String) (init : Initializer) :
    Succeeds (Extracting.temporary stem init) s (s.names.fresh stem).1
      { names := (s.names.fresh stem).2, out := { bindings := s.out.ordered ++
          [{ name := (s.names.fresh stem).1, init, needsCleanup := true, generated := true }] } } := by
  refine Succeeds.bind_iff.2 ⟨s, s, Succeeds.get_iff.2 ⟨rfl, rfl⟩, ?_⟩
  refine Succeeds.bind_iff.2 ⟨⟨⟩, _, Succeeds.set_iff.2 rfl, ?_⟩
  refine Succeeds.bind_iff.2 ⟨(), _, (bind_succeeds (by exact h)).2 rfl, ?_⟩
  exact Succeeds.pure_iff.2 ⟨rfl, rfl⟩

theorem bind_emission (h : s.out.Simple) {b : Binding} {u : Unit}
    (hb : b.needsCleanup = false ∧ b.name ∈ leaves)
    (hrun : Succeeds (Extracting.bind b) s u t) : Emission leaves s t [b] := by
  obtain rfl := (bind_succeeds h).1 hrun
  refine ⟨Extraction.simple_bindings _, Extraction.ordered_bindings _, List.Subset.refl _, ?_⟩
  intro b' hb'
  rw [List.mem_singleton.1 hb']
  exact .inl hb

theorem defer_emission (h : s.out.Simple) {name : String} {span : Span} {temporary : String}
    {accessor : Accessor} {u : Unit} (hname : name ∈ leaves)
    (hrun : Succeeds (Extracting.defer ⟨.ident name span, temporary, accessor⟩) s u t) :
    Emission leaves s t [{ name, init := .read temporary accessor }] := by
  obtain rfl := Succeeds.modify_iff.1 hrun
  refine ⟨Extraction.simple_defer h _ _ _ _, Extraction.ordered_defer _ _ _ _ _,
    List.Subset.refl _, ?_⟩
  intro b hb
  rw [List.mem_singleton.1 hb]
  exact .inl ⟨rfl, hname⟩

theorem temporary_emission (leaves : List String) (h : s.out.Simple) {stem name : String}
    {init : Initializer}
    (hrun : Succeeds (Extracting.temporary stem init) s name t) :
    (∃ k, name = NameSet.numbered stem k) ∧ name ∉ s.names.taken ∧ name ∈ t.names.taken ∧
      Emission leaves s t [{ name, init, needsCleanup := true, generated := true }] := by
  obtain ⟨hname, rfl⟩ := Prod.mk.inj ((temporary_succeeds h stem init).symm.trans hrun)
  obtain rfl := Except.ok.inj hname
  have hnew := NameSet.fresh_notMem s.names stem
  have hmem : (s.names.fresh stem).1 ∈ (s.names.fresh stem).2.taken := List.mem_cons_self
  refine ⟨⟨_, rfl⟩, hnew, hmem, Extraction.simple_bindings _, Extraction.ordered_bindings _,
    List.subset_cons_self _ _, ?_⟩
  intro b hb
  rw [List.mem_singleton.1 hb]
  exact .inr ⟨rfl, hnew, hmem⟩

end Extracting

end ParamLowering
