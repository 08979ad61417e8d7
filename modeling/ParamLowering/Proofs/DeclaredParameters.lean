import ParamLowering.Proofs.Nesting
import ParamLowering.Proofs.ParameterSlots
set_option autoImplicit false

/-!
The walk and the passes together declare every parameter.

The walk declares the parameters of a list that stays and the plain names of a list that is going
to be lowered; the pass declares the rest of them. No name is left between the two, whether the
function is returned, refused or hidden in the list of another one.
-/

namespace ParamLowering

open ParamLowering.Tree

/-- A list with at most one rest element, and at most one in each array pattern. -/
structure Tree.Target.OneRest (params : List Target) : Prop where
  list : (params.filter (·.isRest)).length ≤ 1
  arrays : ∀ t ∈ params, t.restsOnce = true

namespace FunctionNode.ReadsList

variable {f : FunctionNode} {params : List Target} {n : String}

/-- A parameter with a slot that is not a plain name is replaced. -/
theorem mem_bound_of_slot (h : f.ReadsList params) {i : Nat} {slot : Target × Nat} {p : Param}
    (hslot : (Target.slots params)[i]? = some slot) (hp : f.params[i]? = some p)
    (hpattern : slot.1.bare.pattern = .ok p.pattern) (hname : slot.1.isName = false)
    (hn : n ∈ p.pattern.leaves) : (n, Position.index i) ∈ f.replaced.flatMap (·.bound) := by
  have hreplaced : p.pattern.isDestructuring = true ∨ f.plain.length ≤ i :=
    (Target.isDestructuring_or_default hpattern hname).imp_right (h.defaulted i slot hslot).1
  exact (mem_bound h.count).2 (.inl ⟨i, p, hp, hreplaced, hn, rfl⟩)

/-- A name of a parameter that does not stay is a name of a replaced element. -/
theorem replaces (h : f.ReadsList params) (honce : Target.OneRest params) {t : Target}
    (ht : t ∈ params) (hname : t.isName = false) (hn : n ∈ t.names) :
    ∃ position, (n, position) ∈ f.replaced.flatMap (·.bound) := by
  cases hrest : t.isRest with
  | true =>
    obtain ⟨r, hr, hnames⟩ := h.restKept honce.list t ht hrest
    rw [hnames, List.mem_singleton] at hn
    exact ⟨.rest, (mem_bound h.count).2 (.inr ⟨r, hr, hn, rfl⟩)⟩
  | false =>
    obtain ⟨slot, hslot, rfl⟩ := List.mem_map.1 (Target.exists_slot ht hrest hname)
    obtain ⟨i, hi⟩ := List.getElem?_of_mem hslot
    obtain ⟨p, hp, hpattern⟩ := h.slot hi
    have hleaf : n ∈ p.pattern.leaves := (Target.leaves_bare hpattern).2 (honce.arrays _ ht) hn
    exact ⟨.index i, h.mem_bound_of_slot hi hp hpattern hname hleaf⟩

end FunctionNode.ReadsList

namespace Discovery

variable (file : Nat) (lineAt : Nat → Nat) (statements : List Node) (names : NameSet)

/-- Every function returned has a function scope. -/
theorem functions_scoped {f : FunctionNode}
    (hf : f ∈ (ofStatements file lineAt statements names).functions) :
    ∃ s, (ofStatements file lineAt statements names).scopes.scopeOf? f.id = some s ∧
      (ofStatements file lineAt statements names).scopes.kindAt s = some .function := by
  obtain ⟨k, n, -, -, hscope, hkind⟩ := function_opener names hf
  exact ⟨k + 1, hscope, hkind⟩

variable {file lineAt statements names}

/-- The passes over functions of a file keep what is declared. -/
theorem passes_keep (options : LoweringOptions) (source : List Char) {fs : List FunctionNode}
    {st : PassState Unit}
    (hfs : ∀ f ∈ fs, f ∈ (ofStatements file lineAt statements names).functions)
    (h : KeepsDeclared (Run.passState (ofStatements file lineAt statements names)) st) :
    KeepsDeclared st (Lower.passes (Run.passContext options source) fs st) :=
  Lower.passes_keepsDeclared (ExtractionContext.extractor_grows _) fun f hf => by
    obtain ⟨s, hs, hkind⟩ := functions_scoped file lineAt statements names (hfs f hf)
    exact ⟨s, h.scopeOf? hs, (h.kinds s).trans hkind⟩

/-- After all passes, what the pass over a function replaces is declared in its scope. -/
theorem replaced_declared {options : LoweringOptions} {source : List Char} {fileName : String}
    {outcomes : List Outcome} {st : PassState Unit}
    (h : Run.lowerEach (Run.passContext options source) fileName
      (ofStatements file lineAt statements names).functions
      (Run.passState (ofStatements file lineAt statements names)) = (.ok outcomes, st))
    {f : FunctionNode} (hf : f ∈ (ofStatements file lineAt statements names).functions)
    {s : ScopeId} (hscope : (ofStatements file lineAt statements names).scopes.scopeOf? f.id = some s)
    {n : String} {position : Position} (hbound : (n, position) ∈ f.replaced.flatMap (·.bound)) :
    (st.scopes.get? s n).isSome := by
  obtain ⟨s', hs', hkind⟩ := functions_scoped file lineAt statements names hf
  obtain rfl : s' = s := Option.some.inj (hs'.symm.trans hscope)
  obtain ⟨before, after, o, u, hsplit, hpass, rfl⟩ := Run.lowerEach_at hf h
  have hbefore := passes_keep options source
    (fun g (hg : g ∈ before) => by rw [hsplit]; simp [hg]) (.refl _)
  have hkind' := (hbefore.kinds s').trans hkind
  have hregisters := lowerFunction_registers (ExtractionContext.extractor_grows _)
    (ExtractionContext.extractor_faithful _) (hbefore.scopeOf? hscope) hkind' hpass
  have hafter := passes_keep options source
    (fun g (hg : g ∈ after) => by rw [hsplit]; simp [hg]) (hbefore.trans hregisters.keepsDeclared)
  obtain ⟨e, he⟩ := Option.isSome_iff_exists.1 (hregisters.declared hkind' _ hbound)
  exact Option.isSome_iff_exists.2 ⟨e, hafter.stays _ _ _ he⟩

variable (file lineAt statements names)

/-- When all passes over the functions of a file have succeeded, every function of the tree has a
scope of its own, and each name in its parameter list is declared there. -/
theorem parameters_declared {options : LoweringOptions} {source : List Char} {fileName : String}
    {outcomes : List Outcome} {st : PassState Unit}
    (h : Run.lowerEach (Run.passContext options source) fileName
      (ofStatements file lineAt statements names).functions
      (Run.passState (ofStatements file lineAt statements names)) = (.ok outcomes, st)) :
    (∀ f ∈ (ofStatements file lineAt statements names).functions, ∃ k n,
      (openers (Node.nodesAll statements))[k]? = some n ∧ n.ReadsAs file lineAt f ∧
      st.scopes.scopeOf? f.id = some (k + 1)) ∧
    ∀ k name span params bodySpan body,
      (openers (Node.nodesAll statements))[k]? =
        some (.function name span params bodySpan body) →
      st.scopes.kindAt (k + 1) = some .function ∧
      (Target.OneRest params → ∀ t ∈ params, ∀ n ∈ t.names,
        (st.scopes.get? (k + 1) n).isSome) := by
  have hall := Run.lowerEach_passes h ▸ passes_keep options source (fun _ hf => hf) (.refl _)
  refine ⟨fun f hf => ?_, fun k name span params bodySpan body hk => ?_⟩
  · obtain ⟨k, n, hk, hread, hscope, -⟩ := function_opener names hf
    exact ⟨k, n, hk, hread, hall.scopeOf? hscope⟩
  · obtain ⟨lowered, hfunction⟩ := function_scope file lineAt names hk
    refine ⟨(hall.kinds (k + 1)).trans (kindAt_function file lineAt names hk),
      fun honce t ht n hn => ?_⟩
    by_cases hkept : (!lowered || t.isName) = true
    · -- the walk declares the name
      have hwalk := hfunction.declared t ht hkept n hn
      rw [← get?_ofStatements] at hwalk
      obtain ⟨e, he⟩ := Option.isSome_iff_exists.1 hwalk
      exact Option.isSome_iff_exists.2 ⟨e, hall.stays _ _ _ he⟩
    · -- the pass over the function declares it
      simp only [Bool.or_eq_true, Bool.not_eq_true', not_or, Bool.not_eq_false,
        Bool.not_eq_true] at hkept
      obtain ⟨hlowered, hname⟩ := hkept
      obtain ⟨g, hg⟩ := hfunction.found hlowered
      obtain ⟨f, hf, -, hscope⟩ := exists_function file lineAt statements names hg
      obtain ⟨_, -, -, hread⟩ := function_read hf hk hscope
      obtain ⟨position, hbound⟩ := (FunctionNode.readsList hread).replaces honce ht hname hn
      exact replaced_declared h hf hscope hbound

end Discovery

/-- The text of `hiddenStatements`. -/
def hiddenSource : List Char :=
  "function f(\x7ba\x7d, b = function (\x7bc\x7d) \x7b\x7d) \x7b return function (...r) \x7b\x7d \x7d".toList

theorem Discovery.parameters_declared_hidden : ∃ outcomes st,
    Run.lowerEach (Run.passContext {} hiddenSource) "a.js"
      (ofStatements 0 (fun _ => 1) hiddenStatements {}).functions
      (Run.passState (ofStatements 0 (fun _ => 1) hiddenStatements {})) = (.ok outcomes, st) ∧
    (st.scopes.get? 1 "a").isSome ∧ (st.scopes.get? 1 "b").isSome ∧
    (st.scopes.get? 2 "c").isSome ∧ (st.scopes.get? 3 "r").isSome := by
  have hok : (Run.lowerEach (Run.passContext {} hiddenSource) "a.js"
      (ofStatements 0 (fun _ => 1) hiddenStatements {}).functions
      (Run.passState (ofStatements 0 (fun _ => 1) hiddenStatements {}))).1.isOk = true := by
    decide +kernel
  match h : Run.lowerEach (Run.passContext {} hiddenSource) "a.js"
      (ofStatements 0 (fun _ => 1) hiddenStatements {}).functions
      (Run.passState (ofStatements 0 (fun _ => 1) hiddenStatements {})), hok with
  | (.ok outcomes, st), _ =>
    obtain ⟨-, hdeclared⟩ := Discovery.parameters_declared _ _ _ _ h
    obtain ⟨-, hlist⟩ := hdeclared 0 _ _ _ _ _ rfl
    obtain ⟨-, hhidden⟩ := hdeclared 1 _ _ _ _ _ rfl
    obtain ⟨-, hrest⟩ := hdeclared 2 _ _ _ _ _ rfl
    have hf := hlist ⟨by decide, by decide⟩
    exact ⟨outcomes, st, rfl, hf _ (.head _) "a" (by decide), hf _ (.tail _ (.head _)) "b" (by decide),
      hhidden ⟨by decide, by decide⟩ _ (.head _) "c" (by decide),
      hrest ⟨by decide, by decide⟩ _ (.head _) "r" (by decide)⟩

/-- The function in the list of the signature binds `b`. After all passes over the file, of which
there are none, the name is declared nowhere. -/
theorem Run.discover_leaves_undeclared :
    (Grammar.signature (Grammar.rules 40 40) { dialect := SourceFile.dialect "a.ts" }
        (Grammar.Cursor.ofPlace ⟨signatureSource.drop 10, 10⟩ 10 false)).map (fun r =>
      (openers (Target.nodesAll r.1.params)).map (fun
        | .function _ span params bodySpan _ => (span, params.flatMap (·.names), bodySpan)
        | n => (n.span, [], n.span))) = some [(⟨13, 30⟩, ["b"], ⟨28, 30⟩)] ∧
    (Run.discover 0 "a.ts" signatureSource NameSet.empty).map (fun d =>
      let answer := lowerEach (passContext {} signatureSource) "a.ts" d.functions (passState d)
      (answer.1.toOption.map (·.length), answer.2.scopes.scopes.map (·.bindings.map (·.1)))) =
      some (some 0, [["f"]]) := by
  decide +kernel

end ParamLowering
