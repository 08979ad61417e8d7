import ParamLowering.Proofs.Merge
import ParamLowering.Proofs.Steps
import ParamLowering.Run
set_option autoImplicit false

/-!
The number of a file in its run.

The number of a file stands in the names of its functions, which tie the functions to their scopes.
If all numbers are raised by the same amount, a file is lowered as before.
-/

namespace ParamLowering

open ParamLowering.Tree

/-! ### Raised numbers -/

/-- The name of a function in a file with a number higher by `n`. -/
def FunctionId.raise (n : Nat) (id : FunctionId) : FunctionId := ⟨n + id.file, id.index⟩

theorem FunctionId.raise_beq (n : Nat) (a b : FunctionId) :
    (a.raise n == b.raise n) = (a == b) := by
  rw [Bool.eq_iff_iff, beq_iff_eq, beq_iff_eq, raise, raise, FunctionId.mk.injEq]
  obtain ⟨i, j⟩ := a
  obtain ⟨i', j'⟩ := b
  simp

def ScopeRegistry.raise (n : Nat) (r : ScopeRegistry) : ScopeRegistry :=
  { r with owners := r.owners.map fun o => (o.1.raise n, o.2) }

def FunctionNode.raise (n : Nat) (f : FunctionNode) : FunctionNode := { f with id := f.id.raise n }

def Surroundings.raise (n : Nat) (env : Surroundings) : Surroundings :=
  { env with file := n + env.file }

def Findings.raise (n : Nat) (st : Findings) : Findings :=
  { st with
    scopes := st.scopes.raise n
    found := st.found.map fun p => (p.1.raise n, p.2) }

def Discovery.raise (n : Nat) (d : Discovery) : Discovery :=
  { d with functions := d.functions.map (·.raise n), scopes := d.scopes.raise n }

def PassState.raise {σ : Type} (n : Nat) (st : PassState σ) : PassState σ :=
  { st with scopes := st.scopes.raise n }

def Subject.raise (n : Nat) (s : Subject) : Subject := { s with function := s.function.raise n }

def Run.raise (n : Nat) (run : Run) : Run := { run with nextFile := n + run.nextFile }

variable {n : Nat}

/-! ### Scopes -/

namespace ScopeRegistry

variable (r : ScopeRegistry)

@[simp] theorem size_raise : (r.raise n).size = r.size := rfl

theorem scopeOf?_raise (id : FunctionId) : (r.raise n).scopeOf? (id.raise n) = r.scopeOf? id := by
  obtain ⟨scopes, owners⟩ := r
  rw [scopeOf?, scopeOf?, raise]
  induction owners with
  | nil => rfl
  | cons o owners ih => rw [List.map_cons, List.lookup_cons, List.lookup_cons, id.raise_beq, ih]

theorem chainUpTo_raise (steps : Nat) (id : ScopeId) :
    (r.raise n).chainUpTo steps id = r.chainUpTo steps id := by
  induction steps generalizing id with
  | zero => rfl
  | succ steps ih =>
    simp only [chainUpTo, ih]
    rfl

/-- Who owns the scopes does not matter for the way up from one of them. -/
@[simp] theorem closestHoist_raise (id : ScopeId) :
    (r.raise n).closestHoist id = r.closestHoist id := by
  rw [closestHoist, closestHoist, chain, chain, chainUpTo_raise]
  rfl

end ScopeRegistry

/-! ### The walk -/

namespace Findings

variable (st : Findings)

@[simp] theorem scopes_raise : (st.raise n).scopes = st.scopes.raise n := rfl

@[simp] theorem record_raise (name : String) :
    (st.raise n).record name = (st.record name).raise n := rfl

@[simp] theorem declare_raise (scope : ScopeId) (kind : DeclarationKind)
    (position : Option Position) (id : Ident) : (st.raise n).declare scope kind position id =
      (st.declare scope kind position id).raise n := rfl

@[simp] theorem push_raise (kind : ScopeKind) (parent : ScopeId) :
    (st.raise n).push kind parent = (st.push kind parent).raise n := rfl

@[simp] theorem declareAll_raise (scope : ScopeId) (kind : DeclarationKind)
    (position : Option Position) (ids : List Ident) :
    (st.raise n).declareAll scope kind position ids =
      (st.declareAll scope kind position ids).raise n := by
  induction ids generalizing st with
  | nil => rfl
  | cons id ids ih => exact ih (st.declare scope kind position id)

@[simp] theorem declareParam_raise (scope : ScopeId) (index : Nat) (t : Target) :
    (st.raise n).declareParam scope index t = (st.declareParam scope index t).raise n :=
  declareAll_raise ..

@[simp] theorem declareParams_raise (scope : ScopeId) (lowered : Bool) (index : Nat)
    (ts : List Target) : declareParams scope lowered index ts (st.raise n) =
      (declareParams scope lowered index ts st).raise n := by
  induction ts generalizing index st with
  | nil => rfl
  | cons t ts ih =>
    rw [declareParams, declareParams, declareParam_raise, ← ih]
    split <;> rfl

@[simp] theorem note_raise (env : Surroundings) (name : Option String) (span : Span)
    (scope : ScopeId) (f : Except SkipReason FunctionNode) :
    (st.raise n).note (env.raise n) name span scope (f.map (·.raise n)) =
      (st.note env name span scope f).raise n := by
  cases f with
  | error reason => rfl
  | ok f =>
    obtain ⟨file, lineAt, here, inParameters⟩ := env
    cases inParameters with
    | false => simp [note, raise, Surroundings.raise, Except.map]
    | true =>
      have hmodern : (f.raise n).isModern = f.isModern := rfl
      simp only [note, Surroundings.raise, Except.map, hmodern, Bool.not_true, Bool.false_eq_true,
        ↓reduceIte]
      split <;> rfl

end Findings

namespace Surroundings

variable (env : Surroundings)

@[simp] theorem scope_raise : (env.raise n).scope = env.scope := rfl

@[simp] theorem inParameters_raise : (env.raise n).inParameters = env.inParameters := rfl

@[simp] theorem mk_raise (scope : ScopeId) (inParameters : Bool) :
    (⟨(env.raise n).file, (env.raise n).lineAt, scope, inParameters⟩ : Surroundings) =
      Surroundings.raise n ⟨env.file, env.lineAt, scope, inParameters⟩ := rfl

@[simp] theorem functionNode_raise (name : Option String) (span : Span) (params : List Target)
    (bodySpan : Span) (body : List Node) :
    (env.raise n).functionNode name span params bodySpan body =
      (env.functionNode name span params bodySpan body).map (·.raise n) := by
  rw [functionNode, functionNode]
  cases ParamList.ofTargets params <;> rfl

@[simp] theorem isLowered_raise (f : Except SkipReason FunctionNode) :
    (env.raise n).isLowered (f.map (·.raise n)) = env.isLowered f := by
  cases f <;> rfl

end Surroundings

mutual
/-- The walk over a file with a higher number finds the same, with the higher number. -/
theorem Tree.Node.collect_raise : ∀ (x : Node) (env : Surroundings) (st : Findings),
    x.collect (env.raise n) (st.raise n) = (x.collect env st).raise n
  | .name _, _, _ => rfl
  | .group _ parts, env, st => Node.collectAll_raise parts env st
  | .functionName id, env, st => by simp [Node.collect]
  | .className _, _, _ => rfl
  | .function name span params bodySpan body, env, st => by
    simp [Node.collect, Target.collectAll_raise params, Node.collectAll_raise body]
  | .closure _ params body, env, st => by
    simp [Node.collect, Target.collectParams_raise params, Node.collectAll_raise body]
  | .block _ body, env, st => by simp [Node.collect, Node.collectAll_raise body]
  | .handler _ param body, env, st => by
    simp [Node.collect, Target.collectAll_raise param, Node.collectAll_raise body]
  | .declaration _ kind targets, env, st => by
    simp [Node.collect, Target.collectAll_raise targets]

theorem Tree.Node.collectAll_raise : ∀ (xs : List Node) (env : Surroundings) (st : Findings),
    Node.collectAll (env.raise n) xs (st.raise n) = (Node.collectAll env xs st).raise n
  | [], _, _ => rfl
  | x :: xs, env, st => by
    simp only [Node.collectAll, Node.collect_raise x, Node.collectAll_raise xs]

theorem Tree.Target.collectParams_raise : ∀ (ts : List Target) (env : Surroundings) (index : Nat)
    (st : Findings), Target.collectParams (env.raise n) index ts (st.raise n) =
      (Target.collectParams env index ts st).raise n
  | [], _, _, _ => rfl
  | t :: ts, env, index, st => by
    simp [Target.collectParams, Target.collect_raise t, Target.collectParams_raise ts]

theorem Tree.Target.collectAll_raise : ∀ (ts : List Target) (env : Surroundings) (st : Findings),
    Target.collectAll (env.raise n) ts (st.raise n) = (Target.collectAll env ts st).raise n
  | [], _, _ => rfl
  | t :: ts, env, st => by
    simp only [Target.collectAll, Target.collect_raise t, Target.collectAll_raise ts]

theorem Tree.Target.collect_raise : ∀ (t : Target) (env : Surroundings) (st : Findings),
    t.collect (env.raise n) (st.raise n) = (t.collect env st).raise n
  | .name id _ notes, env, st => Node.collectAll_raise notes env (st.record id.name)
  | .object _ fields notes, env, st => by
    simp only [Target.collect, Field.collectAll_raise fields, Node.collectAll_raise notes]
  | .array _ slots notes, env, st => by
    simp only [Target.collect, Slot.collectAll_raise slots, Node.collectAll_raise notes]
  | .rest _ target notes, env, st => by
    simp only [Target.collect, Target.collect_raise target, Node.collectAll_raise notes]
  | .withDefault target value, env, st => by
    simp only [Target.collect, Target.collect_raise target, Node.collect_raise value]
  | .undeclared target, env, st => Target.collect_raise target env st

theorem Tree.Field.collectAll_raise : ∀ (fs : List Field) (env : Surroundings) (st : Findings),
    Field.collectAll (env.raise n) fs (st.raise n) = (Field.collectAll env fs st).raise n
  | [], _, _ => rfl
  | f :: fs, env, st => by
    simp only [Field.collectAll, Field.collect_raise f, Field.collectAll_raise fs]

theorem Tree.Field.collect_raise : ∀ (f : Field) (env : Surroundings) (st : Findings),
    f.collect (env.raise n) (st.raise n) = (f.collect env st).raise n
  | .keyed _ keyParts value, env, st => by
    simp only [Field.collect, Node.collectAll_raise keyParts, Target.collect_raise value]
  | .shorthand _ none, _, _ => rfl
  | .shorthand id (some value), env, st => Node.collect_raise value env (st.record id.name)
  | .rest target, env, st => Target.collect_raise target env st

theorem Tree.Slot.collectAll_raise : ∀ (ss : List Slot) (env : Surroundings) (st : Findings),
    Slot.collectAll (env.raise n) ss (st.raise n) = (Slot.collectAll env ss st).raise n
  | [], _, _ => rfl
  | .hole :: ss, env, st => Slot.collectAll_raise ss env st
  | .item target :: ss, env, st => by
    simp only [Slot.collectAll, Target.collect_raise target, Slot.collectAll_raise ss]
end

/-! ### The result of the walk -/

namespace Discovery

theorem number_raise (file next : Nat) (found : List (FunctionNode × ScopeId))
    (r : ScopeRegistry) :
    number (n + file) next (found.map fun p => (p.1.raise n, p.2)) (r.raise n) =
      Prod.map (List.map (·.raise n)) (·.raise n) (number file next found r) := by
  induction found generalizing next r with
  | nil => rfl
  | cons p found ih =>
    have hmore := ih (next + 1) (r.associate ⟨file, next⟩ p.2)
    rw [List.map_cons, number, number]
    exact congrArg (fun q => (_ :: q.1, q.2)) hmore

theorem ofStatements_raise (file : Nat) (lineAt : Nat → Nat) (statements : List Node)
    (names : NameSet) : ofStatements (n + file) lineAt statements names =
      (ofStatements file lineAt statements names).raise n := by
  have hwalk : Node.collectAll ⟨n + file, lineAt, ScopeRegistry.moduleScope, false⟩ statements
        ⟨ScopeRegistry.initial, names, [], []⟩ =
      (Node.collectAll ⟨file, lineAt, ScopeRegistry.moduleScope, false⟩ statements
        ⟨ScopeRegistry.initial, names, [], []⟩).raise n :=
    Node.collectAll_raise statements ⟨file, lineAt, ScopeRegistry.moduleScope, false⟩
      ⟨ScopeRegistry.initial, names, [], []⟩
  have hsort : ∀ found : List (FunctionNode × ScopeId),
      Sorting.sort (fun a b => decide (a.1.span.start ≤ b.1.span.start))
          (found.map fun p => (p.1.raise n, p.2)) =
        (Sorting.sort (fun a b => decide (a.1.span.start ≤ b.1.span.start)) found).map
          fun p => (p.1.raise n, p.2) :=
    fun found => Sorting.sort_map fun _ _ _ _ => rfl
  simp only [ofStatements, hwalk, Findings.raise, hsort, number_raise]
  rfl

end Discovery

/-! ### Steps -/

section

variable {ε S α β : Type} {g : S → S}

/-- From a changed state a step does what the other step does, and leaves its state changed. -/
def Carries (g : S → S) (m m' : ExceptT ε (StateM S) α) : Prop :=
  ∀ s, m'.run.run (g s) = Prod.map id g (m.run.run s)

theorem carries_pure (a : α) : Carries g (pure a : ExceptT ε (StateM S) α) (pure a) := fun _ => rfl

theorem carries_ofExcept (x : Except ε α) :
    Carries g (MonadExcept.ofExcept x : ExceptT ε (StateM S) α) (MonadExcept.ofExcept x) :=
  fun s => by rw [run_ofExcept, run_ofExcept]; rfl

theorem carries_modify {f : S → S} (hf : ∀ s, f (g s) = g (f s)) :
    Carries g (modify f : ExceptT ε (StateM S) PUnit) (modify f) :=
  fun s => congrArg (Prod.mk _) (hf s)

theorem carries_bind {m m' : ExceptT ε (StateM S) α} {f f' : α → ExceptT ε (StateM S) β}
    (hm : Carries g m m') (hf : ∀ a, Carries g (f a) (f' a)) : Carries g (m >>= f) (m' >>= f') := by
  intro s
  rw [run_bind, run_bind, hm s]
  rcases m.run.run s with ⟨_ | a, t⟩
  · rfl
  · exact hf a t

end

namespace Lower

variable {σ : Type} (cx : PassContext σ) (s : Subject)

/-- A step does the same if the number of the file is higher. -/
def Raises {α : Type} (n : Nat) (m m' : Lower σ α) : Prop := Carries (·.raise n) m m'

theorem register_raises (hoist : ScopeId) (origin : Span) (position : Position) (name : String) :
    Raises (σ := σ) n (register hoist origin position name) (register hoist origin position name) :=
  carries_modify fun _ => rfl

theorem registerAll_raises (hoist : ScopeId) (origin : Span) (position : Position)
    (names : List String) : Raises (σ := σ) n (registerAll hoist origin position names)
      (registerAll hoist origin position names) := by
  induction names with
  | nil => exact carries_pure _
  | cons name names ih =>
    exact carries_bind (register_raises hoist origin position name) fun _ => ih

theorem extract_run (pattern : Pattern) (source : SourceExpr) (st : PassState σ) :
    (Lower.extract cx pattern source).run.run st =
      ((cx.extractor.run pattern source st.names st.extractor).1,
        { st with
          names := (cx.extractor.run pattern source st.names st.extractor).2.1
          extractor := (cx.extractor.run pattern source st.names st.extractor).2.2 }) :=
  run_ofExcept _ _

theorem extract_raises (pattern : Pattern) (source : SourceExpr) :
    Raises n (Lower.extract cx pattern source) (Lower.extract cx pattern source) := fun st => by
  rw [extract_run, extract_run]
  rfl

theorem placeholder_raises (hoist : ScopeId) (origin : Span) (index : Nat) :
    Raises n (placeholder cx hoist origin index) (placeholder cx hoist origin index) := fun _ => rfl

theorem destructuredRemoval_raises (index : Nat) (param : Param) :
    Raises n (destructuredRemoval cx s index param)
      (destructuredRemoval cx (s.raise n) index param) := by
  have hslot : (s.raise n).keepsSlot index = s.keepsSlot index := rfl
  rw [destructuredRemoval, destructuredRemoval, hslot]
  split
  · exact carries_bind (placeholder_raises cx _ _ _) fun _ => carries_pure _
  · exact carries_pure _

theorem destructured_raises (index : Nat) (param : Param) :
    Raises n (destructured cx s index param) (destructured cx (s.raise n) index param) :=
  carries_bind (extract_raises cx _ _) fun _ => carries_bind (carries_ofExcept _) fun _ =>
    carries_bind (registerAll_raises _ _ _ _) fun _ =>
      carries_bind (destructuredRemoval_raises cx s index param) fun _ => carries_pure _

theorem destructuredFrom_raises (index : Nat) (params : List Param) :
    Raises n (destructuredFrom cx s index params)
      (destructuredFrom cx (s.raise n) index params) := by
  induction params generalizing index with
  | nil => exact carries_pure _
  | cons param params ih =>
    rw [destructuredFrom, destructuredFrom]
    split
    · exact carries_bind (destructured_raises cx s index param) fun _ =>
        carries_bind (ih (index + 1)) fun _ => carries_pure _
    · exact ih (index + 1)

theorem defaultedPrologue_raises (index : Nat) (param : Param) (default : DefaultValue) :
    Raises n (defaultedPrologue cx s index param default)
      (defaultedPrologue cx (s.raise n) index param default) := by
  refine carries_bind (carries_ofExcept _) fun text => ?_
  obtain ⟨pattern, span⟩ := param
  cases pattern with
  | object | array =>
    exact carries_bind (extract_raises cx _ _) fun _ =>
      carries_bind (registerAll_raises _ _ _ _) fun _ => carries_bind (carries_ofExcept _) fun _ =>
        carries_pure _
  | ident name nameSpan =>
    dsimp only
    split
    · exact carries_bind (carries_modify fun _ => rfl) fun _ =>
        carries_bind (register_raises _ _ _ _) fun _ => carries_pure _
    · exact carries_bind (register_raises _ _ _ _) fun _ => carries_pure _

theorem defaultedFrom_raises (index : Nat) (previousDefault : Option Nat)
    (ds : List (Param × DefaultValue)) :
    Raises n (defaultedFrom cx s index previousDefault ds)
      (defaultedFrom cx (s.raise n) index previousDefault ds) := by
  induction ds generalizing index previousDefault with
  | nil => exact carries_pure _
  | cons d ds ih =>
    have hone : Raises n (defaulted cx s index d.1 d.2 previousDefault)
        (defaulted cx (s.raise n) index d.1 d.2 previousDefault) :=
      carries_bind (defaultedPrologue_raises cx s index d.1 d.2) fun _ => carries_pure _
    exact carries_bind hone fun _ => carries_bind (ih _ _) fun _ => carries_pure _

theorem restReplacement_raises :
    Raises (σ := σ) n (restReplacement s) (restReplacement (s.raise n)) := by
  have hrest : (s.raise n).function.rest = s.function.rest := rfl
  rw [restReplacement, restReplacement, hrest]
  cases s.function.rest with
  | none => exact carries_pure _
  | some rest => exact carries_bind (register_raises _ _ _ _) fun _ => carries_pure _

theorem replacements_raises : Raises n (replacements cx s) (replacements cx (s.raise n)) :=
  carries_bind (destructuredFrom_raises cx s _ _) fun _ =>
    carries_bind (defaultedFrom_raises cx s _ _ _) fun _ =>
      carries_bind (restReplacement_raises s) fun _ => carries_pure _

end Lower

theorem lowerFunction_raise {σ : Type} (cx : PassContext σ) (f : FunctionNode)
    (st : PassState σ) : (lowerFunction cx (f.raise n)).run.run (st.raise n) =
      Prod.map id (·.raise n) ((lowerFunction cx f).run.run st) := by
  have hlayout : Layout.ofFunction (f.raise n) cx.source = Layout.ofFunction f cx.source := rfl
  have hmodern : (f.raise n).isModern = f.isModern := rfl
  have hscope : (st.raise n).scopes.scopeOf? (f.raise n).id = st.scopes.scopeOf? f.id :=
    st.scopes.scopeOf?_raise f.id
  rw [lowerFunction_run, lowerFunction_run, hlayout, hmodern, hscope]
  cases Layout.ofFunction f cx.source with
  | error e => rfl
  | ok layout =>
    cases f.isModern with
    | false => rfl
    | true =>
      cases st.scopes.scopeOf? f.id with
      | none => rfl
      | some scope =>
        have hhoist : (st.raise n).scopes.closestHoist scope = st.scopes.closestHoist scope :=
          st.scopes.closestHoist_raise scope
        have hpass : (Lower.replacements cx ⟨f.raise n, layout,
              st.scopes.closestHoist scope⟩).run.run (st.raise n) =
            Prod.map id (·.raise n) ((Lower.replacements cx ⟨f, layout,
              st.scopes.closestHoist scope⟩).run.run st) :=
          Lower.replacements_raises cx ⟨f, layout, st.scopes.closestHoist scope⟩ st
        simp only [↓reduceIte, hhoist, hpass]
        rcases (Lower.replacements cx ⟨f, layout, st.scopes.closestHoist scope⟩).run.run st
          with ⟨_ | _, _⟩ <;> rfl

/-! ### Files -/

namespace Run

theorem lowerEach_raise (cx : PassContext Unit) (file : String) (fs : List FunctionNode)
    (st : PassState Unit) : lowerEach cx file (fs.map (·.raise n)) (st.raise n) =
      Prod.map id (·.raise n) (lowerEach cx file fs st) := by
  induction fs generalizing st with
  | nil => rfl
  | cons f fs ih =>
    rw [List.map_cons, lowerEach, lowerEach, lowerFunction_raise]
    rcases (lowerFunction cx f).run.run st with ⟨e | outcome, t⟩
    · rfl
    · simp only [Prod.map, id_eq, ih]
      rcases lowerEach cx file fs t with ⟨_ | _, _⟩ <;> rfl

theorem discover_raise (file : Nat) (name : String) (source : List Char) (names : NameSet) :
    discover (n + file) name source names = (discover file name source names).map (·.raise n) := by
  rw [discover, discover, Option.map_map]
  exact congrArg (fun f => (SourceFile.statements? name source).map f)
    (funext fun statements => Discovery.ofStatements_raise file _ statements names)

/-- A file is lowered in the same way in a run that numbers its files from a higher number on. -/
theorem lowerFile_raise (run : Run) (file : String) (source : List Char) :
    (run.raise n).lowerFile file source = Prod.map id (·.raise n) (run.lowerFile file source) := by
  have hdiscover : discover (run.raise n).nextFile file source (run.raise n).names =
      (discover run.nextFile file source run.names).map (·.raise n) := discover_raise ..
  rw [lowerFile, lowerFile, hdiscover]
  cases discover run.nextFile file source run.names with
  | none => rfl
  | some d =>
    have heach : lowerEach (passContext (run.raise n).options source) file (d.raise n).functions
          (passState (d.raise n)) = Prod.map id (·.raise n)
        (lowerEach (passContext run.options source) file d.functions (passState d)) :=
      lowerEach_raise (passContext run.options source) file d.functions (passState d)
    simp only [Option.map_some, heach]
    rcases lowerEach (passContext run.options source) file d.functions (passState d)
      with ⟨_ | _, _⟩ <;> rfl

end Run

end ParamLowering
