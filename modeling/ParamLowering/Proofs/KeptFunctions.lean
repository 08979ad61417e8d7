import ParamLowering.Discovery
set_option autoImplicit false

/-!
The functions that the walk over a tree keeps, read off the tree alone.

Which functions are kept does not depend on scopes, names or warnings: only on what each list
reads as, and on whether the place is hidden inside a list that is going to be lowered.
-/

namespace ParamLowering

open ParamLowering.Tree

/-- A function is read if its list is; the rest is taken as it stands. -/
theorem Surroundings.functionNode_eq_ok {env : Surroundings} {name : Option String} {span : Span}
    {params : List Target} {bodySpan : Span} {body : List Node} {f : FunctionNode}
    (h : env.functionNode name span params bodySpan body = .ok f) :
    ∃ list, ParamList.ofTargets params = .ok list ∧ f = {
      id := ⟨env.file, 0⟩, name, span, line := env.lineAt span.start, params := list.params
      defaults := list.defaults, rest := list.rest, thisParam := list.thisParam
      body := ⟨bodySpan, body.head?.map (·.span)⟩ } := by
  rw [functionNode] at h
  match hparams : ParamList.ofTargets params, h with
  | .ok list, h => exact ⟨list, rfl, (Except.ok.inj h).symm⟩

namespace Findings

variable (st : Findings)

def functions : List FunctionNode := st.found.map (·.1)

@[simp] theorem functions_record (name : String) : (st.record name).functions = st.functions := rfl

@[simp] theorem functions_declare (scope : ScopeId) (kind : DeclarationKind)
    (position : Option Position) (id : Ident) :
    (st.declare scope kind position id).functions = st.functions := rfl

@[simp] theorem functions_push (kind : ScopeKind) (parent : ScopeId) :
    (st.push kind parent).functions = st.functions := rfl

@[simp] theorem functions_declareAll (scope : ScopeId) (kind : DeclarationKind)
    (position : Option Position) (ids : List Ident) :
    (st.declareAll scope kind position ids).functions = st.functions := by
  rw [declareAll]
  induction ids generalizing st with
  | nil => rfl
  | cons id ids ih => rw [List.foldl_cons, ih, functions_declare]

@[simp] theorem functions_declareParam (scope : ScopeId) (index : Nat) (target : Target) :
    (st.declareParam scope index target).functions = st.functions :=
  functions_declareAll st _ _ _ _

@[simp] theorem functions_declareParams (scope : ScopeId) (lowered : Bool) (index : Nat)
    (targets : List Target) :
    (declareParams scope lowered index targets st).functions = st.functions := by
  induction targets generalizing index st with
  | nil => rfl
  | cons t ts ih =>
    rw [declareParams, ih]
    split
    · exact functions_declareParam st _ _ _
    · rfl

end Findings

namespace Tree

/-- Whether the list of a function is hidden: it is in a hidden place, or it will be lowered. -/
def hides (hidden : Bool) (f : Except SkipReason FunctionNode) : Bool :=
  hidden || match f with
    | .error _ => false
    | .ok f => f.isModern

/-- A function that was read is kept unless it is in a hidden place. -/
def keep (hidden : Bool) (f : Except SkipReason FunctionNode) : List FunctionNode :=
  match f with
  | .error _ => []
  | .ok f => if hidden then [] else [f]

/-- A function as it is read in a file, whatever the scope. -/
abbrev readFunction (file : Nat) (lineAt : Nat → Nat) :=
  (⟨file, lineAt, ScopeRegistry.moduleScope, false⟩ : Surroundings).functionNode

section

variable (file : Nat) (lineAt : Nat → Nat)

mutual
/-- The functions kept in a part of the tree, in the order in which they are met. -/
def Node.kept (hidden : Bool) : Node → List FunctionNode
  | .name _ | .functionName _ | .className _ => []
  | .group _ parts => Node.keptAll hidden parts
  | .function name span params bodySpan body =>
    let f := readFunction file lineAt name span params bodySpan body
    keep hidden f ++ (Target.keptAll (hides hidden f) params ++ Node.keptAll hidden body)
  | .closure _ params body | .handler _ params body =>
    Target.keptAll hidden params ++ Node.keptAll hidden body
  | .block _ body => Node.keptAll hidden body
  | .declaration _ _ targets => Target.keptAll hidden targets

def Node.keptAll (hidden : Bool) : List Node → List FunctionNode
  | [] => []
  | n :: ns => n.kept hidden ++ Node.keptAll hidden ns

def Target.kept (hidden : Bool) : Target → List FunctionNode
  | .name _ _ notes => Node.keptAll hidden notes
  | .object _ fields notes => Field.keptAll hidden fields ++ Node.keptAll hidden notes
  | .array _ slots notes => Slot.keptAll hidden slots ++ Node.keptAll hidden notes
  | .rest _ target notes => target.kept hidden ++ Node.keptAll hidden notes
  | .withDefault target value => target.kept hidden ++ value.kept hidden
  | .undeclared target => target.kept hidden

def Target.keptAll (hidden : Bool) : List Target → List FunctionNode
  | [] => []
  | t :: ts => t.kept hidden ++ Target.keptAll hidden ts

def Field.kept (hidden : Bool) : Field → List FunctionNode
  | .keyed _ keyParts value => Node.keptAll hidden keyParts ++ value.kept hidden
  | .shorthand _ none => []
  | .shorthand _ (some value) => value.kept hidden
  | .rest target => target.kept hidden

def Field.keptAll (hidden : Bool) : List Field → List FunctionNode
  | [] => []
  | f :: fs => f.kept hidden ++ Field.keptAll hidden fs

def Slot.keptAll (hidden : Bool) : List Slot → List FunctionNode
  | [] => []
  | .hole :: ss => Slot.keptAll hidden ss
  | .item target :: ss => target.kept hidden ++ Slot.keptAll hidden ss
end

end

end Tree

/-! ### The walk -/

theorem Findings.functions_note (st : Findings) (env : Surroundings) (name : Option String)
    (span : Span) (scope : ScopeId) (f : Except SkipReason FunctionNode) :
    (st.note env name span scope f).functions = st.functions ++ keep env.inParameters f := by
  cases f with
  | error reason => exact (List.append_nil _).symm
  | ok f =>
    cases hhidden : env.inParameters with
    | false => simp [note, hhidden, functions, keep]
    | true =>
      simp only [note, hhidden, keep, Bool.not_true, Bool.false_eq_true, ↓reduceIte,
        List.append_nil]
      split <;> rfl

theorem Surroundings.hides_eq (env : Surroundings) (f : Except SkipReason FunctionNode) :
    (env.inParameters || env.isLowered f) = hides env.inParameters f := by
  cases f with
  | error reason => rfl
  | ok f => cases h : env.inParameters <;> simp [isLowered, hides, h]

mutual
/-- The walk keeps these functions behind those kept before. -/
theorem Tree.Node.collect_functions : ∀ (n : Node) (env : Surroundings) (st : Findings),
    (n.collect env st).functions = st.functions ++ n.kept env.file env.lineAt env.inParameters
  | .name _, _, _ | .functionName _, _, _ | .className _, _, _ => (List.append_nil _).symm
  | .group _ parts, env, st => Node.collectAll_functions parts env st
  | .function name span params bodySpan body, env, st => by
    rw [Node.collect, Node.collectAll_functions body, Target.collectAll_functions params,
      Findings.functions_declareParams, Findings.functions_note, env.hides_eq, Node.kept]
    simp only [List.append_assoc]
    rfl
  | .closure _ params body, env, st => by
    rw [Node.collect, Node.collectAll_functions body, Target.collectParams_functions params,
      Node.kept, List.append_assoc]
    rfl
  | .block _ body, env, st => Node.collectAll_functions body _ _
  | .handler _ param body, env, st => by
    rw [Node.collect, Node.collectAll_functions body, Target.collectAll_functions param,
      Findings.functions_declareAll, Node.kept, List.append_assoc]
    rfl
  | .declaration _ kind targets, env, st => by
    rw [Node.collect, Target.collectAll_functions targets, Findings.functions_declareAll, Node.kept]

theorem Tree.Node.collectAll_functions : ∀ (ns : List Node) (env : Surroundings) (st : Findings),
    (Node.collectAll env ns st).functions =
      st.functions ++ Node.keptAll env.file env.lineAt env.inParameters ns
  | [], _, _ => (List.append_nil _).symm
  | n :: ns, env, st => by
    rw [Node.collectAll, Node.collectAll_functions ns, Node.collect_functions n, Node.keptAll,
      List.append_assoc]

theorem Tree.Target.collectParams_functions : ∀ (ts : List Target) (env : Surroundings)
    (index : Nat) (st : Findings), (Target.collectParams env index ts st).functions =
      st.functions ++ Target.keptAll env.file env.lineAt env.inParameters ts
  | [], _, _, _ => (List.append_nil _).symm
  | t :: ts, env, index, st => by
    rw [Target.collectParams, Target.collectParams_functions ts, Target.collect_functions t,
      Findings.functions_declareParam, Target.keptAll, List.append_assoc]

theorem Tree.Target.collectAll_functions : ∀ (ts : List Target) (env : Surroundings)
    (st : Findings), (Target.collectAll env ts st).functions =
      st.functions ++ Target.keptAll env.file env.lineAt env.inParameters ts
  | [], _, _ => (List.append_nil _).symm
  | t :: ts, env, st => by
    rw [Target.collectAll, Target.collectAll_functions ts, Target.collect_functions t,
      Target.keptAll, List.append_assoc]

theorem Tree.Target.collect_functions : ∀ (t : Target) (env : Surroundings) (st : Findings),
    (t.collect env st).functions = st.functions ++ t.kept env.file env.lineAt env.inParameters
  | .name _ _ notes, env, st => Node.collectAll_functions notes env _
  | .object _ fields notes, env, st => by
    rw [Target.collect, Node.collectAll_functions notes, Field.collectAll_functions fields,
      Target.kept, List.append_assoc]
  | .array _ slots notes, env, st => by
    rw [Target.collect, Node.collectAll_functions notes, Slot.collectAll_functions slots,
      Target.kept, List.append_assoc]
  | .rest _ target notes, env, st => by
    rw [Target.collect, Node.collectAll_functions notes, Target.collect_functions target,
      Target.kept, List.append_assoc]
  | .withDefault target value, env, st => by
    rw [Target.collect, Node.collect_functions value, Target.collect_functions target,
      Target.kept, List.append_assoc]
  | .undeclared target, env, st => Target.collect_functions target env st

theorem Tree.Field.collectAll_functions : ∀ (fs : List Field) (env : Surroundings) (st : Findings),
    (Field.collectAll env fs st).functions =
      st.functions ++ Field.keptAll env.file env.lineAt env.inParameters fs
  | [], _, _ => (List.append_nil _).symm
  | f :: fs, env, st => by
    rw [Field.collectAll, Field.collectAll_functions fs, Field.collect_functions f, Field.keptAll,
      List.append_assoc]

theorem Tree.Field.collect_functions : ∀ (f : Field) (env : Surroundings) (st : Findings),
    (f.collect env st).functions = st.functions ++ f.kept env.file env.lineAt env.inParameters
  | .keyed _ keyParts value, env, st => by
    rw [Field.collect, Target.collect_functions value, Node.collectAll_functions keyParts,
      Field.kept, List.append_assoc]
  | .shorthand _ none, _, _ => (List.append_nil _).symm
  | .shorthand _ (some value), env, st => Node.collect_functions value env _
  | .rest target, env, st => Target.collect_functions target env st

theorem Tree.Slot.collectAll_functions : ∀ (ss : List Slot) (env : Surroundings) (st : Findings),
    (Slot.collectAll env ss st).functions =
      st.functions ++ Slot.keptAll env.file env.lineAt env.inParameters ss
  | [], _, _ => (List.append_nil _).symm
  | .hole :: ss, env, st => Slot.collectAll_functions ss env st
  | .item target :: ss, env, st => by
    rw [Slot.collectAll, Slot.collectAll_functions ss, Target.collect_functions target,
      Slot.keptAll, List.append_assoc]
end

/-! ### The result -/

namespace Discovery

variable {file : Nat}

/-- A numbered function is one of those found. -/
theorem mem_number {next : Nat} {found : List (FunctionNode × ScopeId)} {scopes : ScopeRegistry}
    {g : FunctionNode} (h : g ∈ (number file next found scopes).1) :
    ∃ p ∈ found, ∃ id, g = { p.1 with id } := by
  induction found generalizing next scopes with
  | nil => simp [number] at h
  | cons p more ih =>
    rcases List.mem_cons.1 h with rfl | h
    · exact ⟨p, by simp, _, rfl⟩
    · obtain ⟨q, hq, id, hg⟩ := ih h
      exact ⟨q, List.mem_cons_of_mem p hq, id, hg⟩

theorem number_pairwise {R : FunctionNode → FunctionNode → Prop}
    (hR : ∀ f g i j, R f g → R { f with id := i } { g with id := j }) {next : Nat}
    {found : List (FunctionNode × ScopeId)} {scopes : ScopeRegistry}
    (h : (found.map (·.1)).Pairwise R) : (number file next found scopes).1.Pairwise R := by
  induction found generalizing next scopes with
  | nil => exact List.Pairwise.nil
  | cons p more ih =>
    obtain ⟨hp, hmore⟩ := List.pairwise_cons.1 h
    refine List.pairwise_cons.2 ⟨fun g hg => ?_, ih hmore⟩
    obtain ⟨q, hq, id, rfl⟩ := mem_number hg
    exact hR _ _ _ _ (hp q.1 (List.mem_map_of_mem hq))

/-- Before they were put in order and numbered, the functions were those kept. -/
theorem ofStatements_functions (file : Nat) (lineAt : Nat → Nat) (statements : List Node)
    (names : NameSet) :
    ∃ found scopes, (ofStatements file lineAt statements names).functions =
        (number file 0 found scopes).1 ∧
      List.Perm (found.map (·.1)) (Node.keptAll file lineAt false statements) := by
  refine ⟨_, _, rfl, ((Sorting.sort_perm _ _).map _).trans ?_⟩
  have hkept := Node.collectAll_functions statements
    ⟨file, lineAt, ScopeRegistry.moduleScope, false⟩ ⟨ScopeRegistry.initial, names, [], []⟩
  change List.Perm (Findings.functions _) _
  rw [hkept]
  exact List.Perm.refl _

variable {lineAt : Nat → Nat} {statements : List Node} (names : NameSet)

/-- What holds of all functions kept, whatever their numbers, holds of those discovered. -/
theorem forall_functions {P : FunctionNode → Prop} (hP : ∀ f id, P f → P { f with id })
    (h : ∀ f ∈ Node.keptAll file lineAt false statements, P f) :
    ∀ f ∈ (ofStatements file lineAt statements names).functions, P f := by
  obtain ⟨found, scopes, heq, hperm⟩ := ofStatements_functions file lineAt statements names
  intro f hf
  rw [heq] at hf
  obtain ⟨p, hp, id, rfl⟩ := mem_number hf
  exact hP _ _ (h p.1 (hperm.mem_iff.1 (List.mem_map_of_mem hp)))

theorem pairwise_functions {R : FunctionNode → FunctionNode → Prop} (hsymm : ∀ f g, R f g → R g f)
    (hR : ∀ f g i j, R f g → R { f with id := i } { g with id := j })
    (h : (Node.keptAll file lineAt false statements).Pairwise R) :
    (ofStatements file lineAt statements names).functions.Pairwise R := by
  obtain ⟨found, scopes, heq, hperm⟩ := ofStatements_functions file lineAt statements names
  rw [heq]
  exact number_pairwise hR ((hperm.pairwise_iff fun hfg => hsymm _ _ hfg).2 h)

end Discovery

end ParamLowering
