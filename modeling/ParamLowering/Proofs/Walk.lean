import ParamLowering.Discovery
import ParamLowering.Proofs.Subtree
set_option autoImplicit false

/-!
The walk over a tree, by its steps.

A derivation lists the constructs that open scopes, in the order in which they begin, so that a
scope can be named by the place of its construct. What every step does to the findings, a whole
walk does, by one induction.
-/

namespace ParamLowering

open ParamLowering.Tree

namespace Tree

/-- Whether a construct opens a scope. -/
def Node.opensScope : Node → Bool
  | .function .. | .closure .. | .block .. | .handler .. => true
  | .name _ | .functionName _ | .className _ | .group .. | .declaration .. => false

def Node.isFunction : Node → Bool
  | .function .. => true
  | _ => false

/-- The constructs among nodes that open scopes. -/
def openers (ns : List Node) : List Node := ns.filter (·.opensScope)

@[simp] theorem openers_nil : openers [] = [] := rfl

@[simp] theorem openers_append (ns ms : List Node) :
    openers (ns ++ ms) = openers ns ++ openers ms :=
  List.filter_append ns ms

theorem openers_cons_of_opens {n : Node} (ns : List Node) (h : n.opensScope = true) :
    openers (n :: ns) = n :: openers ns := List.filter_cons_of_pos h

theorem openers_cons_of_not {n : Node} (ns : List Node) (h : n.opensScope = false) :
    openers (n :: ns) = openers ns := List.filter_cons_of_neg (by simp [h])

end Tree

/-- The findings when the walk enters the list of a function: its scope is there, the function is
kept or warned about, and the parameters that are declared are declared. -/
def Findings.enterFunction (st : Findings) (env : Surroundings) (name : Option String) (span : Span)
    (params : List Target) (bodySpan : Span) (body : List Node) : Findings :=
  let f := env.functionNode name span params bodySpan body
  declareParams st.scopes.size (env.isLowered f) 0 params
    ((st.push .function env.scope).note env name span st.scopes.size f)

/-- A walk from findings to findings that opens scopes. `own` is the scope whose parameters are
declared on the way, if there is one. -/
inductive Walked : Option ScopeId → Surroundings → List Node → Findings → Findings → Prop where
  | done {own : Option ScopeId} {env : Surroundings} (st : Findings) : Walked own env [] st st
  | seq {own : Option ScopeId} {env : Surroundings} {xs ys : List Node} {a b c : Findings}
      (first : Walked own env xs a b) (second : Walked own env ys b c) :
      Walked own env (xs ++ ys) a c
  | record {own : Option ScopeId} {env : Surroundings} (st : Findings) (name : String) :
      Walked own env [] st (st.record name)
  | declare {own : Option ScopeId} {env : Surroundings} (st : Findings) (scope : ScopeId)
      (kind : DeclarationKind) (ids : List Ident) :
      Walked own env [] st (st.declareAll scope kind none ids)
  | param {scope : ScopeId} {env : Surroundings} (st : Findings) (index : Nat) (target : Target) :
      Walked (some scope) env [] st (st.declareParam scope index target)
  /-- A scope of anything but a function to be lowered. -/
  | scope {own : Option ScopeId} {env : Surroundings} {n : Node} {xs : List Node} {a b : Findings}
      (kind : ScopeKind) (hn : n.isFunction = false)
      (inside : Walked (some a.scopes.size) { env with scope := a.scopes.size } xs
        (a.push kind env.scope) b) :
      Walked own env (n :: xs) a b
  | function {own : Option ScopeId} {env : Surroundings} {name : Option String} {span : Span}
      {params : List Target} {bodySpan : Span} {body : List Node} {xs ys : List Node}
      {a b c : Findings}
      (list : Walked none { env with
          scope := a.scopes.size
          inParameters := env.inParameters ||
            env.isLowered (env.functionNode name span params bodySpan body) } xs
        (a.enterFunction env name span params bodySpan body) b)
      (statements : Walked none { env with scope := a.scopes.size } ys b c) :
      Walked own env (.function name span params bodySpan body :: (xs ++ ys)) a c

namespace Walked

variable {own : Option ScopeId} {env : Surroundings} {xs ys : List Node} {a b c : Findings}

theorem record_first (name : String) (h : Walked own env xs (a.record name) b) :
    Walked own env xs a b := .seq (.record a name) h

theorem declare_first (scope : ScopeId) (kind : DeclarationKind) (ids : List Ident)
    (h : Walked own env xs (a.declareAll scope kind none ids) b) : Walked own env xs a b :=
  .seq (.declare a scope kind ids) h

theorem param_first {scope : ScopeId} (index : Nat) (target : Target)
    (h : Walked (some scope) env xs (a.declareParam scope index target) b) :
    Walked (some scope) env xs a b := .seq (.param a index target) h

end Walked

mutual
/-- What the walk does to a part of the tree is a derivation over the scopes opened in it. -/
theorem Tree.Node.collect_walked : ∀ (n : Node) (own : Option ScopeId) (env : Surroundings)
    (st : Findings), Walked own env (openers n.nodes) st (n.collect env st)
  | .name id, _, _, st => .record st id.name
  | .group _ parts, own, env, st => Node.collectAll_walked parts own env st
  | .functionName id, _, env, st =>
    .record_first id.name (.declare _ (st.scopes.closestHoist env.scope) .function [id])
  | .className id, _, env, st =>
    .declare_first env.scope .classBinding [id] (.record _ id.name)
  | .function name span params bodySpan body, own, env, st => by
    rw [Node.nodes, openers_cons_of_opens _ rfl, openers_append]
    exact .function (Target.collectAll_walked params none _ _) (Node.collectAll_walked body none _ _)
  | .closure _ params body, own, env, st => by
    rw [Node.nodes, openers_cons_of_opens _ rfl, openers_append]
    exact .scope .function rfl (.seq
      (Target.collectParams_walked params { env with scope := st.scopes.size } 0 _)
      (Node.collectAll_walked body _ _ _))
  | .block _ body, own, env, st => by
    rw [Node.nodes, openers_cons_of_opens _ rfl]
    exact .scope .block rfl (Node.collectAll_walked body _ _ _)
  | .handler _ param body, own, env, st => by
    rw [Node.nodes, openers_cons_of_opens _ rfl, openers_append]
    exact .scope .block rfl (.declare_first st.scopes.size .letBinding (param.flatMap (·.bound))
      (.seq (Target.collectAll_walked param _ _ _) (Node.collectAll_walked body _ _ _)))
  | .declaration _ kind targets, own, env, st => by
    rw [Node.nodes, openers_cons_of_not _ rfl]
    exact .declare_first (if kind = .var then st.scopes.closestHoist env.scope else env.scope) kind
      (targets.flatMap (·.bound)) (Target.collectAll_walked targets own env _)

theorem Tree.Node.collectAll_walked : ∀ (ns : List Node) (own : Option ScopeId)
    (env : Surroundings) (st : Findings),
    Walked own env (openers (Node.nodesAll ns)) st (Node.collectAll env ns st)
  | [], _, _, st => .done st
  | n :: ns, own, env, st => by
    rw [Node.nodesAll, openers_append]
    exact .seq (Node.collect_walked n own env st) (Node.collectAll_walked ns own env _)

theorem Tree.Target.collectParams_walked : ∀ (ts : List Target) (env : Surroundings) (index : Nat)
    (st : Findings), Walked (some env.scope) env (openers (Target.nodesAll ts)) st
      (Target.collectParams env index ts st)
  | [], _, _, st => .done st
  | t :: ts, env, index, st => by
    rw [Target.nodesAll, openers_append]
    exact .seq (.param_first index t (Target.collect_walked t _ env _))
      (Target.collectParams_walked ts env (index + 1) _)

theorem Tree.Target.collectAll_walked : ∀ (ts : List Target) (own : Option ScopeId)
    (env : Surroundings) (st : Findings),
    Walked own env (openers (Target.nodesAll ts)) st (Target.collectAll env ts st)
  | [], _, _, st => .done st
  | t :: ts, own, env, st => by
    rw [Target.nodesAll, openers_append]
    exact .seq (Target.collect_walked t own env st) (Target.collectAll_walked ts own env _)

theorem Tree.Target.collect_walked : ∀ (t : Target) (own : Option ScopeId) (env : Surroundings)
    (st : Findings), Walked own env (openers t.nodes) st (t.collect env st)
  | .name id _ notes, own, env, st => .record_first id.name (Node.collectAll_walked notes own env _)
  | .object _ fields notes, own, env, st => by
    rw [Target.nodes, openers_append]
    exact .seq (Field.collectAll_walked fields own env st) (Node.collectAll_walked notes own env _)
  | .array _ slots notes, own, env, st => by
    rw [Target.nodes, openers_append]
    exact .seq (Slot.collectAll_walked slots own env st) (Node.collectAll_walked notes own env _)
  | .rest _ target notes, own, env, st => by
    rw [Target.nodes, openers_append]
    exact .seq (Target.collect_walked target own env st) (Node.collectAll_walked notes own env _)
  | .withDefault target value, own, env, st => by
    rw [Target.nodes, openers_append]
    exact .seq (Target.collect_walked target own env st) (Node.collect_walked value own env _)
  | .undeclared target, own, env, st => Target.collect_walked target own env st

theorem Tree.Field.collectAll_walked : ∀ (fs : List Field) (own : Option ScopeId)
    (env : Surroundings) (st : Findings),
    Walked own env (openers (Field.nodesAll fs)) st (Field.collectAll env fs st)
  | [], _, _, st => .done st
  | f :: fs, own, env, st => by
    rw [Field.nodesAll, openers_append]
    exact .seq (Field.collect_walked f own env st) (Field.collectAll_walked fs own env _)

theorem Tree.Field.collect_walked : ∀ (f : Field) (own : Option ScopeId) (env : Surroundings)
    (st : Findings), Walked own env (openers f.nodes) st (f.collect env st)
  | .keyed _ keyParts value, own, env, st => by
    rw [Field.nodes, openers_append]
    exact .seq (Node.collectAll_walked keyParts own env st) (Target.collect_walked value own env _)
  | .shorthand id none, _, _, st => .record st id.name
  | .shorthand id (some value), own, env, st =>
    .record_first id.name (Node.collect_walked value own env _)
  | .rest target, own, env, st => Target.collect_walked target own env st

theorem Tree.Slot.collectAll_walked : ∀ (ss : List Slot) (own : Option ScopeId)
    (env : Surroundings) (st : Findings),
    Walked own env (openers (Slot.nodesAll ss)) st (Slot.collectAll env ss st)
  | [], _, _, st => .done st
  | .hole :: ss, own, env, st => Slot.collectAll_walked ss own env st
  | .item target :: ss, own, env, st => by
    rw [Slot.nodesAll, openers_append]
    exact .seq (Target.collect_walked target own env st) (Slot.collectAll_walked ss own env _)
end

end ParamLowering
